import Mathlib.Data.Multiset.UnionInter

/-!
# Matching the items of two lists

The items of one list are matched one after the other with what is left of
another list. In whatever order this is done, as many are matched as the lists
have in common.
-/

namespace GreedyMatching

universe u

variable {α : Type u} [DecidableEq α]

/-- How many items of a list are matched with one of the others, each of which is
then taken away. -/
def matchCount (others : List α) : List α → ℕ
  | [] => 0
  | a :: l =>
    match others.findIdx? fun b => a = b with
    | some j => matchCount (others.eraseIdx j) l + 1
    | none => matchCount others l

/-- The first item that is equal is taken away, if there is one. -/
theorem matchCount_cons (others l : List α) (a : α) :
    matchCount others (a :: l) =
      if a ∈ others then matchCount (others.erase a) l + 1 else matchCount others l := by
  rw [matchCount]
  cases hfind : others.findIdx? fun b => a = b with
  | none =>
    have hnot : a ∉ others := fun hmem =>
      absurd rfl (of_decide_eq_false (List.findIdx?_eq_none_iff.mp hfind a hmem))
    rw [if_neg hnot]
  | some j =>
    obtain ⟨hlt, hfound⟩ := List.findIdx?_eq_some_iff_findIdx_eq.mp hfind
    have hidx : others.idxOf a = j := by
      rw [List.idxOf, ← hfound]
      refine congrArg others.findIdx (funext fun b => Bool.eq_iff_iff.mpr ?_)
      rw [beq_iff_eq, decide_eq_true_iff, eq_comm]
    rw [if_pos (List.idxOf_lt_length_iff.mp (hidx ▸ hlt)), List.erase_eq_eraseIdx_of_idxOf hidx]

/-- So the common items are counted, with repetitions. -/
theorem matchCount_eq_card (others l : List α) :
    matchCount others l = Multiset.card ((l : Multiset α) ∩ (others : Multiset α)) := by
  induction l generalizing others with
  | nil => simp [matchCount]
  | cons a l ih =>
    rw [matchCount_cons, ← Multiset.cons_coe]
    by_cases ha : a ∈ others
    · rw [if_pos ha, Multiset.cons_inter_of_pos _ (Multiset.mem_coe.mpr ha), Multiset.card_cons,
        Multiset.coe_erase, ih]
    · rw [if_neg ha, Multiset.cons_inter_of_neg _ (mt Multiset.mem_coe.mp ha), ih]

theorem matchCount_comm (l l' : List α) : matchCount l l' = matchCount l' l := by
  rw [matchCount_eq_card, matchCount_eq_card, Multiset.inter_comm]

theorem matchCount_le_length (others l : List α) : matchCount others l ≤ l.length := by
  rw [matchCount_eq_card]
  exact Multiset.card_le_card Multiset.inter_le_left

/-- All items of two collections are in common exactly if these are the same. -/
theorem two_mul_card_inter_iff (s t : Multiset α) :
    2 * Multiset.card (s ∩ t) = Multiset.card s + Multiset.card t ↔ s = t := by
  constructor
  · intro h
    have hs : Multiset.card (s ∩ t) ≤ Multiset.card s := Multiset.card_le_card Multiset.inter_le_left
    have ht : Multiset.card (s ∩ t) ≤ Multiset.card t := Multiset.card_le_card Multiset.inter_le_right
    have hleft : s ∩ t = s := Multiset.eq_of_le_of_card_le Multiset.inter_le_left (by omega)
    have hright : s ∩ t = t := Multiset.eq_of_le_of_card_le Multiset.inter_le_right (by omega)
    exact hleft.symm.trans hright
  · rintro rfl
    have hself : s ∩ s = s := le_antisymm Multiset.inter_le_left (Multiset.le_inter le_rfl le_rfl)
    rw [hself, Nat.two_mul]

end GreedyMatching
