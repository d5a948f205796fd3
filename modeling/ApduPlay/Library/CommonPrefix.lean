import Mathlib.Data.List.TakeDrop
import Mathlib.Data.List.Infix
import Mathlib.Order.MinMax

/-!
# Longest common prefixes

The number of elements that two lists, or all lists of a list of lists, begin
with in common. A length is within it exactly if one list of that length is a
prefix of them all, so that the order of the lists does not matter, nor does
the list all the others are compared with.
-/

namespace CommonPrefix

universe u v

variable {α : Type u} {β : Type v} [DecidableEq α] [DecidableEq β]

/-- Number of elements two lists begin with in common. -/
def agree : List α → List α → ℕ
  | a :: as, b :: bs => if a = b then agree as bs + 1 else 0
  | _, _ => 0

/-- Number of elements a list begins with in common with every other list. -/
def shared (l : List α) (ls : List (List α)) : ℕ := ls.foldl (fun k l' => min k (agree l l')) l.length

/-- Number of elements all lists begin with in common. -/
def commonLength : List (List α) → ℕ
  | [] => 0
  | l :: ls => shared l ls

variable {l l' : List α} {ls : List (List α)} {k : ℕ}

/-- A length is within the common prefix exactly if the lists have the same
first elements up to there. -/
theorem le_agree_iff : k ≤ agree l l' ↔ k ≤ l.length ∧ k ≤ l'.length ∧ l.take k = l'.take k := by
  induction l generalizing l' k with
  | nil => cases k <;> simp [agree]
  | cons a l ih =>
    cases l' with
    | nil => cases k <;> simp [agree]
    | cons b l' =>
      cases k with
      | zero => simp
      | succ k =>
        by_cases hab : a = b
        · rw [agree, if_pos hab, Nat.succ_le_succ_iff, ih, hab]
          simp
        · rw [agree, if_neg hab]
          simp [hab]

/-- The same in terms of one list that both begin with. -/
theorem le_agree_iff_prefix : k ≤ agree l l' ↔ ∃ p, p.length = k ∧ p <+: l ∧ p <+: l' := by
  rw [le_agree_iff]
  constructor
  · rintro ⟨hl, hl', htake⟩
    exact ⟨l.take k, List.length_take_of_le hl, List.take_prefix k l, htake ▸ List.take_prefix k l'⟩
  · rintro ⟨p, rfl, hp, hp'⟩
    exact ⟨hp.length_le, hp'.length_le,
      (List.prefix_iff_eq_take.mp hp).symm.trans (List.prefix_iff_eq_take.mp hp')⟩

/-- The common prefix goes on as long as the next elements are the same. -/
theorem lt_agree_iff (hk : k ≤ agree l l') : k < agree l l' ↔ ∃ a, l[k]? = some a ∧ l'[k]? = some a := by
  obtain ⟨-, -, htake⟩ := le_agree_iff.mp hk
  rw [← Nat.succ_le_iff, le_agree_iff, List.take_add_one, List.take_add_one, htake,
    List.append_cancel_left_eq]
  constructor
  · rintro ⟨hl, hl', hnext⟩
    rw [List.getElem?_eq_getElem hl, List.getElem?_eq_getElem hl'] at hnext ⊢
    exact ⟨_, rfl, congrArg some (List.cons_eq_cons.mp hnext).1.symm⟩
  · rintro ⟨a, ha, ha'⟩
    exact ⟨List.getElem?_eq_some_iff.mp ha |>.1, List.getElem?_eq_some_iff.mp ha' |>.1, by rw [ha, ha']⟩

/-- Elements that are spelled differently have no more in common. -/
theorem agree_map {f : α → β} (hf : Function.Injective f) (l l' : List α) :
    agree (l.map f) (l'.map f) = agree l l' := by
  induction l generalizing l' with
  | nil => rfl
  | cons a l ih =>
    cases l' with
    | nil => rfl
    | cons b l' =>
      rw [List.map_cons, List.map_cons, agree, agree, ih]
      exact if_congr hf.eq_iff rfl rfl

theorem le_shared_iff : k ≤ shared l ls ↔ k ≤ l.length ∧ ∀ l' ∈ ls, k ≤ agree l l' := by
  have hfold (n : ℕ) : k ≤ ls.foldl (fun k l' => min k (agree l l')) n ↔
      k ≤ n ∧ ∀ l' ∈ ls, k ≤ agree l l' := by
    induction ls generalizing n with
    | nil => simp
    | cons x ls ih => rw [List.foldl_cons, ih, le_min_iff, List.forall_mem_cons, and_assoc]
  exact hfold l.length

theorem shared_map {f : α → β} (hf : Function.Injective f) (l : List α) (ls : List (List α)) :
    shared (l.map f) (ls.map (List.map f)) = shared l ls := by
  rw [shared, shared, List.foldl_map, List.length_map]
  simp only [agree_map hf]

theorem commonLength_map {f : α → β} (hf : Function.Injective f) (ls : List (List α)) :
    commonLength (ls.map (List.map f)) = commonLength ls := by
  cases ls with
  | nil => rfl
  | cons l ls => exact shared_map hf l ls

/-- A length is within the common prefix exactly if all lists begin with one
list of that length. -/
theorem le_commonLength_iff (hls : ls ≠ []) :
    k ≤ commonLength ls ↔ ∃ p, p.length = k ∧ ∀ l ∈ ls, p <+: l := by
  obtain ⟨l, ls, rfl⟩ := List.exists_cons_of_ne_nil hls
  rw [commonLength, le_shared_iff]
  constructor
  · rintro ⟨hl, hall⟩
    refine ⟨l.take k, List.length_take_of_le hl,
      List.forall_mem_cons.mpr ⟨List.take_prefix k l, fun l' hl' => ?_⟩⟩
    rw [(le_agree_iff.mp (hall l' hl')).2.2]
    exact List.take_prefix k l'
  · rintro ⟨p, hp, hall⟩
    obtain ⟨hl, hrest⟩ := List.forall_mem_cons.mp hall
    exact ⟨hp ▸ hl.length_le, fun l' hl' => le_agree_iff_prefix.mpr ⟨p, hp, hl, hrest l' hl'⟩⟩

/-- It does not matter which of the lists the others are compared with. -/
theorem shared_eq_commonLength (hl : l ∈ ls) : shared l ls = commonLength ls := by
  have hls : ls ≠ [] := List.ne_nil_of_mem hl
  refine eq_of_forall_le_iff fun k => ?_
  rw [le_commonLength_iff hls, le_shared_iff]
  constructor
  · rintro ⟨hlen, hall⟩
    refine ⟨l.take k, List.length_take_of_le hlen, fun l' hl' => ?_⟩
    rw [(le_agree_iff.mp (hall l' hl')).2.2]
    exact List.take_prefix k l'
  · rintro ⟨p, hp, hall⟩
    exact ⟨hp ▸ (hall l hl).length_le, fun l' hl' => le_agree_iff_prefix.mpr ⟨p, hp, hall l hl, hall l' hl'⟩⟩

/-- The common prefix is in every list. -/
theorem commonLength_le (hl : l ∈ ls) : commonLength ls ≤ l.length :=
  (le_shared_iff.mp (shared_eq_commonLength hl).ge).1

/-- All lists begin with the first elements of each. -/
theorem take_commonLength (hl : l ∈ ls) (hl' : l' ∈ ls) (hk : k ≤ commonLength ls) :
    l.take k = l'.take k := by
  rw [← shared_eq_commonLength hl] at hk
  exact (le_agree_iff.mp ((le_shared_iff.mp hk).2 l' hl')).2.2

end CommonPrefix
