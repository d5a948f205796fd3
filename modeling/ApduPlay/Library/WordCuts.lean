import Mathlib.Algebra.GroupWithZero.Nat
import Mathlib.Data.List.Forall2
import Mathlib.Data.List.Infix
import Mathlib.Data.Set.Basic

/-!
# Cut points of a growing set of words

Words arrive one after the other in a compressed prefix tree that cuts a
branch only where two words part and where a new word ends. Which words end
at a cut point is a property of the arrival order alone, stated here without
the tree.
-/

namespace WordCuts

universe u

variable {α : Type u}

/-- The words read so far, with all their prefixes. -/
def pathsOf (words : List (List α)) : Set (List α) := {u | u = [] ∨ ∃ e ∈ words, u <+: e}

/-- The longest beginning of a word that was read before. -/
def MaxPrefix (paths : Set (List α)) (s u : List α) : Prop :=
  u <+: s ∧ u ∈ paths ∧ ∀ a, u ++ [a] <+: s → u ++ [a] ∉ paths

/-- Two of the words continue `u` with different letters. -/
def Branches (words : List (List α)) (u : List α) : Prop :=
  ∃ x ∈ words, ∃ y ∈ words, ∃ a b, u ++ [a] <+: x ∧ u ++ [b] <+: y ∧ a ≠ b

/-- The first word that begins with `u` ends there. -/
def FirstEnds (words : List (List α)) (u : List α) : Prop :=
  ∃ before after, words = before ++ u :: after ∧ ∀ e ∈ before, ¬ u <+: e

/-- The cut points left by the words in their order. -/
def cutsOf (words : List (List α)) : Set (List α) :=
  {u | u = [] ∨ FirstEnds words u ∨ Branches words u}

variable {words : List (List α)} {s u w : List α} {a b : α}

theorem pathsOf_append_singleton :
    pathsOf (words ++ [s]) = pathsOf words ∪ {u | u <+: s} := by
  ext u
  simp only [pathsOf, List.mem_append, List.mem_singleton, Set.mem_ofPred_eq, Set.mem_union]
  constructor
  · rintro (h | ⟨e, he | rfl, hu⟩)
    · exact .inl (.inl h)
    · exact .inl (.inr ⟨e, he, hu⟩)
    · exact .inr hu
  · rintro ((h | ⟨e, he, hu⟩) | hu)
    · exact .inl h
    · exact .inr ⟨e, .inl he, hu⟩
    · exact .inr ⟨s, .inr rfl, hu⟩

/-- The next letter is determined. -/
theorem next_letter_unique (ha : u ++ [a] <+: s) (hb : u ++ [b] <+: s) : a = b := by
  have heq := (List.prefix_of_prefix_length_le ha hb (by simp)).eq_of_length (by simp)
  simpa using heq

/-- Of two beginnings one ends in the other, or goes on behind it. -/
theorem prefix_or_next (hu : u <+: s) (ha : w ++ [a] <+: s) : u <+: w ∨ w ++ [a] <+: u := by
  rcases Nat.lt_or_ge w.length u.length with hlt | hge
  · refine Or.inr (List.prefix_of_prefix_length_le ha hu ?_)
    rw [List.length_append, List.length_singleton]
    exact hlt
  · exact Or.inl (List.prefix_of_prefix_length_le hu ((List.prefix_append w [a]).trans ha) hge)

/-- A proper prefix goes on with some letter. -/
theorem exists_next (h : u <+: s) (hne : u ≠ s) : ∃ a, u ++ [a] <+: s := by
  obtain ⟨t, rfl⟩ := h
  cases t with
  | nil => simp at hne
  | cons a t => exact ⟨a, t, by simp⟩

/-- A word ends within another one, goes on past it, or parts from it. -/
theorem prefix_or_extend_or_part (t s : List α) : t <+: s ∨ (∃ a rest, t = s ++ a :: rest) ∨
    ∃ u a b s' t', s = u ++ a :: s' ∧ t = u ++ b :: t' ∧ b ≠ a := by
  induction t generalizing s with
  | nil => exact .inl List.nil_prefix
  | cons b t ih =>
    cases s with
    | nil => exact .inr (.inl ⟨b, t, rfl⟩)
    | cons a s =>
      by_cases hab : b = a
      · subst hab
        rcases ih s with h | ⟨c, rest, rfl⟩ | ⟨u, c, d, s', t', rfl, rfl, hne⟩
        · exact .inl (List.cons_prefix_cons.mpr ⟨rfl, h⟩)
        · exact .inr (.inl ⟨c, rest, rfl⟩)
        · exact .inr (.inr ⟨b :: u, c, d, s', t', rfl, rfl, hne⟩)
      · exact .inr (.inr ⟨[], a, b, s, t, rfl, rfl, hab⟩)

theorem FirstEnds.append (h : FirstEnds words u) (more : List (List α)) :
    FirstEnds (words ++ more) u := by
  obtain ⟨before, after, rfl, hb⟩ := h
  exact ⟨before, after ++ more, by simp, hb⟩

theorem Branches.append (h : Branches words u) (more : List (List α)) :
    Branches (words ++ more) u := by
  obtain ⟨x, hx, y, hy, a, b, ha, hb, hab⟩ := h
  exact ⟨x, List.mem_append_left _ hx, y, List.mem_append_left _ hy, a, b, ha, hb, hab⟩

/-- The first word with a given beginning. -/
theorem exists_first (h : ∃ e ∈ words, u <+: e) :
    ∃ before e after, words = before ++ e :: after ∧ u <+: e ∧ ∀ x ∈ before, ¬ u <+: x := by
  induction words with
  | nil => simp at h
  | cons x words ih =>
    by_cases hx : u <+: x
    · exact ⟨[], x, words, rfl, hx, by simp⟩
    · obtain ⟨e, he, hu⟩ := h
      have hew : e ∈ words := (List.mem_cons.mp he).resolve_left fun heq => hx (heq ▸ hu)
      obtain ⟨before, e', after, hw, hue, hb⟩ := ih ⟨e, hew, hu⟩
      refine ⟨x :: before, e', after, by simp [hw], hue, ?_⟩
      intro y hy
      rcases List.mem_cons.mp hy with rfl | hy
      · exact hx
      · exact hb y hy

/-- A branching after one more word is old, or lies on that word. -/
theorem Branches.of_append_singleton (h : Branches (words ++ [s]) u) :
    Branches words u ∨ ∃ e ∈ words, ∃ a b, u ++ [a] <+: s ∧ u ++ [b] <+: e ∧ a ≠ b := by
  obtain ⟨x, hx, y, hy, a, b, ha, hb, hab⟩ := h
  rw [List.mem_append, List.mem_singleton] at hx hy
  rcases hx with hx | rfl <;> rcases hy with hy | rfl
  · exact .inl ⟨x, hx, y, hy, a, b, ha, hb, hab⟩
  · exact .inr ⟨x, hx, b, a, hb, ha, hab.symm⟩
  · exact .inr ⟨y, hy, a, b, ha, hb, hab⟩
  · exact absurd (next_letter_unique ha hb) hab

/-- The longest old beginning of a new word is a cut point afterwards. -/
theorem mem_cutsOf_of_maxPrefix (hs : s ∉ pathsOf words) (hu : MaxPrefix (pathsOf words) s u) :
    u ∈ cutsOf (words ++ [s]) := by
  obtain ⟨hus, hpath, hmax⟩ := hu
  rcases hpath with hnil | hex
  · exact .inl hnil
  · obtain ⟨before, e, after, hw, hue, hb⟩ := exists_first hex
    by_cases heq : u = e
    · exact .inr (.inl (FirstEnds.append ⟨before, after, by rw [hw, heq], hb⟩ _))
    · obtain ⟨a, ha⟩ := exists_next hus fun he => hs (.inr (he ▸ hex))
      obtain ⟨b, hb'⟩ := exists_next hue heq
      have hmem : e ∈ words := by simp [hw]
      refine .inr (.inr ⟨s, by simp, e, by simp [hmem], a, b, ha, hb', ?_⟩)
      rintro rfl
      exact hmax a ha (.inr ⟨e, hmem, hb'⟩)

/-- One more word adds the places where it ends and where it parts from the
words before it, and nothing when it is a beginning of one of them. -/
theorem cutsOf_append_singleton :
    cutsOf (words ++ [s]) = cutsOf words ∪
      {u | s ∉ pathsOf words ∧ (u = s ∨ MaxPrefix (pathsOf words) s u)} := by
  ext u
  constructor
  · rintro (rfl | ⟨before, after, hw, hb⟩ | hbr)
    · exact .inl (.inl rfl)
    · -- The first word that begins with `u` is an old one, or the new one.
      rcases List.eq_nil_or_concat after with rfl | ⟨after', z, rfl⟩
      · obtain ⟨rfl, hs⟩ := List.append_inj' hw rfl
        simp only [List.cons.injEq, and_true] at hs
        subst hs
        by_cases hnil : s = []
        · exact .inl (.inl hnil)
        · refine .inr ⟨?_, .inl rfl⟩
          rintro (h | ⟨e, he, hse⟩)
          · exact hnil h
          · exact hb e he hse
      · have hw' : words ++ [s] = (before ++ u :: after') ++ [z] := by simpa using hw
        obtain ⟨rfl, _⟩ := List.append_inj' hw' rfl
        exact .inl (.inr (.inl ⟨before, after', rfl, hb⟩))
    · rcases Branches.of_append_singleton hbr with hbr | ⟨e, he, a, b, ha, hb, hab⟩
      · exact .inl (.inr (.inr hbr))
      · by_cases hs : s ∈ pathsOf words
        · rcases hs with rfl | ⟨e', he', hse'⟩
          · have hle := ha.length_le
            simp at hle
          · exact .inl (.inr (.inr ⟨e', he', e, he, a, b, ha.trans hse', hb, hab⟩))
        · by_cases hua : u ++ [a] ∈ pathsOf words
          · rcases hua with hnil | ⟨e', he', hue'⟩
            · simp at hnil
            · exact .inl (.inr (.inr ⟨e', he', e, he, a, b, hue', hb, hab⟩))
          · refine .inr ⟨hs, .inr ⟨(List.prefix_append _ _).trans ha, ?_, ?_⟩⟩
            · exact .inr ⟨e, he, (List.prefix_append _ _).trans hb⟩
            · intro c hc
              rwa [← next_letter_unique ha hc]
  · rintro (hu | ⟨hs, hu⟩)
    · rcases hu with h | h | h
      · exact .inl h
      · exact .inr (.inl (h.append _))
      · exact .inr (.inr (h.append _))
    · rcases hu with rfl | hu
      · exact .inr (.inl ⟨words, [], rfl, fun e he hue => hs (.inr ⟨e, he, hue⟩)⟩)
      · exact mem_cutsOf_of_maxPrefix hs hu

/-- Words are as long as their beginnings together. -/
theorem sum_length_le {words words' : List (List α)} (h : List.Forall₂ (· <+: ·) words words') :
    (words.map List.length).sum ≤ (words'.map List.length).sum := by
  induction h with
  | nil => exact Nat.le_refl _
  | cons hs _ ih => exact Nat.add_le_add hs.length_le ih

/-- Those that are not longer are their beginnings. -/
theorem eq_of_sum_length_le {words words' : List (List α)} (h : List.Forall₂ (· <+: ·) words words')
    (hsum : (words'.map List.length).sum ≤ (words.map List.length).sum) : words = words' := by
  induction h with
  | nil => rfl
  | @cons s s' words words' hs hrest ih =>
    have hle := sum_length_le hrest
    have hle' := hs.length_le
    simp only [List.map_cons, List.sum_cons] at hsum
    rw [hs.eq_of_length_le (by omega), ih (by omega)]

/-- Words that begin the same words in another order, one each, are these words. -/
theorem eq_of_perm_of_prefix {words words' : List (List α)} (hperm : words.Perm words')
    (h : List.Forall₂ (· <+: ·) words words') : words = words' :=
  eq_of_sum_length_le h (hperm.map List.length).sum_nat.ge

end WordCuts
