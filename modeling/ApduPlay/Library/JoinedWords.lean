import Mathlib.Algebra.Order.Monoid.Unbundled.Basic
import Mathlib.Data.List.Basic

/-!
# Words of one length, joined

Words of the same length are joined by a separator of one element. The words
stand a stride apart, so that the joined text can be cut by numbers between
words exactly as the list of the words is.
-/

namespace JoinedWords

universe u

variable {α : Type u}

/-- The words with a separator between them. -/
abbrev joined (sep : α) (words : List (List α)) : List α := [sep].intercalate words

variable {sep : α} {stride : ℕ} {w : List α} {words more : List (List α)}

theorem joined_singleton (sep : α) (w : List α) : joined sep [w] = w := List.intercalate_singleton

/-- No word is longer than the text of all. -/
theorem length_le_intercalate (h : w ∈ words) (separator : List α) :
    w.length ≤ (separator.intercalate words).length := by
  induction words with
  | nil => exact absurd h List.not_mem_nil
  | cons v words ih =>
    by_cases hnil : words = []
    · subst hnil
      rw [List.intercalate_singleton, List.mem_singleton.mp h]
    · rw [List.intercalate_cons_of_ne_nil hnil, List.length_append, List.length_append]
      rcases List.mem_cons.mp h with rfl | hmem
      · omega
      · have hle := ih hmem
        omega

/-- Two texts of words are joined as the words of both are. -/
theorem joined_append (hw : words ≠ []) (hm : more ≠ []) :
    joined sep (words ++ more) = joined sep words ++ sep :: joined sep more := by
  induction words with
  | nil => exact absurd rfl hw
  | cons w words ih =>
    cases words with
    | nil => simp [joined, List.intercalate_cons_of_ne_nil hm]
    | cons w' words =>
      have hrest := ih (List.cons_ne_nil _ _)
      rw [List.cons_append] at hrest
      simp [joined, hrest]

/-- Every word but the last one with the separator behind it. -/
theorem joined_concat (words : List (List α)) (w : List α) :
    joined sep (words ++ [w]) = (words.flatMap fun w => w ++ [sep]) ++ w := by
  induction words with
  | nil => simp [joined]
  | cons w' words ih =>
    rw [List.cons_append, joined,
      List.intercalate_cons_of_ne_nil (List.append_ne_nil_of_right_ne_nil _ (by simp))]
    exact (congrArg (w' ++ [sep] ++ ·) ih).trans (by simp)

/-- From the other end the words are the other way round as well. -/
theorem reverse_joined (words : List (List α)) :
    (joined sep words).reverse = joined sep (words.reverse.map List.reverse) := by
  induction words with
  | nil => rfl
  | cons w words ih =>
    by_cases hwords : words = []
    · simp [hwords, joined]
    · have hrest : (words.reverse.map List.reverse) ≠ [] := by simpa using hwords
      rw [← List.singleton_append, joined_append (List.cons_ne_nil _ _) hwords, List.reverse_append,
        List.reverse_cons, ih, List.reverse_append, List.map_append, joined_append hrest (by simp)]
      simp [joined]

/-- A property of the separator and of all elements of the words is one of the
joined text. -/
theorem forall_mem_joined {P : α → Prop} (hsep : P sep) (hall : ∀ w ∈ words, ∀ a ∈ w, P a) :
    ∀ a ∈ joined sep words, P a := by
  intro a ha
  induction words with
  | nil => cases ha
  | cons w words ih =>
    obtain ⟨hw, hrest⟩ := List.forall_mem_cons.mp hall
    by_cases hwords : words = []
    · rw [hwords, joined, List.intercalate_singleton] at ha
      exact hw a ha
    · rw [joined, List.intercalate_cons_of_ne_nil hwords, List.append_assoc, List.mem_append,
        List.singleton_append, List.mem_cons] at ha
      rcases ha with hmem | rfl | hmem
      · exact hw a hmem
      · exact hsep
      · exact ih hrest hmem

section Stride

variable (hwords : ∀ w ∈ words, w.length + 1 = stride)

include hwords

/-- All words are followed by a separator but the last one. -/
theorem length_joined : (joined sep words).length = stride * words.length - 1 := by
  induction words with
  | nil => rfl
  | cons w words ih =>
    obtain ⟨hw, hrest⟩ := List.forall_mem_cons.mp hwords
    cases words with
    | nil =>
      simp only [joined, List.intercalate_singleton, List.length_singleton]
      omega
    | cons w' words =>
      have hlen := ih hrest
      have hpos : 0 < stride * (w' :: words).length := Nat.mul_pos (by omega) (by simp)
      have hstep : stride * (w :: w' :: words).length = stride * (w' :: words).length + stride :=
        Nat.mul_succ _ _
      rw [joined, List.intercalate_cons_cons, List.length_append, List.length_append, hlen,
        List.length_singleton]
      omega

/-- The text from a word on. -/
theorem drop_joined (i : ℕ) : (joined sep words).drop (stride * i) = joined sep (words.drop i) := by
  induction i generalizing words with
  | zero => rfl
  | succ i ih =>
    cases words with
    | nil => simp [joined]
    | cons w words =>
      obtain ⟨hw, hrest⟩ := List.forall_mem_cons.mp hwords
      rw [Nat.mul_succ, Nat.add_comm, ← List.drop_drop, List.drop_succ_cons, ← ih hrest]
      congr 1
      cases words with
      | nil =>
        rw [joined, List.intercalate_singleton]
        exact List.drop_eq_nil_of_le (by omega)
      | cons w' words =>
        rw [joined, List.intercalate_cons_cons]
        exact List.drop_left' (by rw [List.length_append, List.length_singleton, hw])

/-- The text up to the separator before a word. -/
theorem take_joined (i : ℕ) : (joined sep words).take (stride * i - 1) = joined sep (words.take i) := by
  rcases Nat.eq_zero_or_pos i with rfl | hi
  · rfl
  · rcases Nat.lt_or_ge i words.length with hlt | hge
    · have htake : words.take i ≠ [] := by
        refine List.ne_nil_of_length_pos ?_
        rw [List.length_take]
        omega
      have hdrop : words.drop i ≠ [] := by
        refine List.ne_nil_of_length_pos ?_
        rw [List.length_drop]
        omega
      have hlen : (joined sep (words.take i)).length = stride * i - 1 := by
        rw [length_joined fun w hw => hwords w (List.mem_of_mem_take hw), List.length_take,
          Nat.min_eq_left hlt.le]
      nth_rewrite 1 [← List.take_append_drop i words]
      rw [joined_append htake hdrop]
      exact List.take_left' hlen
    · rw [List.take_of_length_le hge]
      refine List.take_of_length_le ?_
      rw [length_joined hwords]
      exact Nat.sub_le_sub_right (Nat.mul_le_mul_left _ hge) 1

/-- The elements of a word. -/
theorem getElem?_joined {i j : ℕ} (hw : words[i]? = some w) (hj : j < w.length) :
    (joined sep words)[stride * i + j]? = w[j]? := by
  obtain ⟨hi, rfl⟩ := List.getElem?_eq_some_iff.mp hw
  rw [← List.getElem?_drop, drop_joined hwords, List.drop_eq_getElem_cons hi]
  cases words.drop (i + 1) with
  | nil => rw [joined, List.intercalate_singleton]
  | cons w' rest =>
    rw [joined, List.intercalate_cons_cons, List.append_assoc]
    exact List.getElem?_append_left hj

/-- A word is cut out of the text. -/
theorem take_drop_joined {i : ℕ} (hw : words[i]? = some w) :
    ((joined sep words).drop (stride * i)).take w.length = w := by
  obtain ⟨hi, rfl⟩ := List.getElem?_eq_some_iff.mp hw
  rw [drop_joined hwords, List.drop_eq_getElem_cons hi]
  cases words.drop (i + 1) with
  | nil => rw [joined, List.intercalate_singleton, List.take_length]
  | cons w' rest =>
    rw [joined, List.intercalate_cons_cons, List.append_assoc]
    exact List.take_left

end Stride

end JoinedWords
