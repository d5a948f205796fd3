import ApduPlay.LogParser
import ApduPlay.Library.JoinedWords

/-!
# Words with blanks between them

A text of words is trimmed to the words and the blanks between them, and split
into the words again.
-/

namespace ApduPlay.TrimmedWords

open JoinedWords LogParser

/-- Not empty, and without white space. -/
def IsWord (text : JavaString) : Prop := text ≠ [] ∧ ∀ c ∈ text, ¬ c ≤ ' '

variable {words : List JavaString} {front text back : JavaString}

/-- A text of words does not begin with white space. -/
theorem exists_cons_joined (sep : Char) (hwords : ∀ w ∈ words, IsWord w) (hne : words ≠ []) :
    ∃ c text, joined sep words = c :: text ∧ ¬ c ≤ ' ' := by
  obtain ⟨w, rest, rfl⟩ := List.exists_cons_of_ne_nil hne
  obtain ⟨hw, hchars⟩ := hwords w List.mem_cons_self
  obtain ⟨c, text, rfl⟩ := List.exists_cons_of_ne_nil hw
  exact ⟨c, _, List.intercalate_cons_cons_left, hchars c List.mem_cons_self⟩

theorem isWord_reverse (hwords : ∀ w ∈ words, IsWord w) :
    ∀ w ∈ words.reverse.map List.reverse, IsWord w := by
  intro w hw
  obtain ⟨v, hv, rfl⟩ := List.mem_map.mp hw
  obtain ⟨hne, hchars⟩ := hwords v (List.mem_reverse.mp hv)
  exact ⟨by simpa using hne, fun c hc => hchars c (List.mem_reverse.mp hc)⟩

/-- White space before the words is dropped, and nothing behind it. -/
theorem dropWhile_words (hfront : ∀ c ∈ front, c ≤ ' ') (hwords : ∀ w ∈ words, IsWord w) (hne : words ≠ [])
    (rest : JavaString) :
    (front ++ (joined ' ' words ++ rest)).dropWhile (· ≤ ' ') = joined ' ' words ++ rest := by
  obtain ⟨c, text, htext, hc⟩ := exists_cons_joined ' ' hwords hne
  rw [List.dropWhile_append_of_pos fun c hc => decide_eq_true (hfront c hc), htext]
  exact List.dropWhile_cons_of_neg (by simpa using hc)

/-- The white space around the words is trimmed. -/
theorem trim_words (hfront : ∀ c ∈ front, c ≤ ' ') (hwords : ∀ w ∈ words, IsWord w) (hne : words ≠ [])
    (hback : ∀ c ∈ back, c ≤ ' ') :
    trim (front ++ joined ' ' words ++ back) = joined ' ' words := by
  have hback' : ∀ c ∈ back.reverse, c ≤ ' ' := fun c hc => hback c (List.mem_reverse.mp hc)
  have hlast := dropWhile_words hback' (isWord_reverse hwords) (by simpa using hne) []
  rw [List.append_nil, ← reverse_joined] at hlast
  rw [trim, List.append_assoc, dropWhile_words hfront hwords hne, List.rdropWhile, List.reverse_append, hlast,
    List.reverse_reverse]

/-- Nothing is left of a text of white space. -/
theorem trim_blank (htext : ∀ c ∈ text, c ≤ ' ') : trim text = [] := by
  have hdrop : text.dropWhile (· ≤ ' ') = [] :=
    List.dropWhile_eq_nil_iff.mpr fun c hc => decide_eq_true (htext c hc)
  rw [trim, hdrop]
  rfl

/-- Words are split at the blanks between them. -/
theorem split_words (hwords : ∀ w ∈ words, IsWord w) (hne : words ≠ []) :
    split ' ' (joined ' ' words) = words := by
  have hno : ∀ w ∈ words, ' ' ∉ w := fun w hw hc => (hwords w hw).2 ' ' hc (by decide)
  have hsplit : (joined ' ' words).splitOn ' ' = words := List.splitOn_intercalate ' ' hno hne
  rw [split]
  split_ifs with hblank
  · rw [hsplit]
    refine List.rdropWhile_eq_self_iff.mpr fun hl => ?_
    have hlast := (hwords _ (List.getLast_mem hne)).1
    simpa using hlast
  · rwa [List.splitOn_eq_singleton hblank] at hsplit

end ApduPlay.TrimmedWords
