import Mathlib.Tactic.NormNum
import Mathlib.Tactic.Positivity
import ApduPlay.StreamColors
import ApduPlay.TrimmedWords

/-!
# The similarity of two texts of words

Words of two texts are matched one after the other. Their similarity is the part
of the words that the two texts have in common, with repetitions, and does not
depend on the order of the words.
-/

namespace ApduPlay.WordSimilarity

open GreedyMatching JoinedWords LogParser StreamColors TrimmedWords

/-- A text of these words with blanks between them, and white space around them.
Without any word there is one that is empty. -/
def IsTextOf (words : List JavaString) (text : JavaString) : Prop :=
  (words = [[]] ∨ words ≠ [] ∧ ∀ w ∈ words, IsWord w) ∧
    ∃ front back : JavaString, text = front ++ joined ' ' words ++ back ∧ ∀ c ∈ front ++ back, c ≤ ' '

variable {words words1 words2 words1' words2' : List JavaString} {text str1 str2 str1' str2' : JavaString}

/-- The words that are compared are those of the text. -/
theorem wordLetterPairs_trim (h : IsTextOf words text) : wordLetterPairs (trim text) = words := by
  obtain ⟨hwords, front, back, rfl, hblank⟩ := h
  obtain ⟨hfront, hback⟩ := List.forall_mem_append.mp hblank
  rw [wordLetterPairs]
  rcases hwords with rfl | ⟨hne, hwords⟩
  · rw [joined_singleton, List.append_nil, trim_blank hblank]
    rfl
  · rw [trim_words hfront hwords hne hback, split_words hwords hne]

theorem IsTextOf.ne_nil (h : IsTextOf words text) : words ≠ [] := by
  rcases h.1 with rfl | ⟨hne, -⟩
  · exact List.cons_ne_nil _ _
  · exact hne

/-- The similarity counts the words that both texts have. -/
theorem compareStrings_eq (h1 : IsTextOf words1 str1) (h2 : IsTextOf words2 str2) :
    compareStrings str1 str2 =
      2 * (Multiset.card ((words1 : Multiset JavaString) ∩ words2) : ℚ) /
        (Multiset.card (words1 : Multiset JavaString) + Multiset.card (words2 : Multiset JavaString)) := by
  rw [compareStrings, wordLetterPairs_trim h1, wordLetterPairs_trim h2, matchCount_eq_card, Multiset.coe_card,
    Multiset.coe_card, Nat.cast_add]

/-- All words are in common exactly if both texts have the same. -/
theorem compareStrings_eq_one_iff (h1 : IsTextOf words1 str1) (h2 : IsTextOf words2 str2) :
    compareStrings str1 str2 = 1 ↔ (words1 : Multiset JavaString) = words2 := by
  have hpos : 0 < Multiset.card (words1 : Multiset JavaString) := List.length_pos_iff.mpr h1.ne_nil
  rw [compareStrings_eq h1 h2, ← two_mul_card_inter_iff, ← Nat.cast_add, div_eq_one_iff_eq]
  · rw [← Nat.cast_ofNat, ← Nat.cast_mul, Nat.cast_inj]
  · exact Nat.cast_ne_zero.mpr (by omega)

/-- The similarity of two texts of words is twice the number of words in common,
with repetitions, divided by the number of all words. It does not depend on which
text comes first or on the order of the words, is between nothing and all, and
is all exactly if the words are the same. -/
theorem compareStrings_words (h1 : IsTextOf words1 str1) (h2 : IsTextOf words2 str2) :
    compareStrings str1 str2 =
        2 * (Multiset.card ((words1 : Multiset JavaString) ∩ words2) : ℚ) /
          (Multiset.card (words1 : Multiset JavaString) + Multiset.card (words2 : Multiset JavaString)) ∧
      compareStrings str2 str1 = compareStrings str1 str2 ∧
      (∀ words1' words2' str1' str2', words1'.Perm words1 → words2'.Perm words2 → IsTextOf words1' str1' →
        IsTextOf words2' str2' → compareStrings str1' str2' = compareStrings str1 str2) ∧
      0 ≤ compareStrings str1 str2 ∧ compareStrings str1 str2 ≤ 1 ∧
      (compareStrings str1 str2 = 1 ↔ (words1 : Multiset JavaString) = words2) := by
  refine ⟨compareStrings_eq h1 h2, compareStrings_comm _ _, ?_, ?_, compareStrings_le_one _ _,
    compareStrings_eq_one_iff h1 h2⟩
  · intro words1' words2' str1' str2' hperm1 hperm2 h1' h2'
    rw [compareStrings_eq h1' h2', compareStrings_eq h1 h2, Multiset.coe_eq_coe.mpr hperm1,
      Multiset.coe_eq_coe.mpr hperm2]
  · rw [compareStrings_eq h1 h2]
    positivity

/-- Two texts with a byte in common, one of them with white space around it. -/
theorem compareStrings_words_bytes : compareStrings "00 A4 00".toList " A4 B0 ".toList = 2 / 5 := by
  have h1 : IsTextOf ["00".toList, "A4".toList, "00".toList] "00 A4 00".toList :=
    ⟨Or.inr ⟨List.cons_ne_nil _ _, by simp [IsWord]⟩, [], [], by decide, by simp⟩
  have h2 : IsTextOf ["A4".toList, "B0".toList] " A4 B0 ".toList :=
    ⟨Or.inr ⟨List.cons_ne_nil _ _, by simp [IsWord]⟩, [' '], [' '], by decide, by simp⟩
  have hshared : Multiset.card ((["00".toList, "A4".toList, "00".toList] : Multiset JavaString) ∩
      (["A4".toList, "B0".toList] : List JavaString)) = 1 := by decide
  rw [(compareStrings_words h1 h2).1, hshared]
  norm_num

/-- Words of two characters are too few for their sum to leave the range of `int`. -/
theorem length_lt_of_bytes (h1 : IsTextOf words1 str1) (h2 : IsTextOf words2 str2)
    (hbytes : ∀ w ∈ words1 ++ words2, w.length = 2) (hstr1 : str1.length < 2 ^ 31)
    (hstr2 : str2.length < 2 ^ 31) : words1.length + words2.length < 2 ^ 31 := by
  have hfew {words : List JavaString} {text : JavaString} (h : IsTextOf words text)
      (hbytes : ∀ w ∈ words, w.length = 2) : 3 * words.length - 1 ≤ text.length := by
    obtain ⟨-, front, back, rfl, -⟩ := h
    have hlength : (joined ' ' words).length = 3 * words.length - 1 :=
      length_joined fun w hw => congrArg Nat.succ (hbytes w hw)
    rw [List.length_append, List.length_append, hlength]
    omega
  obtain ⟨hbytes1, hbytes2⟩ := List.forall_mem_append.mp hbytes
  have hfew1 := hfew h1 hbytes1
  have hfew2 := hfew h2 hbytes2
  omega

end ApduPlay.WordSimilarity
