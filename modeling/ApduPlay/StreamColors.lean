import Mathlib.Algebra.Group.Prod
import Mathlib.Algebra.Order.Ring.Rat
import Mathlib.Algebra.BigOperators.Group.List.Basic
import Mathlib.Data.Rat.Lemmas
import Mathlib.Tactic.Abel
import Mathlib.Tactic.Linarith
import Mathlib.Tactic.Ring
import ApduPlay.Library.CheckedSteps
import ApduPlay.Library.GreedyMatching
import ApduPlay.ConstantBytes

/-!
# The colour of what messages do not have in common

Labels of messages show the bytes between what all of them begin with and what
all of them end with in a colour, that of similar bytes if the messages are
similar on the average. Ranks are exact rational numbers here. Counts, their
products and the sum of these are of type `int` and can wrap around.
-/

namespace ApduPlay.StreamColors

open CheckedSteps GreedyMatching LogParser OutputTrees WrappedText
open ConstantBytes (bind_ok)

/-- `wordLetterPairs` -/
def wordLetterPairs (str : JavaString) : List JavaString := split ' ' str

/-- `compareStrings`. What is equal to a word of the first string is removed from
the words of the second. -/
def compareStrings (str1 str2 : JavaString) : ℚ :=
  let pairs1 := wordLetterPairs (trim str1)
  let pairs2 := wordLetterPairs (trim str2)
  2 * (matchCount pairs2 pairs1 : ℚ) / (pairs1.length + pairs2.length : ℕ)

/-- Number of all words of two strings. -/
def wordCount (str1 str2 : JavaString) : ℕ :=
  (wordLetterPairs (trim str1)).length + (wordLetterPairs (trim str2)).length

/-- What `compareStrings` gives if the number of all words is an `int`. -/
def intCompareStrings (str1 str2 : JavaString) : ℚ :=
  compareStrings str1 str2 * wordCount str1 str2 / wrapInt (wordCount str1 str2)

/-- The settings of graphs that this output reads. -/
structure GraphSettings where
  /-- Bytes in a line of a label. -/
  wrapAfter : ℤ
  /-- Where messages are similar. -/
  similarByteStreamColor : JavaString
  /-- Where they are not. -/
  randomByteStreamColor : JavaString

/-- `msgs.get` -/
def getMessage (msgs : List OutputMessage) (i : ℕ) : OutputM OutputMessage :=
  match msgs[i]? with
  | some msg => pure msg
  | none => throw .indexOutOfBounds

/-- What is between the two ends of a message. -/
def midStream (leftIndex rightIndex : ℤ) (msg : JavaString) : OutputM JavaString :=
  if msg.length > wrapInt (leftIndex + rightIndex + 1) then
    substring msg leftIndex (wrapInt (msg.length - rightIndex))
  else pure []

/-- One round of the inner loop, with the rank and the count so far. -/
def rankPair (leftIndex rightIndex : ℤ) (msgs : List OutputMessage) (i : ℕ) (s : ℚ × JavaInt) (j : ℕ) :
    OutputM (ℚ × JavaInt) := do
  if i = j then return s
  let msg1 ← midStream leftIndex rightIndex (← getMessage msgs i).message
  let msg2 ← midStream leftIndex rightIndex (← getMessage msgs j).message
  let currentRank := intCompareStrings msg1 msg2
  let msgCount := (← getMessage msgs i).count * (← getMessage msgs j).count
  return (s.1 + currentRank * msgCount.toInt, s.2 + msgCount)

/-- One round of the outer loop. -/
def rankMessage (leftIndex rightIndex : ℤ) (msgs : List OutputMessage) (s : ℚ × JavaInt) (i : ℕ) :
    OutputM (ℚ × JavaInt) := do
  let s ← (List.range' 1 (msgs.length - 1)).foldlM (rankPair leftIndex rightIndex msgs i) s
  let msgCount := (← getMessage msgs i).count
  if msgCount.toInt > 1 then
    let msgCount := (msgCount * (msgCount - 1)).sdiv 2
    return (s.1 + msgCount.toInt, s.2 + msgCount)
  return s

/-- The average is above one half. A rank that is divided by nothing is infinite,
or no number if it is nothing itself. -/
def IsSimilar (s : ℚ × JavaInt) : Prop := if s.2 = 0 then 0 < s.1 else 1 / 2 < s.1 / s.2.toInt

instance (s : ℚ × JavaInt) : Decidable (IsSimilar s) :=
  inferInstanceAs (Decidable (if s.2 = 0 then 0 < s.1 else 1 / 2 < s.1 / s.2.toInt))

/-- `getColorForMidStream` -/
def getColorForMidStream (settings : GraphSettings) (msgs : List OutputMessage)
    (leftIndex rightIndex : ℤ) : OutputM JavaString := do
  let s ← (List.range msgs.length).foldlM (rankMessage leftIndex rightIndex msgs) (0, 0)
  return if IsSimilar s then settings.similarByteStreamColor else settings.randomByteStreamColor

/-- A message that is longer than both ends goes on from one to the other. -/
def MidRead (leftIndex rightIndex : ℤ) (msg : JavaString) : Prop :=
  msg.length > wrapInt (leftIndex + rightIndex + 1) →
    0 ≤ leftIndex ∧ leftIndex ≤ wrapInt (msg.length - rightIndex) ∧
      wrapInt (msg.length - rightIndex) ≤ msg.length

instance (leftIndex rightIndex : ℤ) (msg : JavaString) : Decidable (MidRead leftIndex rightIndex msg) :=
  inferInstanceAs (Decidable (_ → _))

/-- What is between the two ends, nothing of a message that is too short. -/
def middle (leftIndex rightIndex : ℤ) (msg : JavaString) : JavaString :=
  if msg.length > wrapInt (leftIndex + rightIndex + 1) then
    (msg.drop leftIndex.toNat).take (wrapInt (msg.length - rightIndex) - leftIndex).toNat
  else []

/-- What two messages add to the rank and to the count. -/
def pairTerm (leftIndex rightIndex : ℤ) (msg msg' : OutputMessage) : ℚ × JavaInt :=
  (intCompareStrings (middle leftIndex rightIndex msg.message) (middle leftIndex rightIndex msg'.message) *
    (msg.count * msg'.count).toInt, msg.count * msg'.count)

/-- What a message itself adds. -/
def ownTerm (msg : OutputMessage) : ℚ × JavaInt :=
  if msg.count.toInt > 1 then
    (((msg.count * (msg.count - 1)).sdiv 2).toInt, (msg.count * (msg.count - 1)).sdiv 2)
  else 0

/-- What the messages add when every message is compared with every other one. -/
def allTerms (leftIndex rightIndex : ℤ) (msgs : List OutputMessage) : ℚ × JavaInt :=
  (msgs.map fun msg => (msgs.map (pairTerm leftIndex rightIndex msg)).sum).sum -
    (msgs.map fun msg => pairTerm leftIndex rightIndex msg msg).sum + (msgs.map ownTerm).sum

/-- The part of one message in this. -/
def rowTerms (leftIndex rightIndex : ℤ) (msgs : List OutputMessage) (msg : OutputMessage) : ℚ × JavaInt :=
  (msgs.map (pairTerm leftIndex rightIndex msg)).sum - pairTerm leftIndex rightIndex msg msg

/-- The messages are similar without the comparisons of one of them. -/
def SimilarWithout (leftIndex rightIndex : ℤ) (msgs : List OutputMessage) (msg : OutputMessage) : Prop :=
  IsSimilar (allTerms leftIndex rightIndex msgs - rowTerms leftIndex rightIndex msgs msg)

instance (leftIndex rightIndex : ℤ) (msgs : List OutputMessage) (msg : OutputMessage) :
    Decidable (SimilarWithout leftIndex rightIndex msgs msg) := inferInstanceAs (Decidable (IsSimilar _))

/-- The index pairs in the order of the loops. -/
def visits (n : ℕ) : List (ℕ × ℕ) :=
  (List.range n).flatMap fun i => ((List.range' 1 (n - 1)).filter fun j => i ≠ j).map fun j => (i, j)

/-- The product of the counts of two messages, an `int`. -/
def countProduct (msgs : Messages) (p : ℕ × ℕ) : JavaInt := (msgs.get p.1).count * (msgs.get p.2).count

/-- The weight with which two messages enter the average, in one order and in the other. -/
def pairWeight (msgs : Messages) (i j : ℕ) : ℤ :=
  (((visits msgs.length).filter fun p => p = (i, j) ∨ p = (j, i)).map fun p =>
    (countProduct msgs p).toInt).sum

variable {msgs msgs' : List OutputMessage} {leftIndex rightIndex : ℤ} {i j n : ℕ} {msg msg' : OutputMessage}

/-- The similarity of two texts does not depend on their order. -/
theorem compareStrings_comm (str1 str2 : JavaString) :
    compareStrings str1 str2 = compareStrings str2 str1 := by
  rw [compareStrings, compareStrings, matchCount_comm, Nat.add_comm]

/-- It is at most one. -/
theorem compareStrings_le_one (str1 str2 : JavaString) : compareStrings str1 str2 ≤ 1 := by
  have hleft := matchCount_le_length (wordLetterPairs (trim str2)) (wordLetterPairs (trim str1))
  have hright := matchCount_le_length (wordLetterPairs (trim str1)) (wordLetterPairs (trim str2))
  rw [matchCount_comm] at hright
  refine div_le_one_of_le₀ ?_ (Nat.cast_nonneg _)
  rw [two_mul, Nat.cast_add]
  exact add_le_add (Nat.cast_le.mpr hleft) (Nat.cast_le.mpr hright)

/-- Nor does the one with an `int` in it depend on the order. -/
theorem intCompareStrings_comm (str1 str2 : JavaString) :
    intCompareStrings str1 str2 = intCompareStrings str2 str1 := by
  have hcount : wordCount str1 str2 = wordCount str2 str1 := Nat.add_comm _ _
  rw [intCompareStrings, intCompareStrings, compareStrings_comm, hcount]

/-- The number of words of two texts is an `int` unless they are very long. -/
theorem intCompareStrings_eq {str1 str2 : JavaString} (hcount : wordCount str1 str2 < 2 ^ 31) :
    intCompareStrings str1 str2 = compareStrings str1 str2 := by
  have hint : wrapInt (wordCount str1 str2) = wordCount str1 str2 := wrapInt_eq ⟨by omega, by omega⟩
  rw [intCompareStrings, hint, compareStrings, ← wordCount, Int.cast_natCast]
  rcases Nat.eq_zero_or_pos (wordCount str1 str2) with hzero | hpos
  · rw [hzero, Nat.cast_zero, div_zero, div_zero]
  · rw [mul_div_assoc, div_self (Nat.cast_ne_zero.mpr hpos.ne'), mul_one]

/-- Nor does the term of a pair. -/
theorem pairTerm_comm (leftIndex rightIndex : ℤ) (msg msg' : OutputMessage) :
    pairTerm leftIndex rightIndex msg msg' = pairTerm leftIndex rightIndex msg' msg := by
  rw [pairTerm, pairTerm, intCompareStrings_comm, mul_comm msg.count]

/-- The message is read if and only if it goes on from one end to the other. -/
theorem midStream_ok (h : MidRead leftIndex rightIndex msg.message) :
    midStream leftIndex rightIndex msg.message = .ok (middle leftIndex rightIndex msg.message) := by
  rw [midStream, middle]
  split_ifs with hlong
  · rw [substring, if_pos (h hlong)]
    rfl
  · rfl

/-- A message whose middle is found has been read. -/
theorem midRead_of_midStream {str text : JavaString} (h : midStream leftIndex rightIndex str = .ok text) :
    MidRead leftIndex rightIndex str := by
  intro hlong
  rw [midStream, if_pos hlong, substring] at h
  by_contra hnot
  rw [if_neg hnot] at h
  cases h

/-- A message that is there is found. -/
theorem getMessage_ok (hi : i < msgs.length) : getMessage msgs i = .ok (Messages.get msgs i) := by
  rw [getMessage, List.getElem?_eq_getElem hi, Messages.get, List.getD_eq_getElem?_getD,
    List.getElem?_eq_getElem hi]
  rfl

/-- It is one of the messages. -/
theorem get_mem (hi : i < msgs.length) : Messages.get msgs i ∈ msgs := by
  rw [Messages.get, List.getD_eq_getElem?_getD, List.getElem?_eq_getElem hi]
  exact List.getElem_mem hi

/-- All messages are read between their ends. -/
def AllRead (leftIndex rightIndex : ℤ) (msgs : List OutputMessage) : Prop :=
  ∀ msg ∈ msgs, MidRead leftIndex rightIndex msg.message

instance (leftIndex rightIndex : ℤ) (msgs : List OutputMessage) :
    Decidable (AllRead leftIndex rightIndex msgs) :=
  inferInstanceAs (Decidable (∀ msg ∈ msgs, MidRead leftIndex rightIndex msg.message))

/-- A round of the inner loop adds the term of a pair. -/
theorem rankPair_ok (hread : AllRead leftIndex rightIndex msgs) (hi : i < msgs.length)
    (hj : j < msgs.length) (s : ℚ × JavaInt) :
    rankPair leftIndex rightIndex msgs i s j =
      .ok (s + if i = j then 0
        else pairTerm leftIndex rightIndex (Messages.get msgs i) (Messages.get msgs j)) := by
  rw [rankPair]
  split_ifs with hij
  · rw [add_zero]
    rfl
  · simp only [getMessage_ok hi, getMessage_ok hj]
    have hfirst := midStream_ok (hread _ (get_mem hi))
    have hsecond := midStream_ok (hread _ (get_mem hj))
    exact (bind_ok hfirst _).trans (bind_ok hsecond _)

/-- A sum without one of its terms. -/
theorem sum_map_ite_zero {M : Type} [AddCommMonoid M] (f : ℕ → M) (i : ℕ) (l : List ℕ) :
    (l.map fun j => if i = j then 0 else f j).sum = ((l.filter fun j => i ≠ j).map f).sum := by
  induction l with
  | nil => rfl
  | cons j l ih =>
    rw [List.map_cons, List.sum_cons, ih]
    by_cases hij : i = j
    · rw [if_pos hij, zero_add, List.filter_cons_of_neg (by simpa using hij)]
    · rw [if_neg hij, List.filter_cons_of_pos (by simpa using hij), List.map_cons, List.sum_cons]

/-- A round of the outer loop adds the terms of its pairs and of the message itself. -/
theorem rankMessage_ok (hread : AllRead leftIndex rightIndex msgs ∨ msgs.length ≤ 1) (hi : i < msgs.length)
    (s : ℚ × JavaInt) :
    rankMessage leftIndex rightIndex msgs s i =
      .ok (s + ((((List.range' 1 (msgs.length - 1)).filter fun j => i ≠ j).map fun j =>
        pairTerm leftIndex rightIndex (Messages.get msgs i) (Messages.get msgs j)).sum +
          ownTerm (Messages.get msgs i))) := by
  have hround : ∀ s, ∀ j ∈ List.range' 1 (msgs.length - 1), rankPair leftIndex rightIndex msgs i s j =
      .ok (s + if i = j then 0
        else pairTerm leftIndex rightIndex (Messages.get msgs i) (Messages.get msgs j)) := fun s j hj => by
    have hj := List.mem_range'_1.mp hj
    exact rankPair_ok (hread.resolve_right (by omega)) hi (by omega) s
  have hloop := foldlM_add hround s
  rw [rankMessage, bind_ok hloop, sum_map_ite_zero, ← add_assoc, bind_ok (getMessage_ok hi)]
  generalize s + _ = s'
  rw [ownTerm]
  by_cases hcount : (Messages.get msgs i).count.toInt > 1
  · rw [if_pos hcount, if_pos hcount]
    rfl
  · rw [if_neg hcount, if_neg hcount, add_zero]
    rfl

/-- The messages by their places. -/
theorem map_get_range (msgs : Messages) : (List.range msgs.length).map msgs.get = msgs := by
  refine List.ext_getElem (by simp) fun i hi hi' => ?_
  rw [List.getElem_map, List.getElem_range, Messages.get, List.getD_eq_getElem?_getD,
    List.getElem?_eq_getElem hi', Option.getD_some]

/-- The loops add the terms of the pairs that they visit and of all messages. -/
theorem rank_eq (hread : AllRead leftIndex rightIndex msgs ∨ msgs.length ≤ 1) :
    (List.range msgs.length).foldlM (rankMessage leftIndex rightIndex msgs) (0, 0) =
      .ok (((visits msgs.length).map fun p =>
        pairTerm leftIndex rightIndex (Messages.get msgs p.1) (Messages.get msgs p.2)).sum +
          (msgs.map ownTerm).sum) := by
  rw [foldlM_add (fun s i hi => rankMessage_ok hread (List.mem_range.mp hi) s) (0, 0), List.sum_map_add]
  have hzero : ((0, 0) : ℚ × JavaInt) = 0 := rfl
  rw [hzero, zero_add]
  refine congrArg Except.ok (congrArg₂ (· + ·) ?_ ?_)
  · rw [visits, List.map_flatMap, List.flatMap_def, List.sum_flatten, List.map_map]
    refine congrArg List.sum (List.map_congr_left fun i _ => ?_)
    rw [Function.comp_apply, List.map_map]
    rfl
  · conv_rhs => rw [← map_get_range msgs, List.map_map]
    rfl

/-- The first round reads all messages. -/
theorem allRead_of_rank {s : ℚ × JavaInt} (hmore : 2 ≤ msgs.length)
    (h : (List.range msgs.length).foldlM (rankMessage leftIndex rightIndex msgs) (0, 0) = .ok s) :
    AllRead leftIndex rightIndex msgs := by
  obtain ⟨t, t', hround⟩ := of_foldlM_ok h 0 (List.mem_range.mpr (by omega))
  obtain ⟨t', hloop, -⟩ := of_bind_ok hround
  have hpair {j : ℕ} (hpos : 1 ≤ j) (hj : j < msgs.length) :
      MidRead leftIndex rightIndex (Messages.get msgs 0).message ∧
        MidRead leftIndex rightIndex (Messages.get msgs j).message := by
    obtain ⟨u, u', hu⟩ := of_foldlM_ok hloop j (List.mem_range'_1.mpr ⟨hpos, by omega⟩)
    rw [rankPair, if_neg (by omega)] at hu
    rw [bind_ok (getMessage_ok (by omega : 0 < msgs.length))] at hu
    obtain ⟨msg1, hfirst, hrest⟩ := of_bind_ok hu
    rw [bind_ok (getMessage_ok hj)] at hrest
    obtain ⟨msg2, hsecond, -⟩ := of_bind_ok hrest
    exact ⟨midRead_of_midStream hfirst, midRead_of_midStream hsecond⟩
  intro msg hmsg
  obtain ⟨k, hk, rfl⟩ := List.mem_iff_getElem.mp hmsg
  have hget : msgs[k] = Messages.get msgs k := by
    rw [Messages.get, List.getD_eq_getElem?_getD, List.getElem?_eq_getElem hk, Option.getD_some]
  rw [hget]
  rcases Nat.eq_zero_or_pos k with rfl | hpos
  · exact (hpair le_rfl hmore).1
  · exact (hpair hpos hk).2

/-- The items but one, and that one. -/
theorem sum_filter_ne {M : Type} [AddCommMonoid M] (f : ℕ → M) (i : ℕ) {l : List ℕ} (hl : l.Nodup) :
    ((l.filter fun j => i ≠ j).map f).sum + (if i ∈ l then f i else 0) = (l.map f).sum := by
  induction l with
  | nil => exact add_zero _
  | cons j l ih =>
    obtain ⟨hj, htail⟩ := List.nodup_cons.mp hl
    rw [List.map_cons, List.sum_cons, ← ih htail]
    by_cases hij : i = j
    · subst hij
      rw [List.filter_cons_of_neg (by simp), if_neg hj, if_pos List.mem_cons_self, add_zero, add_comm]
    · rw [List.filter_cons_of_pos (by simpa using hij), List.map_cons, List.sum_cons, add_assoc]
      refine congrArg (fun x => f j + (_ + x)) (if_congr ?_ rfl rfl)
      rw [List.mem_cons, or_iff_right hij]

/-- The visited pairs are all pairs with a second index behind the first one, but
for those of equal indices. -/
theorem sum_visits {M : Type} [AddCommMonoid M] (f : ℕ → ℕ → M) (n : ℕ) :
    ((visits (n + 1)).map fun p => f p.1 p.2).sum + ((List.range' 1 n).map fun i => f i i).sum =
      ((List.range (n + 1)).map fun i => ((List.range' 1 n).map (f i)).sum).sum := by
  have hdiagonal : ((List.range (n + 1)).map fun i => if i ∈ List.range' 1 n then f i i else 0).sum =
      ((List.range' 1 n).map fun i => f i i).sum := by
    rw [List.range_eq_range', List.range'_succ, List.map_cons, List.sum_cons, if_neg (by simp), zero_add]
    exact congrArg List.sum (List.map_congr_left fun i hi => if_pos hi)
  rw [← hdiagonal, visits, List.map_flatMap, List.flatMap_def, List.sum_flatten, List.map_map,
    ← List.sum_map_add]
  refine congrArg List.sum (List.map_congr_left fun i _ => ?_)
  rw [Function.comp_apply, List.map_map]
  exact sum_filter_ne (f i) i List.nodup_range'

/-- The messages behind the first by their places. -/
theorem map_get_range' (first : OutputMessage) (rest : Messages) :
    (List.range' 1 rest.length).map (Messages.get (first :: rest)) = rest := by
  have h := map_get_range (first :: rest)
  rw [List.length_cons, List.range_eq_range', List.range'_succ, List.map_cons] at h
  exact (List.cons.inj h).2

/-- The terms of the visited pairs, and those of equal indices but for the first one, are
those of all pairs with a second message behind the first one. -/
theorem visits_terms (leftIndex rightIndex : ℤ) (first : OutputMessage) (rest : List OutputMessage) :
    ((visits (first :: rest).length).map fun p =>
        pairTerm leftIndex rightIndex (Messages.get (first :: rest) p.1)
          (Messages.get (first :: rest) p.2)).sum +
        (rest.map fun msg => pairTerm leftIndex rightIndex msg msg).sum =
      ((first :: rest).map fun msg => (rest.map (pairTerm leftIndex rightIndex msg)).sum).sum := by
  let get : ℕ → OutputMessage := Messages.get (first :: rest)
  have hdiagonal : (rest.map fun msg => pairTerm leftIndex rightIndex msg msg) =
      (List.range' 1 rest.length).map fun i => pairTerm leftIndex rightIndex (get i) (get i) := by
    conv_lhs => rw [← map_get_range' first rest, List.map_map]
    rfl
  have hrow (msg : OutputMessage) : rest.map (pairTerm leftIndex rightIndex msg) =
      (List.range' 1 rest.length).map fun j => pairTerm leftIndex rightIndex msg (get j) := by
    conv_lhs => rw [← map_get_range' first rest, List.map_map]
    rfl
  rw [hdiagonal, List.length_cons,
    sum_visits (fun i j => pairTerm leftIndex rightIndex (get i) (get j)) rest.length]
  conv_rhs => rw [← map_get_range (first :: rest), List.map_map]
  refine congrArg List.sum (List.map_congr_left fun i _ => ?_)
  rw [Function.comp_apply, hrow]

/-- The first message is not compared with the others a second time. -/
theorem terms_eq (leftIndex rightIndex : ℤ) (first : OutputMessage) (rest : List OutputMessage) :
    ((visits (first :: rest).length).map fun p =>
        pairTerm leftIndex rightIndex (Messages.get (first :: rest) p.1)
          (Messages.get (first :: rest) p.2)).sum + ((first :: rest).map ownTerm).sum =
      allTerms leftIndex rightIndex (first :: rest) - rowTerms leftIndex rightIndex (first :: rest)
        first := by
  have hvisits := visits_terms leftIndex rightIndex first rest
  have hall : ((first :: rest).map fun msg =>
        ((first :: rest).map (pairTerm leftIndex rightIndex msg)).sum).sum =
      ((first :: rest).map (pairTerm leftIndex rightIndex first)).sum +
        ((first :: rest).map fun msg => (rest.map (pairTerm leftIndex rightIndex msg)).sum).sum := by
    rw [← List.sum_map_add]
    refine congrArg List.sum (List.map_congr_left fun msg _ => ?_)
    rw [List.map_cons, List.sum_cons, pairTerm_comm]
  have hdiagonal : ((first :: rest).map fun msg => pairTerm leftIndex rightIndex msg msg).sum =
      pairTerm leftIndex rightIndex first first +
        (rest.map fun msg => pairTerm leftIndex rightIndex msg msg).sum := by
    rw [List.map_cons, List.sum_cons]
  rw [allTerms, rowTerms, hall, hdiagonal, ← hvisits]
  abel

/-- So the colour depends on which message comes first. -/
theorem getColorForMidStream_cons (settings : GraphSettings) (first : OutputMessage)
    (rest : List OutputMessage)
    (hread : AllRead leftIndex rightIndex (first :: rest) ∨ (first :: rest).length ≤ 1) :
    getColorForMidStream settings (first :: rest) leftIndex rightIndex =
      .ok (if SimilarWithout leftIndex rightIndex (first :: rest) first
        then settings.similarByteStreamColor else settings.randomByteStreamColor) := by
  rw [getColorForMidStream, bind_ok (rank_eq hread), terms_eq]
  rfl

/-- There is a colour if and only if all messages are read. -/
theorem exists_color_iff (settings : GraphSettings) :
    (∃ color, getColorForMidStream settings msgs leftIndex rightIndex = .ok color) ↔
      AllRead leftIndex rightIndex msgs ∨ msgs.length ≤ 1 := by
  constructor
  · rintro ⟨color, hcolor⟩
    obtain ⟨s, hs, -⟩ := of_bind_ok hcolor
    rcases Nat.lt_or_ge 1 msgs.length with hmore | hfew
    · exact Or.inl (allRead_of_rank hmore hs)
    · exact Or.inr hfew
  · intro hread
    rw [getColorForMidStream, bind_ok (rank_eq hread)]
    exact ⟨_, rfl⟩

/-- It is one of the two. -/
theorem color_eq_or_eq {settings : GraphSettings} {color : JavaString}
    (h : getColorForMidStream settings msgs leftIndex rightIndex = .ok color) :
    color = settings.similarByteStreamColor ∨ color = settings.randomByteStreamColor := by
  obtain ⟨s, -, hcolor⟩ := of_bind_ok h
  rw [← Except.ok.inj hcolor]
  exact ite_eq_or_eq _ _ _

/-- What the messages add does not depend on their order. -/
theorem allTerms_perm (h : msgs'.Perm msgs) :
    allTerms leftIndex rightIndex msgs' = allTerms leftIndex rightIndex msgs := by
  have hrow : (fun msg => (msgs'.map (pairTerm leftIndex rightIndex msg)).sum) =
      fun msg => (msgs.map (pairTerm leftIndex rightIndex msg)).sum :=
    funext fun msg => (h.map _).sum_eq
  rw [allTerms, allTerms, hrow, (h.map _).sum_eq, (h.map fun msg => pairTerm _ _ msg msg).sum_eq,
    (h.map ownTerm).sum_eq]

/-- The order of the others does not matter. -/
theorem similarWithout_perm (h : msgs'.Perm msgs) (msg : OutputMessage) :
    SimilarWithout leftIndex rightIndex msgs' msg ↔ SimilarWithout leftIndex rightIndex msgs msg := by
  rw [SimilarWithout, SimilarWithout, allTerms_perm h, rowTerms, rowTerms, (h.map _).sum_eq]

/-- There is one colour in whatever order the messages come. -/
def OrderIndependent (settings : GraphSettings) (leftIndex rightIndex : ℤ) (msgs : List OutputMessage) :
    Prop :=
  ∃ color, ∀ msgs', msgs'.Perm msgs →
    getColorForMidStream settings msgs' leftIndex rightIndex = .ok color

/-- Every two messages are weighed by the product of their counts. -/
def WeighsProducts (msgs : List OutputMessage) : Prop :=
  ∀ i j, i < j → j < msgs.length →
    pairWeight msgs i j = (Messages.get msgs i).count.toInt * (Messages.get msgs j).count.toInt

/-- Any message may come first, so the colour must not depend on which one does. -/
theorem orderIndependent_iff (settings : GraphSettings) (leftIndex rightIndex : ℤ)
    (msgs : List OutputMessage) :
    OrderIndependent settings leftIndex rightIndex msgs ↔
      (AllRead leftIndex rightIndex msgs ∨ msgs.length ≤ 1) ∧
        (settings.similarByteStreamColor = settings.randomByteStreamColor ∨
          ∀ msg ∈ msgs, ∀ msg' ∈ msgs,
            (SimilarWithout leftIndex rightIndex msgs msg ↔
              SimilarWithout leftIndex rightIndex msgs msg')) := by
  have hcolor {first : OutputMessage} {rest : List OutputMessage} (h : (first :: rest).Perm msgs)
      (hread : AllRead leftIndex rightIndex msgs ∨ msgs.length ≤ 1) :
      getColorForMidStream settings (first :: rest) leftIndex rightIndex =
        .ok (if SimilarWithout leftIndex rightIndex msgs first
          then settings.similarByteStreamColor else settings.randomByteStreamColor) := by
    have hread' : AllRead leftIndex rightIndex (first :: rest) ∨ (first :: rest).length ≤ 1 :=
      hread.imp (fun hall msg hmsg => hall msg (h.subset hmsg)) fun hfew => h.length_eq.trans_le hfew
    rw [getColorForMidStream_cons settings first rest hread']
    exact congrArg Except.ok (if_congr (similarWithout_perm h first) rfl rfl)
  constructor
  · rintro ⟨color, hsame⟩
    have hread := (exists_color_iff settings).mp ⟨color, hsame msgs (List.Perm.refl _)⟩
    refine ⟨hread, ?_⟩
    by_cases hcolors : settings.similarByteStreamColor = settings.randomByteStreamColor
    · exact Or.inl hcolors
    · refine Or.inr fun msg hmsg msg' hmsg' => ?_
      have hfirst := (List.perm_cons_erase hmsg).symm
      have hfirst' := (List.perm_cons_erase hmsg').symm
      have heq := (hsame _ hfirst).trans (hsame _ hfirst').symm
      rw [hcolor hfirst hread, hcolor hfirst' hread] at heq
      have heq := Except.ok.inj heq
      split_ifs at heq with h h' h'
      · exact iff_of_true h h'
      · exact absurd heq hcolors
      · exact absurd heq.symm hcolors
      · exact iff_of_false h h'
  · rintro ⟨hread, hcase⟩
    obtain ⟨color, hok⟩ := (exists_color_iff settings).mpr hread
    refine ⟨color, fun msgs' hperm => ?_⟩
    cases msgs with
    | nil =>
      rw [hperm.eq_nil]
      exact hok
    | cons first rest =>
      cases msgs' with
      | nil => exact absurd hperm.length_eq (Nat.succ_ne_zero rest.length).symm
      | cons first' rest' =>
        rw [hcolor (List.Perm.refl _) hread] at hok
        rw [hcolor hperm hread, ← hok]
        rcases hcase with hcolors | hcase
        · rw [hcolors, ite_self, ite_self]
        · have hmem : first' ∈ first :: rest := hperm.subset List.mem_cons_self
          exact congrArg Except.ok (if_congr (hcase first' hmem first List.mem_cons_self) rfl rfl)

/-- The pairs that the loops visit. -/
theorem mem_visits {p : ℕ × ℕ} : p ∈ visits n ↔ p.1 < n ∧ 1 ≤ p.2 ∧ p.2 < n ∧ p.1 ≠ p.2 := by
  obtain ⟨i, j⟩ := p
  simp only [visits, List.mem_flatMap, List.mem_range, List.mem_map, List.mem_filter, List.mem_range'_1,
    decide_eq_true_eq, Prod.mk.injEq]
  constructor
  · rintro ⟨i, hi, j, ⟨hj, hij⟩, rfl, rfl⟩
    exact ⟨hi, hj.1, by omega, hij⟩
  · rintro ⟨hi, hj, hjn, hij⟩
    exact ⟨i, hi, j, ⟨⟨hj, by omega⟩, hij⟩, rfl, rfl⟩

/-- No pair is visited twice. -/
theorem nodup_visits (n : ℕ) : (visits n).Nodup := by
  refine List.nodup_flatMap.mpr ⟨fun i _ => ?_, ?_⟩
  · exact (List.Nodup.filter _ List.nodup_range').map fun j j' h => (Prod.mk.inj h).2
  · refine List.nodup_range.imp fun hne => List.disjoint_left.mpr fun p hp hp' => ?_
    obtain ⟨_, _, rfl⟩ := List.mem_map.mp hp
    obtain ⟨_, _, heq⟩ := List.mem_map.mp hp'
    exact hne (Prod.mk.inj heq).1.symm

/-- Two messages are visited in both orders, but the first message is not the
second of a pair. -/
theorem pairWeight_eq {msgs : List OutputMessage} (hij : i < j) (hj : j < msgs.length) :
    pairWeight msgs i j =
      if i = 0 then (countProduct msgs (i, j)).toInt else 2 * (countProduct msgs (i, j)).toInt := by
  have hvisited (l : List (ℕ × ℕ)) (hl : l.Nodup)
      (hmem : ∀ p, p ∈ l ↔ p ∈ visits msgs.length ∧ (p = (i, j) ∨ p = (j, i))) :
      pairWeight msgs i j = (l.map fun p => (countProduct msgs p).toInt).sum := by
    have hperm : ((visits msgs.length).filter fun p => p = (i, j) ∨ p = (j, i)).Perm l :=
      (List.perm_ext_iff_of_nodup ((nodup_visits _).filter _) hl).mpr fun p => by
        rw [List.mem_filter, decide_eq_true_iff, hmem]
    exact (hperm.map _).sum_eq
  split_ifs with hi
  · rw [hvisited [(i, j)] (List.nodup_singleton _) fun p => ?_, List.map_singleton, List.sum_singleton]
    rw [List.mem_singleton, mem_visits]
    constructor
    · rintro rfl
      exact ⟨⟨by omega, by omega, hj, hij.ne⟩, Or.inl rfl⟩
    · rintro ⟨hvisit, rfl | rfl⟩
      · rfl
      · exact absurd hvisit.2.1 (by omega)
  · rw [hvisited [(i, j), (j, i)] ?_ fun p => ?_]
    · have hswap : countProduct msgs (j, i) = countProduct msgs (i, j) := mul_comm _ _
      rw [List.map_cons, List.map_singleton, List.sum_cons, List.sum_singleton, hswap, two_mul]
    · simp [hij.ne]
    · rw [List.mem_cons, List.mem_singleton, mem_visits]
      refine ⟨fun hp => ⟨?_, hp⟩, And.right⟩
      rcases hp with rfl | rfl
      · exact ⟨by omega, by omega, hj, hij.ne⟩
      · exact ⟨hj, by omega, by omega, hij.ne'⟩

/-- Weights are right if the products with the first count are small enough for an
`int`, and the other products are nothing, as these are counted twice. -/
theorem weighsProducts_iff (msgs : List OutputMessage) :
    WeighsProducts msgs ↔ ∀ i j, i < j → j < msgs.length →
      if i = 0 then IsInt ((Messages.get msgs i).count.toInt * (Messages.get msgs j).count.toInt)
      else (Messages.get msgs i).count.toInt * (Messages.get msgs j).count.toInt = 0 := by
  refine forall₂_congr fun i j => forall₂_congr fun hij hj => ?_
  rw [pairWeight_eq hij hj, countProduct, BitVec.toInt_mul]
  generalize (Messages.get msgs i).count.toInt * (Messages.get msgs j).count.toInt = product
  change (if i = 0 then wrapInt product else 2 * wrapInt product) = product ↔ _
  split_ifs with hi
  · exact ⟨fun h => h ▸ isInt_wrapInt product, wrapInt_eq⟩
  · constructor
    · intro htwice
      have hsmall := isInt_wrapInt product
      have hmod : wrapInt product = product - (2 ^ 32 : ℕ) * product.bdiv (2 ^ 32) :=
        Int.bmod_eq_self_sub_mul_bdiv product (2 ^ 32)
      have hlow := hsmall.1
      have hhigh := hsmall.2
      omega
    · intro hzero
      rw [hzero]
      rfl

/-- There is one colour for every order exactly if all messages are read between their
ends and the two colours are the same or the messages are similar without the row of
each of them, or of none; and all pairs are weighed by the products of the counts
exactly if those with the first message are small enough and all others are nothing. -/
theorem orderIndependent_and_weighsProducts_iff (settings : GraphSettings) (leftIndex rightIndex : ℤ)
    (msgs : List OutputMessage) :
    (OrderIndependent settings leftIndex rightIndex msgs ↔
      (AllRead leftIndex rightIndex msgs ∨ msgs.length ≤ 1) ∧
        (settings.similarByteStreamColor = settings.randomByteStreamColor ∨
          ∀ msg ∈ msgs, ∀ msg' ∈ msgs,
            (SimilarWithout leftIndex rightIndex msgs msg ↔
              SimilarWithout leftIndex rightIndex msgs msg'))) ∧
    (WeighsProducts msgs ↔ ∀ i j, i < j → j < msgs.length →
      if i = 0 then IsInt ((Messages.get msgs i).count.toInt * (Messages.get msgs j).count.toInt)
      else (Messages.get msgs i).count.toInt * (Messages.get msgs j).count.toInt = 0) :=
  ⟨orderIndependent_iff settings leftIndex rightIndex msgs, weighsProducts_iff msgs⟩

/-- A message with little of the two others, which have the same bytes. -/
def threeMessages : List OutputMessage :=
  [newMessage "00 02 03 04".toList 1, newMessage "00 01".toList 2, newMessage "01 00".toList 3]

/-- The colour of three messages changes with their order. -/
theorem not_orderIndependent_three :
    ¬ OrderIndependent ⟨8, "darkorchid4".toList, "red".toList⟩ 0 0 threeMessages := by
  rintro ⟨color, hsame⟩
  have hfirst := hsame threeMessages (List.Perm.refl _)
  have hlast := hsame [newMessage "00 01".toList 2, newMessage "01 00".toList 3,
    newMessage "00 02 03 04".toList 1] (by decide)
  exact absurd (hfirst.trans hlast.symm) (by decide +kernel)

end ApduPlay.StreamColors
