import ApduPlay.HiddenSeparators

/-!
# Columns that are misread

The texts are read in steps of three characters. If the separator has another
length than one, up to multiples of three, a text that goes on behind another one
is not compared with it to the end. If it has four characters, or seven and so on,
there are more columns than bytes.
-/

namespace ApduPlay.MisreadColumns

open JoinedWords LogParser OutputTrees TextOutput ConstantBytes TextColumns AnalyzedColumns TextPatterns
  HiddenSeparators WrappedText
open PacketGraph (HashOrder hexByte hexBinaryString)

variable {hash : HashOrder} {msg : OutputMessage} {str : JavaString} {i : ℕ}

section Beginnings

variable {minStr : JavaString} {rounds : ℕ}

/-- A text is compared with its beginning up to the end of that and beyond it,
unless it ends behind two digits. The induction is on the rounds. -/
theorem compareLoop_beginning (hpre : minStr <+: str) (hne : minStr ≠ []) (hmod : minStr.length % 3 ≠ 2)
    (hi : 3 * i ≤ minStr.length) (hrounds : minStr.length + 1 ≤ 3 * (i + rounds)) :
    compareLoop minStr str minStr.length rounds (3 * i) = .error .stringIndexOutOfBounds := by
  obtain ⟨tail, rfl⟩ := hpre
  have hsame {j : ℕ} (hj : j < minStr.length) :
      charAt minStr j = .ok minStr[j] ∧ charAt (minStr ++ tail) j = .ok minStr[j] :=
    ⟨charAt_ok (List.getElem?_eq_getElem hj),
      charAt_ok ((List.getElem?_append_left hj).trans (List.getElem?_eq_getElem hj))⟩
  have hend {j : ℕ} (hj : minStr.length ≤ j) : charAt minStr j = .error .stringIndexOutOfBounds := by
    rw [charAt, List.getElem?_eq_none hj]
    rfl
  have hlen : minStr.length ≠ 0 := fun hzero => hne (List.length_eq_zero_iff.mp hzero)
  induction rounds generalizing i with
  | zero => omega
  | succ rounds ih =>
    rw [compareLoop, if_pos ⟨hlen, by omega⟩]
    rcases Nat.lt_trichotomy (3 * i + 1) minStr.length with hlt | heq | hgt
    · obtain ⟨hfirst, hfirst'⟩ := hsame (Nat.lt_of_succ_lt hlt)
      obtain ⟨hsecond, hsecond'⟩ := hsame hlt
      have hdigits : digitsDiffer minStr (minStr ++ tail) (3 * i) = .ok false := by
        refine (bind_ok hfirst _).trans ((bind_ok hfirst' _).trans ?_)
        rw [if_neg (not_not_intro rfl)]
        refine (bind_ok hsecond _).trans ((bind_ok hsecond' _).trans ?_)
        rw [bne_self_eq_false]
        rfl
      refine (bind_ok hdigits _).trans ?_
      exact ih (i := i + 1) (by omega) (by omega)
    · obtain ⟨hfirst, hfirst'⟩ := hsame (j := 3 * i) (by omega)
      have hdigits : digitsDiffer minStr (minStr ++ tail) (3 * i) = .error .stringIndexOutOfBounds := by
        refine (bind_ok hfirst _).trans ((bind_ok hfirst' _).trans ?_)
        rw [if_neg (not_not_intro rfl), hend heq.ge]
        rfl
      rw [hdigits]
      rfl
    · have hdigits : digitsDiffer minStr (minStr ++ tail) (3 * i) = .error .stringIndexOutOfBounds := by
        rw [digitsDiffer, hend (by omega)]
        rfl
      rw [hdigits]
      rfl

/-- So is a message with the beginning of it. -/
theorem longestCommonPrefix_beginning (settings : Settings) (hpre : minStr <+: str) (hne : minStr ≠ [])
    (hlt : minStr.length < str.length) (hmod : minStr.length % 3 ≠ 2) :
    longestCommonPrefix settings [minStr, str] = .error .stringIndexOutOfBounds := by
  have hdiffer : str ≠ minStr := fun heq => hlt.ne (congrArg List.length heq).symm
  have hloop : compareLoop minStr str minStr.length (minStr.length + 1) (3 * 0) =
      .error .stringIndexOutOfBounds :=
    compareLoop_beginning hpre hne hmod (Nat.zero_le _) (by omega)
  have hshort : ¬ str.length < minStr.length := not_lt.mpr hlt.le
  rw [longestCommonPrefix]
  simp only [List.foldl_cons, List.foldl_nil, if_neg hshort, List.foldlM_cons]
  have hself : compareString minStr minStr.length minStr = .ok minStr.length := if_pos rfl
  have hother : compareString minStr minStr.length str = .error .stringIndexOutOfBounds := by
    rw [compareString, if_neg hdiffer, hloop]
    rfl
  rw [bind_ok hself, hother]
  rfl

end Beginnings

section Columns

variable {tail : JavaString} {q : ℕ}

/-- Strings that begin with different bytes have nothing in common. -/
theorem longestCommonPrefix_differ {a b a' b' : Char} (hdiff : a ≠ a' ∨ b ≠ b') (tail : JavaString) :
    longestCommonPrefix defaultSettings [[a, b], a' :: b' :: tail] = .ok 0 := by
  have hdiffer : a' :: b' :: tail ≠ [a, b] := by
    rintro heq
    simp only [List.cons.injEq] at heq
    exact hdiff.elim (fun h => h heq.1.symm) fun h => h heq.2.1.symm
  have hshort : ¬ (a' :: b' :: tail).length < [a, b].length := not_lt.mpr (Nat.le_add_left 2 tail.length)
  have hdigits : digitsDiffer [a, b] (a' :: b' :: tail) 0 = .ok true := by
    refine (bind_ok (charAt_ok (c := a) rfl) _).trans ((bind_ok (charAt_ok (c := a') rfl) _).trans ?_)
    by_cases ha : a = a'
    · rw [if_neg (not_not_intro ha)]
      refine (bind_ok (charAt_ok (c := b) rfl) _).trans ((bind_ok (charAt_ok (c := b') rfl) _).trans ?_)
      rw [bne_iff_ne.mpr (hdiff.resolve_left (not_not_intro ha))]
      rfl
    · rw [if_pos ha]
      rfl
  have hself : compareString [a, b] [a, b].length [a, b] = .ok 2 := if_pos rfl
  have hother : compareString [a, b] 2 (a' :: b' :: tail) = .ok 0 := by
    have hloop : compareLoop [a, b] (a' :: b' :: tail) 2 3 0 = .ok 0 := by
      rw [compareLoop, if_pos ⟨two_ne_zero, Nat.zero_lt_succ 2⟩]
      exact bind_ok hdigits _
    rw [compareString, if_neg hdiffer]
    exact bind_ok hloop _
  rw [longestCommonPrefix]
  simp only [List.foldl_cons, List.foldl_nil, if_neg hshort, List.foldlM_cons]
  rw [bind_ok hself, bind_ok hother]
  rfl

/-- A text that goes on is read two characters at a time. -/
theorem readMessage_long {leftIndex : ℕ} (hroom : leftIndex + 2 < 2 ^ 31)
    (h : leftIndex + 2 ≤ msg.message.length) (column : Column) :
    readMessage leftIndex 0 column msg =
      .ok ⟨addString column.bytes ((msg.message.drop leftIndex).take 2), column.msgsCount + msg.count,
        column.addEmptyByte⟩ := by
  have hstart : wrapInt (leftIndex + 0) = leftIndex := by rw [add_zero, wrapInt_eq ⟨by omega, by omega⟩]
  have hend : wrapInt (leftIndex + 2) = (leftIndex + 2 : ℕ) := wrapInt_eq ⟨by omega, by omega⟩
  have hcut := substring_ok (Nat.le_add_right leftIndex 2) h
  rw [Nat.add_sub_cancel_left] at hcut
  rw [readMessage, hstart, hend, if_pos (by omega), hcut]
  rfl

/-- A text that ends is only counted. -/
theorem readMessage_short {leftIndex : ℕ} (hroom : leftIndex < 2 ^ 31) (h : msg.message.length ≤ leftIndex)
    (column : Column) :
    readMessage leftIndex 0 column msg = .ok ⟨column.bytes, column.msgsCount + msg.count, true⟩ := by
  have hstart : wrapInt (leftIndex + 0) = leftIndex := by rw [add_zero, wrapInt_eq ⟨by omega, by omega⟩]
  rw [readMessage, hstart, if_neg (by omega)]
  rfl

/-- Two strings of two packets are random. -/
theorem columnText_two (hash : HashOrder) {column : Column}
    (hstrings : (shownStrings defaultTextOutputSettings column).length = 2) (hcount : column.msgsCount = 2) :
    columnText defaultTextOutputSettings hash column = .ok ['x'] := by
  have hdivisible : Divisible defaultTextOutputSettings column := by
    rw [Divisible, hcount]
    exact Or.inr (Or.inr (by decide))
  have hrandom : IsRandom defaultTextOutputSettings column := by
    rw [IsRandom, hstrings, hcount]
    decide
  rw [columnText_eq, if_pos hdivisible, valueText, if_neg hrandom.1, if_pos hrandom]
  rfl

theorem foldlM_pair {α β : Type} {f : β → α → OutputM β} {a a' : α} {b b' b'' : β} (h : f b a = .ok b')
    (h' : f b' a' = .ok b'') : [a, a'].foldlM f b = .ok b'' :=
  (bind_ok h _).trans ((bind_ok h' _).trans rfl)

/-- A byte and a longer text that begins with another one. -/
def pairTexts (tail : JavaString) : List OutputMessage :=
  [newMessage ['0', '0'] 0, newMessage ('0' :: '1' :: tail) 2]

/-- Every column of the longer text has two strings. -/
theorem exists_column (hash : HashOrder) (hroom : tail.length < 2 ^ 30) (hlen : tail.length = 3 * q + 3)
    (hi : i < q + 2) :
    ∃ column, (pairTexts tail).foldlM (readMessage (3 * i : ℕ) 0) ⟨[], 0, false⟩ = .ok column ∧
      column.bytes.isEmpty = false ∧ columnText defaultTextOutputSettings hash column = .ok ['x'] := by
  have hlong : 3 * i + 2 ≤ (newMessage ('0' :: '1' :: tail) 2).message.length := by
    show 3 * i + 2 ≤ tail.length + 2
    omega
  rcases Nat.eq_zero_or_pos i with rfl | hpos
  · have hshort : 3 * 0 + 2 ≤ (newMessage ['0', '0'] 0).message.length := le_rfl
    have hfirst := readMessage_long (by omega) hshort ⟨[], 0, false⟩
    exact ⟨_, foldlM_pair hfirst (readMessage_long (by omega) hlong _), rfl,
      columnText_two hash (by rfl) (by rfl)⟩
  · have hends : (newMessage ['0', '0'] 0).message.length ≤ 3 * i := by
      show 2 ≤ 3 * i
      omega
    refine ⟨_, foldlM_pair (readMessage_short (by omega) hends _) (readMessage_long (by omega) hlong _), rfl,
      columnText_two hash ?_ (by rfl)⟩
    have hvalue : (('0' :: '1' :: tail).drop (3 * i)).take 2 ≠ ['-'] := by
      intro heq
      have htwo := congrArg List.length heq
      rw [List.length_take, List.length_drop] at htwo
      change min 2 (tail.length + 2 - 3 * i) = 1 at htwo
      omega
    exact congrArg List.length (if_neg fun hmem => hvalue (List.mem_singleton.mp hmem).symm :
      addString [(('0' :: '1' :: tail).drop (3 * i)).take 2] ['-'] = _)

/-- The loop finds all of them. -/
theorem analyzeLoop_pair (hash : HashOrder) (hroom : tail.length < 2 ^ 30) (hlen : tail.length = 3 * q + 3)
    (rounds : ℕ) (hi : i ≤ q + 2) (hrounds : q + 2 ≤ i + rounds) (returnStr : JavaString) :
    analyzeLoop defaultTextOutputSettings hash (pairTexts tail) 0 rounds (3 * i : ℕ) returnStr =
      .ok ((List.replicate (q + 2 - i) ['x']).foldl appendColumn returnStr) := by
  induction rounds generalizing i returnStr with
  | zero =>
    rw [Nat.sub_eq_zero_of_le (by omega)]
    rfl
  | succ rounds ih =>
    rw [analyzeLoop]
    rcases hi.lt_or_eq with hlt | heq
    · obtain ⟨column, hcolumn, hsome, htext⟩ := exists_column hash hroom hlen hlt
      have hcount : q + 2 - i = q + 2 - (i + 1) + 1 := by omega
      have hplace : wrapInt ((3 * i : ℕ) + 3) = (3 * (i + 1) : ℕ) := wrapInt_eq ⟨by omega, by omega⟩
      rw [bind_ok hcolumn, hsome, if_neg Bool.false_ne_true, bind_ok htext, hplace, hcount,
        List.replicate_succ, List.foldl_cons]
      exact ih hlt (by omega) _
    · have hend {text : JavaString} {leaf : ℤ} (htext : text.length ≤ 3 * q + 5) :
          (newMessage text leaf).message.length ≤ 3 * i := htext.trans (by omega)
      have hnone : (pairTexts tail).foldlM (readMessage (3 * i : ℕ) 0) ⟨[], 0, false⟩ = .ok ⟨[], 2, true⟩ :=
        foldlM_pair (readMessage_short (by omega) (hend (by simp)) _)
          (readMessage_short (by omega) (hend (by simp [hlen])) _)
      rw [bind_ok hnone, heq, Nat.sub_self]
      rfl

/-- A text of so many columns is shown for a byte and a longer text, whatever
separates the bytes of that. -/
theorem pattern_pair (hash : HashOrder) (hroom : tail.length < 2 ^ 30) (hlen : tail.length = 3 * q + 3)
    {front : JavaString}
    (htail : tail = front ++ ['0', '1']) :
    pattern defaultSettings hash (pairTexts tail) = .ok (joined ';' (List.replicate (q + 2) ['x'])) := by
  have hreversed : ('0' :: '1' :: tail).reverse = '1' :: '0' :: (front.reverse ++ ['1', '0']) := by
    rw [htail]
    simp
  have hleft : longestCommonPrefix defaultSettings [['0', '0'], '0' :: '1' :: tail] = .ok 0 :=
    longestCommonPrefix_differ (Or.inr (by decide)) tail
  have hright : longestCommonPrefix defaultSettings [['0', '0'], ('0' :: '1' :: tail).reverse] = .ok 0 := by
    rw [hreversed]
    exact longestCommonPrefix_differ (Or.inl (by decide)) _
  have hprefixes : longestCommonPrefixes defaultSettings (pairTexts tail) = .ok (0, 0) :=
    (bind_ok hleft _).trans (bind_ok hright _)
  have hcolumns : ∀ w ∈ List.replicate (q + 2) ['x'], IsColumn w := fun w hw =>
    List.eq_of_mem_replicate hw ▸ isColumn_singleton (by decide)
  have hsome : List.replicate (q + 2) ['x'] ≠ [] := List.cons_ne_nil _ _
  have hmid : analyzeMessages defaultTextOutputSettings hash (pairTexts tail) 0 0 =
      .ok (joined ' ' (List.replicate (q + 2) ['x'])) := by
    have hrounds : q + 2 ≤ 0 + (((pairTexts tail).map fun msg => msg.message.length).sum + 1) := by
      simp [pairTexts, newMessage]
      omega
    have htexts := foldl_appendColumn (List.replicate (q + 2) ['x']) [] fun w hw => (hcolumns w hw).1
    exact (analyzeLoop_pair (i := 0) hash hroom hlen _ (Nat.zero_le _) hrounds []).trans
      (congrArg Except.ok htexts)
  obtain ⟨ch, text, htext, -⟩ := TrimmedWords.exists_cons_joined ' ' (isWord_of_isColumn hcolumns) hsome
  have hlong : ¬ (joined ' ' (List.replicate (q + 2) ['x'])).length = 0 := by
    rw [htext]
    exact Nat.succ_ne_zero _
  have htrim := trim_blanks (List.forall_mem_nil _) hcolumns hsome (List.forall_mem_nil _)
  rw [List.nil_append, List.append_nil] at htrim
  refine (bind_ok hprefixes _).trans ((bind_ok (a := ['0', '0']) rfl _).trans ((bind_ok hmid _).trans ?_))
  rw [if_neg hlong]
  refine (bind_ok (a := []) rfl _).trans ((bind_ok (a := []) rfl _).trans ?_)
  rw [trim_joined hcolumns]
  refine congrArg Except.ok ?_
  refine (List.append_nil _).trans (splitAndJoinString_eq hcolumns htrim)

end Columns

end ApduPlay.MisreadColumns
