import Mathlib.Data.List.DropRight
import ApduPlay.IniSections
import ApduPlay.Library.ScanFormats

/-!
# Lines of an ini file

A line is tried with one format after the other. What the formats make of it is
told by its first equals sign, by the first character behind it, and by where a
comment begins.
-/

namespace ApduPlay.IniLines

open IniSections ScanFormats TextNumbers TextSearch

/-- `strstrip` -/
def strstrip (text : Text) : Text := (text.dropWhile isSpace).rdropWhile isSpace

/-- `line_status`, with what is stored for it. -/
inductive Line
  /-- `LINE_EMPTY` -/
  | empty
  /-- `LINE_COMMENT` -/
  | comment
  /-- `LINE_SECTION` -/
  | header (name : Text)
  /-- `LINE_VALUE` -/
  | value (key val : Text)
  /-- `LINE_ERROR` -/
  | error
  deriving DecidableEq, Repr

/-- `"[%[^]]"` -/
def sectionFormat : List (Directive UInt8) := [.literal 91, .conversion (· != 93)]

/-- The beginning of `"%[^=] = "`, which the formats of values share. -/
def keyFormat : List (Directive UInt8) :=
  [.conversion (· != 61), .blanks isSpace, .literal 61, .blanks isSpace]

/-- A value between quotes. -/
def quotedFormat (quote : UInt8) : List (Directive UInt8) :=
  [.literal quote, .conversion (· != quote), .literal quote]

/-- A character that begins a comment. -/
def isComment (c : UInt8) : Bool := c == 59 || c == 35

/-- `"%[^;#]"` -/
def plainFormat : List (Directive UInt8) := [.conversion fun c => !isComment c]

/-- `"%[;#]"` -/
def commentFormat : List (Directive UInt8) := [.conversion isComment]

/-- `"%[^=] %[=]"` -/
def equalsFormat : List (Directive UInt8) := [.conversion (· != 61), .blanks isSpace, .conversion (· == 61)]

/-- A call of `sscanf` that has to store a key and a value. -/
def scanTwo (format : List (Directive UInt8)) (line : Text) : Option (Text × Text) :=
  match scan format line with
  | [key, value] => some (key, value)
  | _ => none

/-- The formats of `iniparser_line`, tried one after the other. -/
def scanLine (line : Text) : Line :=
  let len := line.length
  match scanTwo (keyFormat ++ quotedFormat 34) line <|> scanTwo (keyFormat ++ quotedFormat 39) line with
  | some (key, value) => .value (strlwc (strstrip key) len) value
  | none =>
    match scanTwo (keyFormat ++ plainFormat) line with
    | some (key, value) =>
      let value := strstrip value
      .value (strlwc (strstrip key) len) (if value = [34, 34] ∨ value = [39, 39] then [] else value)
    | none =>
      match scanTwo (keyFormat ++ commentFormat) line <|> scanTwo equalsFormat line with
      | some (key, _) => .value (strlwc (strstrip key) len) []
      | none => .error

/-- `iniparser_line`, when a name of a section is stored already. -/
def iniparserLine (sectionName inputLine : Text) : Line :=
  let line := strstrip inputLine
  let len := line.length
  if len < 1 then .empty
  else if line.head? = some 35 ∨ line.head? = some 59 then .comment
  else if line.head? = some 91 ∧ line.getLast? = some 93 then
    let name := (scan sectionFormat line).headD sectionName
    .header (strlwc (strstrip name) len)
  else scanLine line

/-- A value without quotes ends where a comment begins. -/
def plainValue (text : Text) : Text :=
  let value := strstrip (text.takeWhile fun c => !isComment c)
  if value = [34, 34] ∨ value = [39, 39] then [] else value

/-- What stands between quotes at the beginning, unless it is empty. -/
def quotedValue (quote : UInt8) (text : Text) : Option Text :=
  let value := text.tail.takeWhile (· != quote)
  if text.head? = some quote ∧ value ≠ [] then some value else none

/-- The value that is meant by what stands behind the equals sign. -/
def valueOf (text : Text) : Text :=
  let text := text.dropWhile isSpace
  (quotedValue 34 text <|> quotedValue 39 text).getD (plainValue text)

/-- The meaning of a line without blanks around it that has an equals sign behind a key. -/
def valueLine (line : Text) : Line :=
  match line.takeWhile (· != 61), line.dropWhile (· != 61) with
  | c :: key, _ :: text => .value ((strstrip (c :: key)).map toLower) (valueOf text)
  | _, _ => .error

variable {line key text : Text} {format : List (Directive UInt8)} {quote : UInt8}

/-- What is behind the characters before one begins with it. -/
theorem dropWhile_ne (line : Text) (c : UInt8) :
    line.dropWhile (· != c) = [] ∨ ∃ text, line.dropWhile (· != c) = c :: text := by
  cases hdrop : line.dropWhile (· != c) with
  | nil => exact Or.inl rfl
  | cons d text =>
    have hd := List.head?_dropWhile_not (· != c) line
    rw [hdrop] at hd
    have hcd : d = c := by simpa using hd
    exact Or.inr ⟨text, by rw [hcd]⟩

/-- Formats of values need an equals sign behind a key. -/
theorem scanTwo_keyFormat_none (h : line.takeWhile (· != 61) = [] ∨ line.dropWhile (· != 61) = []) :
    scanTwo (keyFormat ++ format) line = none := by
  unfold scanTwo keyFormat
  by_cases hkey : line.takeWhile (· != 61) = []
  · rw [List.cons_append, scan_conversion_nil hkey]
  · rw [List.cons_append, scan_conversion hkey, h.resolve_left hkey]
    rfl

theorem scan_keyFormat (hkey : line.takeWhile (· != 61) ≠ [])
    (htext : line.dropWhile (· != 61) = 61 :: text) :
    scan (keyFormat ++ format) line = line.takeWhile (· != 61) :: scan format (text.dropWhile isSpace) := by
  rw [keyFormat, List.cons_append, scan_conversion hkey, htext]
  rfl

/-- A value that is stored is the only one behind the key. -/
theorem scanTwo_keyFormat (hkey : line.takeWhile (· != 61) ≠ [])
    (htext : line.dropWhile (· != 61) = 61 :: text) {v : Option Text}
    (hv : scan format (text.dropWhile isSpace) = v.toList) :
    scanTwo (keyFormat ++ format) line = v.map (line.takeWhile (· != 61), ·) := by
  rw [scanTwo, scan_keyFormat hkey htext, hv]
  cases v <;> rfl

/-- A quoted value is scanned. -/
theorem scan_quotedFormat (quote : UInt8) (text : Text) :
    scan (quotedFormat quote) text = (quotedValue quote text).toList := by
  unfold quotedFormat quotedValue
  by_cases hquote : text.head? = some quote
  · obtain ⟨rest, rfl⟩ := List.head?_eq_some_iff.mp hquote
    rw [scan_literal, List.tail_cons]
    by_cases hvalue : rest.takeWhile (· != quote) = []
    · rw [scan_conversion_nil hvalue, if_neg fun h => h.2 hvalue]
      rfl
    · rw [scan_conversion hvalue, if_pos ⟨hquote, hvalue⟩]
      have hlast := length_scan_le [.literal quote] (rest.dropWhile (· != quote))
      rw [List.length_eq_zero_iff.mp (Nat.le_zero.mp hlast)]
      rfl
  · rw [scan_literal_nil hquote, if_neg fun h => hquote h.1]
    rfl

/-- One conversion takes as many characters as it can, but not none. -/
theorem scan_singleConversion (p : UInt8 → Bool) (text : Text) :
    scan [.conversion p] text = (if text.takeWhile p = [] then none else some (text.takeWhile p)).toList := by
  by_cases hvalue : text.takeWhile p = []
  · rw [scan_conversion_nil hvalue, if_pos hvalue]
    rfl
  · rw [scan_conversion hvalue, if_neg hvalue]
    rfl

/-- Stripping makes no text longer. -/
theorem length_strstrip_le (text : Text) : (strstrip text).length ≤ text.length :=
  (List.rdropWhile_prefix _ _).length_le.trans (List.length_dropWhile_le _ _)

/-- The buffer is long enough. -/
theorem length_valueOf_le (text : Text) : (valueOf text).length ≤ text.length := by
  have hquoted (quote : UInt8) {t value : Text} (h : quotedValue quote t = some value) :
      value.length ≤ t.length := by
    unfold quotedValue at h
    dsimp only at h
    split_ifs at h
    cases h
    exact (List.takeWhile_prefix _).length_le.trans (List.length_tail ▸ Nat.sub_le _ _)
  have hplain (t : Text) : (plainValue t).length ≤ t.length := by
    unfold plainValue
    dsimp only
    split_ifs
    · exact Nat.zero_le _
    · exact (length_strstrip_le _).trans (List.takeWhile_prefix _).length_le
  have hdrop := (List.dropWhile_suffix isSpace (l := text)).length_le
  unfold valueOf
  dsimp only
  refine Nat.le_trans ?_ hdrop
  cases hdouble : quotedValue 34 (text.dropWhile isSpace) with
  | some value => exact hquoted 34 hdouble
  | none =>
    cases hsingle : quotedValue 39 (text.dropWhile isSpace) with
    | some value => exact hquoted 39 hsingle
    | none => exact hplain _

/-- A text that fits into the buffer is in lower case as a whole. -/
theorem strlwc_eq {len : ℕ} (h : text.length < len) : strlwc text len = text.map toLower := by
  rw [strlwc, List.take_of_length_le (Nat.le_sub_one_of_lt h)]

theorem length_takeWhile_lt (htext : line.dropWhile (· != 61) = 61 :: text) :
    (line.takeWhile (· != 61)).length < line.length := by
  have hlen := congrArg List.length (List.takeWhile_append_dropWhile (p := (· != 61)) (l := line))
  rw [htext, List.length_append, List.length_cons] at hlen
  omega

/-- No format fits when there is no equals sign behind a key. -/
theorem scanLine_error (hbad : line.takeWhile (· != 61) = [] ∨ line.dropWhile (· != 61) = []) :
    scanLine line = .error := by
  have hequals : scanTwo equalsFormat line = none := by
    unfold scanTwo equalsFormat
    by_cases hkey : line.takeWhile (· != 61) = []
    · rw [scan_conversion_nil hkey]
    · rw [scan_conversion hkey, hbad.resolve_left hkey]
      rfl
  simp only [scanLine, scanTwo_keyFormat_none hbad, hequals]
  rfl

/-- The last format fits every key with an equals sign. -/
theorem scanTwo_equalsFormat (hkey : line.takeWhile (· != 61) ≠ [])
    (htext : line.dropWhile (· != 61) = 61 :: text) :
    scanTwo equalsFormat line = some (line.takeWhile (· != 61), 61 :: text.takeWhile (· == 61)) := by
  rw [scanTwo, equalsFormat, scan_conversion hkey, htext]
  rfl

/-- The first format that fits reads the value that is meant. -/
theorem scanLine_value (hkey : line.takeWhile (· != 61) ≠ [])
    (htext : line.dropWhile (· != 61) = 61 :: text) :
    scanLine line = .value ((strstrip (line.takeWhile (· != 61))).map toLower) (valueOf text) := by
  have hlower : strlwc (strstrip (line.takeWhile (· != 61))) line.length =
      (strstrip (line.takeWhile (· != 61))).map toLower :=
    strlwc_eq (Nat.lt_of_le_of_lt (length_strstrip_le _) (length_takeWhile_lt htext))
  have hquoted (quote : UInt8) :=
    scanTwo_keyFormat hkey htext (scan_quotedFormat quote (text.dropWhile isSpace))
  have hplain := scanTwo_keyFormat hkey htext
    (scan_singleConversion (fun c => !isComment c) (text.dropWhile isSpace))
  have hcomment := scanTwo_keyFormat hkey htext (scan_singleConversion isComment (text.dropWhile isSpace))
  simp only [scanLine, plainFormat, commentFormat, hquoted, hplain, hcomment, valueOf, plainValue]
  cases h34 : quotedValue 34 (text.dropWhile isSpace) with
  | some value => simp [hlower]
  | none =>
  cases h39 : quotedValue 39 (text.dropWhile isSpace) with
  | some value => simp [hlower]
  | none =>
  by_cases hnone : (text.dropWhile isSpace).takeWhile (fun c => !isComment c) = []
  · have hstrip : strstrip [] = [] := rfl
    by_cases hempty : (text.dropWhile isSpace).takeWhile isComment = []
    · simp [hnone, hempty, hlower, hstrip, scanTwo_equalsFormat hkey htext]
    · simp [hnone, hempty, hlower, hstrip]
  · simp [hnone, hlower]

/-- What a line means: a line that begins with an opening bracket and ends with a
closing one names a section, unless nothing stands between the first two brackets. -/
def lineMeaning (sectionName inputLine : Text) : Line :=
  match strstrip inputLine with
  | [] => .empty
  | c :: rest =>
    if c = 35 ∨ c = 59 then .comment
    else if c = 91 ∧ (c :: rest).getLast? = some 93 then
      if rest.head? = some 93 then .header (strlwc (strstrip sectionName) (rest.length + 1))
      else .header ((strstrip (rest.takeWhile (· != 93))).map toLower)
    else valueLine (c :: rest)

/-- A value is no longer than its line. -/
theorem length_value_le {sectionName inputLine val : Text}
    (h : lineMeaning sectionName inputLine = .value key val) : val.length ≤ inputLine.length := by
  have hvalue {line : Text} (h : valueLine line = .value key val) : val.length ≤ line.length := by
    have hdrop := (List.dropWhile_suffix (· != 61) (l := line)).length_le
    unfold valueLine at h
    cases hname : line.takeWhile (· != 61) with
    | nil => simp [hname] at h
    | cons c name =>
      cases htext : line.dropWhile (· != 61) with
      | nil => simp [hname, htext] at h
      | cons d text =>
        rw [hname, htext] at h
        cases h
        rw [htext] at hdrop
        exact (length_valueOf_le text).trans (Nat.le_of_succ_le hdrop)
  have hstrip := length_strstrip_le inputLine
  unfold lineMeaning at h
  cases hline : strstrip inputLine with
  | nil => simp [hline] at h
  | cons c rest =>
    rw [hline] at h hstrip
    dsimp only at h
    split_ifs at h
    exact (hvalue h).trans hstrip

/-- Scanning a line tells its meaning. -/
theorem scanLine_eq (line : Text) : scanLine line = valueLine line := by
  unfold valueLine
  cases hkey : line.takeWhile (· != 61) with
  | nil => exact scanLine_error (Or.inl hkey)
  | cons c key =>
    have hne : line.takeWhile (· != 61) ≠ [] := by rw [hkey]; exact List.cons_ne_nil _ _
    rcases dropWhile_ne line 61 with hnil | ⟨text, htext⟩
    · rw [hnil]
      exact scanLine_error (Or.inr hnil)
    · rw [htext, scanLine_value hne htext, hkey]

/-- The formats make of a line what it means. -/
theorem iniparserLine_eq (sectionName inputLine : Text) :
    iniparserLine sectionName inputLine = lineMeaning sectionName inputLine := by
  unfold iniparserLine lineMeaning
  cases hline : strstrip inputLine with
  | nil => rfl
  | cons c rest =>
    have hlen : ¬ (c :: rest).length < 1 := by simp
    simp only [hlen, if_false, List.head?_cons, Option.some.injEq, scanLine_eq]
    by_cases hcomment : c = 35 ∨ c = 59
    · rw [if_pos hcomment, if_pos hcomment]
    · rw [if_neg hcomment, if_neg hcomment]
      by_cases hsection : c = 91 ∧ (c :: rest).getLast? = some 93
      · rw [if_pos hsection, if_pos hsection]
        obtain ⟨rfl, hlast⟩ := hsection
        have hscan : scan sectionFormat (91 :: rest) = scan [.conversion (· != 93)] rest := scan_literal
        rw [hscan, scan_singleConversion]
        by_cases hclose : rest.head? = some 93
        · obtain ⟨rest, rfl⟩ := List.head?_eq_some_iff.mp hclose
          rfl
        · have hname : rest.takeWhile (· != 93) ≠ [] := by
            cases rest with
            | nil => exact absurd hlast (by decide)
            | cons d rest => simpa [List.takeWhile_cons] using hclose
          have hlen : (strstrip (rest.takeWhile (· != 93))).length < (91 :: rest).length :=
            Nat.lt_succ_of_le ((length_strstrip_le _).trans (List.takeWhile_prefix _).length_le)
          rw [if_neg hname, if_neg hclose, Option.toList_some, List.headD_cons, strlwc_eq hlen]
      · rw [if_neg hsection, if_neg hsection]

/-- Neither a comment nor the name of a section. -/
def Plain (line : Text) : Prop :=
  line ≠ [] ∧ line.head? ≠ some 35 ∧ line.head? ≠ some 59 ∧ ¬ (line.head? = some 91 ∧ line.getLast? = some 93)

theorem plain_cons (c : UInt8) (rest : Text) :
    Plain (c :: rest) ↔ ¬ (c = 35 ∨ c = 59) ∧ ¬ (c = 91 ∧ (c :: rest).getLast? = some 93) := by
  simp [Plain, not_or, and_assoc]

/-- A plain line has a key and a value, or is an error. -/
theorem lineMeaning_plain {sectionName inputLine : Text} (h : Plain (strstrip inputLine)) :
    lineMeaning sectionName inputLine = valueLine (strstrip inputLine) := by
  unfold lineMeaning
  cases hline : strstrip inputLine with
  | nil => exact absurd hline h.1
  | cons c rest =>
    rw [hline, plain_cons] at h
    exact (if_neg h.1).trans (if_neg h.2)

/-- Another line has none, and is no error. -/
theorem lineMeaning_not_plain {sectionName inputLine : Text} (h : ¬ Plain (strstrip inputLine)) :
    lineMeaning sectionName inputLine ≠ .error ∧ ∀ key val,
      lineMeaning sectionName inputLine ≠ .value key val := by
  unfold lineMeaning
  cases hline : strstrip inputLine with
  | nil => simp
  | cons c rest =>
    rw [hline, plain_cons, not_and_or, not_not, not_not] at h
    dsimp only
    by_cases hcomment : c = 35 ∨ c = 59
    · simp [hcomment]
    · rw [if_neg hcomment, if_pos (h.resolve_left hcomment)]
      split_ifs <;> simp

/-- A line without blanks around it that has an equals sign behind a key. -/
theorem valueLine_value {rest : Text} (hkey : key ≠ []) (hequals : 61 ∉ key) :
    valueLine (key ++ 61 :: rest) = .value ((strstrip key).map toLower) (valueOf rest) := by
  have hall : ∀ c ∈ key, (c != 61) = true := fun c hc => by simpa using fun h : c = 61 => hequals (h ▸ hc)
  have htake : (key ++ 61 :: rest).takeWhile (· != 61) = key := by
    rw [List.takeWhile_append_of_pos hall]
    exact List.append_nil key
  have hdrop : (key ++ 61 :: rest).dropWhile (· != 61) = 61 :: rest := by
    rw [List.dropWhile_append_of_pos hall]
    rfl
  obtain ⟨c, key, rfl⟩ := List.exists_cons_of_ne_nil hkey
  rw [valueLine, htake, hdrop]

/-- The first equals sign of a line. -/
theorem equals_cases (line : Text) :
    (61 ∉ line ∨ line.head? = some 61) ∧ valueLine line = .error ∨
      ∃ key rest, line = key ++ 61 :: rest ∧ key ≠ [] ∧ 61 ∉ key := by
  have hsplit := List.takeWhile_append_dropWhile (p := (· != 61)) (l := line)
  have hequals : 61 ∉ line.takeWhile (· != 61) := fun h => by simpa using List.mem_takeWhile_imp h
  rcases dropWhile_ne line 61 with hnil | ⟨rest, hrest⟩
  · rw [hnil, List.append_nil] at hsplit
    refine Or.inl ⟨Or.inl (hsplit ▸ hequals), ?_⟩
    rw [valueLine, hnil]
    cases line.takeWhile (· != 61) <;> rfl
  · rw [hrest] at hsplit
    cases hkey : line.takeWhile (· != 61) with
    | nil =>
      rw [hkey] at hsplit
      refine Or.inl ⟨Or.inr (by rw [← hsplit]; rfl), ?_⟩
      rw [valueLine, hkey]
    | cons c key => exact Or.inr ⟨c :: key, rest, by rw [← hkey, hsplit], List.cons_ne_nil _ _,
      hkey ▸ hequals⟩

/-- The lines that are refused are those that are neither blank, a comment nor the name of
a section and have no equals sign behind a key. All others of them give the key
before the first equals sign, and the value behind it. -/
theorem iniparserLine_plain (sectionName inputLine : Text) :
    (iniparserLine sectionName inputLine = .error ↔
      Plain (strstrip inputLine) ∧ (61 ∉ strstrip inputLine ∨ (strstrip inputLine).head? = some 61)) ∧
    ∀ key val, iniparserLine sectionName inputLine = .value key val ↔
      Plain (strstrip inputLine) ∧ ∃ before behind, strstrip inputLine = before ++ 61 :: behind ∧
        before ≠ [] ∧ 61 ∉ before ∧ key = (strstrip before).map toLower ∧ val = valueOf behind := by
  rw [iniparserLine_eq]
  by_cases hplain : Plain (strstrip inputLine)
  · rw [lineMeaning_plain hplain]
    simp only [hplain, true_and]
    generalize strstrip inputLine = line
    rcases equals_cases line with ⟨hbad, herror⟩ | ⟨before, behind, rfl, hne, hequals⟩
    · rw [herror]
      refine ⟨iff_of_true rfl hbad, fun key val => iff_of_false (fun h => (nomatch h)) ?_⟩
      rintro ⟨before, behind, rfl, hne, hequals, -, -⟩
      rw [valueLine_value hne hequals] at herror
      cases herror
    · rw [valueLine_value hne hequals]
      constructor
      · refine iff_of_false (fun h => (nomatch h)) ?_
        obtain ⟨c, before, rfl⟩ := List.exists_cons_of_ne_nil hne
        rintro (hnone | hfirst)
        · exact hnone (List.mem_append_right _ List.mem_cons_self)
        · exact hequals (List.mem_cons.mpr (Or.inl (Option.some.inj hfirst).symm))
      · intro key val
        constructor
        · intro h
          cases h
          exact ⟨before, behind, rfl, hne, hequals, rfl, rfl⟩
        · rintro ⟨before', behind', hsplit, -, hequals', rfl, rfl⟩
          obtain ⟨rfl, rfl⟩ := append_cons_inj hequals hequals' hsplit
          rfl
  · obtain ⟨herror, hvalue⟩ := @lineMeaning_not_plain sectionName inputLine hplain
    simp [hplain, herror, hvalue]

end ApduPlay.IniLines
