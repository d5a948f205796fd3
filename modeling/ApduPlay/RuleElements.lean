import ApduPlay.Library.CheckedSteps
import ApduPlay.RuleFile

/-!
# Elements of rules

The elements that lines of rules are made of, how they are written, what they
mean, and what the loader makes of one of them.
-/

namespace ApduPlay.RuleElements

open ApduRules TextNumbers TextSearch RuleFile CheckedSteps

/-- A byte of the header, or the expected length. -/
inductive HeaderField
  | cla
  | ins
  | p1
  | p2
  | lc
  | le
  deriving DecidableEq, Repr

/-- Name and number of the field. -/
def HeaderField.keyword : HeaderField → Text × ℤ
  | cla => (ascii "CLA", 0)
  | ins => (ascii "INS", 1)
  | p1 => (ascii "P1", 2)
  | p2 => (ascii "P2", 3)
  | lc => (ascii "LC", lcElem)
  | le => (ascii "LE", leElem)

/-- One element of a line. -/
inductive Element
  /-- in=1 or in=0 -/
  | direction (input : Bool)
  /-- A byte of the header. -/
  | header (field : HeaderField) (value : UInt8)
  /-- Data bytes from an offset on. -/
  | data (offset : ℕ) (bytes : List UInt8)
  deriving DecidableEq, Repr

/-- How an element is written: names and digits in either case, data bytes
with blanks anywhere. -/
inductive Spells : Element → Text → Prop
  | direction (input : Bool) : Spells (.direction input) (ascii "in=" ++ [if input then 49 else 48])
  | header {field : HeaderField} {value : UInt8} {name pair : Text}
      (hname : name.map toUpper = field.keyword.1) (hpair : HexPair pair value) :
      Spells (.header field value) (name ++ 61 :: pair)
  | data {offset : ℕ} {bytes : List UInt8} {name text : Text} (hname : name.map toUpper = ascii "DATA")
      (htext : HexBytes text bytes) : Spells (.data offset bytes) ((name ++ decimal offset) ++ 61 :: text)

/-- An element together with its text. -/
structure Written where
  /-- The element. -/
  element : Element
  /-- Its text. -/
  text : Text
  /-- The text is one of the element. -/
  spells : Spells element text

/-- Every element can be written. -/
def Element.written : Element → Written
  | direction input => ⟨_, _, .direction input⟩
  | header field value =>
    ⟨.header field value, field.keyword.1 ++ 61 :: hexByte value,
      .header (by cases field <;> decide) (hexPair_hexByte value)⟩
  | data offset bytes =>
    ⟨.data offset bytes, ascii "data" ++ decimal offset ++ 61 :: bytes.flatMap hexByte,
      .data (by decide) (hexBytes_hexByte bytes)⟩

/-- What is added to the offset of data in APDUs of this direction. -/
def dataBase (apduDirection : ℤ) : ℤ := if apduDirection = inputApdu then 5 else 0

/-- The elementary rules for data bytes at these places. -/
def dataRules (history apduDirection : ℤ) (place : ℕ → ℤ) (bytes : List UInt8) : List ApduSingleRule :=
  bytes.mapIdx fun i b => ⟨true, history, apduDirection, place i, b⟩

/-- Keywords with their places are compared by equality. -/
instance lawfulBEqKeyword : LawfulBEq (Text × ℤ) := inferInstance

/-- The elementary rules that an element stands for. -/
def meaning (keywords : List (Text × ℤ)) (history apduDirection : ℤ) : Element → List ApduSingleRule
  | .direction _ => []
  | .header field value =>
    if field.keyword ∈ keywords then [⟨true, history, apduDirection, field.keyword.2, value⟩] else []
  | .data offset bytes =>
    dataRules history apduDirection (fun i => offset + dataBase apduDirection + i) bytes

/-- The elementary rules that the loader makes, given how it reads offsets. -/
def loaded (keywords : List (Text × ℤ)) (read : ℕ → Except Fault ℤ) (history apduDirection : ℤ) :
    Element → List ApduSingleRule
  | .data offset bytes =>
    match read offset with
    | .error _ => []
    | .ok start =>
      dataRules history apduDirection (fun i => wrapInt (start + dataBase apduDirection + i)) bytes
  | e => meaning keywords history apduDirection e

/-- The loader gets past an element. -/
def Loads (read : ℕ → Except Fault ℤ) : Element → Prop
  | .data offset bytes => (∃ start, read offset = .ok start) ∧ bytes.length ≤ maxApduLength
  | _ => True

/-- How the loader reads the offset in a condition. -/
def readMatch (_ : ℕ) : Except Fault ℤ := .ok 0

/-- How the loader reads the offset in a change. -/
def readAction (sectionName : Text) (offset : ℕ) : Except Fault ℤ :=
  match sectionName.findIdx? isDecimal with
  | none => .error .outOfRange
  | some pos =>
    if 4 + (decimal offset).length < pos then .error .outOfRange
    else .ok (strtol 10 ((decimal offset).drop (pos - 4)))

variable {keywords : List (Text × ℤ)} {offsetOf : Text → Except Fault ℤ} {read : ℕ → Except Fault ℤ}
  {st : Loading} {w : Written}

theorem length_upper {name : Text} {keyword : Text} (h : name.map toUpper = keyword) :
    name.length = keyword.length := by
  rw [← h, List.length_map]

/-- Letters are the only characters that become capital letters. -/
theorem not_mem_of_upper {name keyword : Text} (h : name.map toUpper = keyword) {c : UInt8}
    (hc : toUpper c ∉ keyword) : c ∉ name := by
  intro hmem
  exact hc (h ▸ List.mem_map_of_mem hmem)

theorem keyword_no_equals (field : HeaderField) : (61 : UInt8) ∉ field.keyword.1 := by
  cases field <;> decide

/-- The name is what stands before the equals sign. -/
theorem elemNameOf_eq {name : Text} (h : (61 : UInt8) ∉ name) (rest : Text) :
    elemNameOf (name ++ 61 :: rest) = name := by
  have hall : ∀ c ∈ name, (c != 61) = true := fun c hc => by
    have hne : c ≠ 61 := fun he => h (he ▸ hc)
    simpa using hne
  rw [elemNameOf, List.takeWhile_append_of_pos hall]
  simp

theorem elemValueOf_eq {name : Text} (h : (61 : UInt8) ∉ name) (rest : Text) :
    elemValueOf (name ++ 61 :: rest) = rest := by
  rw [elemValueOf, find_singleton h]
  simp [List.drop_append]

theorem compareWithNoCase_of_upper {name keyword : Text} (h : name.map toUpper = keyword) (other : Text) :
    compareWithNoCase name other = (keyword == other.map toUpper) := by
  rw [compareWithNoCase, h]

/-- A name that is no keyword leaves the header alone. -/
theorem foldl_loadHeader_other {rulePart : Text}
    (h : ∀ keyword ∈ keywords, compareWithNoCase (elemNameOf rulePart) keyword.1 = false) :
    keywords.foldl (loadHeader rulePart) st = st := by
  induction keywords with
  | nil => rfl
  | cons keyword rest ih =>
    obtain ⟨hkeyword, hrest⟩ := List.forall_mem_cons.mp h
    have hstep : loadHeader rulePart st keyword = st := by
      rw [loadHeader, if_neg (by rw [hkeyword]; exact Bool.false_ne_true)]
    rw [List.foldl_cons, hstep]
    exact ih hrest

/-- The keywords of conditions or of changes. -/
inductive IsKeywords : List (Text × ℤ) → Prop
  | ofMatch : IsKeywords matchKeywords
  | ofAction : IsKeywords actionKeywords

/-- A header element makes one elementary rule if its name is a keyword. -/
theorem foldl_loadHeader (hkeywords : IsKeywords keywords) {field : HeaderField} {rulePart : Text}
    (hname : (elemNameOf rulePart).map toUpper = field.keyword.1) :
    keywords.foldl (loadHeader rulePart) st = if field.keyword ∈ keywords then
      pushRule st field.keyword.2 (byteConvertFromHexNumToByte ((elemValueOf rulePart).take 2)) else st := by
  have hstep (st : Loading) (keyword : Text × ℤ) : loadHeader rulePart st keyword =
      if (field.keyword.1 == keyword.1.map toUpper) = true then
        pushRule st keyword.2 (byteConvertFromHexNumToByte ((elemValueOf rulePart).take 2)) else st := by
    rw [loadHeader, compareWithNoCase_of_upper hname]
  cases hkeywords with
  | ofMatch =>
    simp only [matchKeywords, List.foldl_cons, List.foldl_nil, hstep]
    cases field <;> rfl
  | ofAction =>
    simp only [actionKeywords, matchKeywords, List.cons_append, List.nil_append, List.foldl_cons,
      List.foldl_nil, hstep]
    cases field <;> rfl

/-- No keyword has this name in capital letters. -/
theorem not_keyword (hkeywords : IsKeywords keywords) {name : Text}
    (hname : ∀ field : HeaderField, name.map toUpper ≠ field.keyword.1) :
    ∀ keyword ∈ keywords, compareWithNoCase name keyword.1 = false := by
  have hfield : ∀ keyword ∈ keywords, ∃ field : HeaderField, keyword.1.map toUpper = field.keyword.1 := by
    cases hkeywords with
    | ofMatch =>
      simp only [matchKeywords, List.forall_mem_cons]
      exact ⟨⟨.cla, rfl⟩, ⟨.ins, rfl⟩, ⟨.p1, rfl⟩, ⟨.p2, rfl⟩, ⟨.lc, rfl⟩, List.forall_mem_nil _⟩
    | ofAction =>
      simp only [actionKeywords, matchKeywords, List.cons_append, List.nil_append, List.forall_mem_cons]
      exact ⟨⟨.cla, rfl⟩, ⟨.ins, rfl⟩, ⟨.p1, rfl⟩, ⟨.p2, rfl⟩, ⟨.lc, rfl⟩, ⟨.le, rfl⟩, List.forall_mem_nil _⟩
  intro keyword hkeyword
  obtain ⟨field, hupper⟩ := hfield keyword hkeyword
  rw [compareWithNoCase, hupper]
  exact beq_eq_false_iff_ne.mpr (hname field)

/-- What the loader does with the part of a written element. -/
def next (keywords : List (Text × ℤ)) (read : ℕ → Except Fault ℤ) (st : Loading) : Element → Loading
  | .direction _ => st
  | .header field value => if field.keyword ∈ keywords then pushRule st field.keyword.2 value else st
  | .data offset bytes =>
    match read offset with
    | .error _ => st
    | .ok start => loadBytes st start bytes

theorem loadPart_direction (hkeywords : IsKeywords keywords) (input : Bool) :
    loadPart keywords offsetOf st (ascii "in=" ++ [if input then 49 else 48] ++ [44]) = .ok st := by
  have hequals : (61 : UInt8) ∉ ascii "in" := by decide
  have hname : elemNameOf (ascii "in=" ++ [if input then 49 else 48] ++ [44]) = ascii "in" :=
    elemNameOf_eq hequals [if input then 49 else 48, 44]
  have hother : ∀ field : HeaderField, (ascii "in").map toUpper ≠ field.keyword.1 := by
    intro field
    cases field <;> decide
  have hskip : keywords.foldl (loadHeader (ascii "in=" ++ [if input then 49 else 48] ++ [44])) st = st :=
    foldl_loadHeader_other (by rw [hname]; exact not_keyword hkeywords hother)
  rw [loadPart, hskip, loadData, hname, if_neg (by decide)]

theorem loadPart_header (hkeywords : IsKeywords keywords) {field : HeaderField} {value : UInt8}
    {name pair : Text} (hname : name.map toUpper = field.keyword.1) (hpair : HexPair pair value) :
    loadPart keywords offsetOf st (name ++ 61 :: pair ++ [44]) =
      .ok (if field.keyword ∈ keywords then pushRule st field.keyword.2 value else st) := by
  have hequals : (61 : UInt8) ∉ name := not_mem_of_upper hname (keyword_no_equals field)
  have hpart : name ++ 61 :: pair ++ [44] = name ++ 61 :: (pair ++ [44]) := by simp
  have hlen : pair.length = 2 := by
    obtain ⟨high, low, m, n, rfl, -⟩ := hpair
    rfl
  have hvalue : (elemValueOf (name ++ 61 :: (pair ++ [44]))).take 2 = pair := by
    rw [elemValueOf_eq hequals, ← hlen, List.take_left]
  have hdata : compareWithNoCase (name.take 4) (ascii "DATA") = false := by
    have hupper : (name.take 4).map toUpper = field.keyword.1.take 4 := by rw [← hname, List.map_take]
    rw [compareWithNoCase, hupper]
    cases field <;> decide
  rw [hpart, loadPart, foldl_loadHeader hkeywords (by rw [elemNameOf_eq hequals]; exact hname), hvalue,
    byteConvertFromHexNumToByte_pair hpair, loadData, elemNameOf_eq hequals,
    if_neg (by rw [hdata]; exact Bool.false_ne_true)]

/-- The offsets of data elements are read in this way. -/
def ReadsOffsets (offsetOf : Text → Except Fault ℤ) (read : ℕ → Except Fault ℤ) : Prop :=
  ∀ (name : Text) (offset : ℕ), name.length = 4 → offsetOf (name ++ decimal offset) = read offset

theorem loadPart_data (hkeywords : IsKeywords keywords) (hread : ReadsOffsets offsetOf read) {offset : ℕ}
    {bytes : List UInt8} {name text : Text} (hname : name.map toUpper = ascii "DATA")
    (htext : HexBytes text bytes) :
    loadPart keywords offsetOf st ((name ++ decimal offset) ++ 61 :: text ++ [44]) = (do
      let start ← read offset
      if bytes.length ≤ maxApduLength then return loadBytes st start bytes else .error .outOfBounds) := by
  have hlen : name.length = 4 := length_upper hname
  have hequals : (61 : UInt8) ∉ name ++ decimal offset := by
    intro hmem
    rcases List.mem_append.mp hmem with hmem | hmem
    · exact not_mem_of_upper hname (by decide) hmem
    · exact absurd (mem_decimal hmem).2 (by decide)
  have hpart : (name ++ decimal offset) ++ 61 :: text ++ [44] =
      (name ++ decimal offset) ++ 61 :: (text ++ [44]) := by simp
  have hother : ∀ field : HeaderField, (name ++ decimal offset).map toUpper ≠ field.keyword.1 := by
    intro field he
    have hlong := length_upper he
    rw [List.length_append, hlen] at hlong
    cases field <;> simp [HeaderField.keyword, ascii] at hlong <;> omega
  have hdata : compareWithNoCase ((name ++ decimal offset).take 4) (ascii "DATA") = true := by
    rw [← hlen, List.take_left, compareWithNoCase, hname]
    decide
  have hcomma : (text ++ [44]).filter (· != 44) = text := by
    have hall : ∀ c ∈ text, (c != 44) = true := by
      intro c hc
      have hne : c ≠ 44 := by
        rintro rfl
        exact htext.not_mem (by decide) (by decide) hc
      simpa using hne
    rw [List.filter_append, List.filter_eq_self.mpr hall]
    simp
  have hskip : keywords.foldl (loadHeader ((name ++ decimal offset) ++ 61 :: (text ++ [44]))) st = st :=
    foldl_loadHeader_other (by rw [elemNameOf_eq hequals]; exact not_keyword hkeywords hother)
  rw [hpart, loadPart, hskip, loadData, elemNameOf_eq hequals, elemValueOf_eq hequals, if_pos hdata,
    hread name offset hlen, hcomma, byteConvertFromHexString_eq htext]

/-- The part of an element is a checked step. -/
theorem checked_loadPart (hkeywords : IsKeywords keywords) (hread : ReadsOffsets offsetOf read) :
    Checked (fun _ => True) (fun w : Written => Loads read w.element)
      (fun st w => next keywords read st w.element)
      (fun st w => loadPart keywords offsetOf st (w.text ++ [44])) where
  ok st w _ hloads := by
    obtain ⟨element, text, spells⟩ := w
    cases spells with
    | direction input => exact loadPart_direction hkeywords input
    | header hname hpair => exact loadPart_header hkeywords hname hpair
    | data hname htext =>
      obtain ⟨⟨start, hstart⟩, hlen⟩ := hloads
      refine (loadPart_data hkeywords hread hname htext).trans ?_
      rw [Fault.bind_ok hstart, if_pos hlen]
      simp only [next, hstart]
      rfl
  keep _ _ _ _ := trivial
  fail st w _ hloads := by
    obtain ⟨element, text, spells⟩ := w
    cases spells with
    | direction input => exact absurd trivial hloads
    | header hname hpair => exact absurd trivial hloads
    | @data offset bytes name text hname htext =>
      rw [loadPart_data hkeywords hread hname htext]
      cases hstart : read offset with
      | error e => exact ⟨e, rfl⟩
      | ok start =>
        have hlong : ¬ bytes.length ≤ maxApduLength := fun hlen => hloads ⟨⟨start, hstart⟩, hlen⟩
        exact ⟨.outOfBounds, if_neg hlong⟩

theorem isInt_strtol (base : ℕ) (text : Text) : IsInt (strtol base text) := by
  simp only [strtol, IsInt]
  split_ifs <;> omega

/-- Data bytes are put one behind the other. -/
theorem loadBytes_eq {start : ℤ} (hstart : IsInt start) (bytes : List UInt8) (st : Loading) :
    ∃ r, loadBytes st start bytes = (r, st.2 ++ dataRules st.1.history st.1.apduDirection
        (fun i => wrapInt (start + dataBase st.1.apduDirection + i)) bytes) ∧
      r.history = st.1.history ∧ r.apduDirection = st.1.apduDirection := by
  induction bytes generalizing start st with
  | nil => exact ⟨st.1, by simp [loadBytes, dataRules], rfl, rfl⟩
  | cons b bytes ih =>
    have hplace : (if st.1.apduDirection = inputApdu then wrapInt (start + 5) else start) =
        wrapInt (start + dataBase st.1.apduDirection + (0 : ℕ)) := by
      unfold dataBase
      split_ifs
      · simp
      · simp [wrapInt_eq hstart]
    have hnext (i : ℕ) : wrapInt (wrapInt (start + 1) + dataBase st.1.apduDirection + i) =
        wrapInt (start + dataBase st.1.apduDirection + ((i + 1 : ℕ) : ℤ)) := by
      rw [Int.add_assoc, wrapInt_add]
      congr 1
      omega
    obtain ⟨r, hr, hhistory, hdirection⟩ := ih (isInt_wrapInt (start + 1))
      (pushRule st (if st.1.apduDirection = inputApdu then wrapInt (start + 5) else start) b)
    refine ⟨r, ?_, hhistory, hdirection⟩
    rw [loadBytes, hr, hplace]
    simp only [pushRule, dataRules, List.mapIdx_cons, hnext, List.append_assoc, List.singleton_append]

/-- Offsets that are read are values of an `int`. -/
def ReadsInts (read : ℕ → Except Fault ℤ) : Prop := ∀ offset start, read offset = .ok start → IsInt start

/-- The elementary rules of all elements come in order. -/
theorem foldl_next (keywords : List (Text × ℤ)) (hints : ReadsInts read) (es : List Element) (st : Loading) :
    ∃ r, es.foldl (next keywords read) st =
        (r, st.2 ++ es.flatMap (loaded keywords read st.1.history st.1.apduDirection)) ∧
      r.history = st.1.history ∧ r.apduDirection = st.1.apduDirection := by
  induction es generalizing st with
  | nil => exact ⟨st.1, by simp, rfl, rfl⟩
  | cons e es ih =>
    obtain ⟨r₁, hstep, hhistory₁, hdirection₁⟩ : ∃ r, next keywords read st e =
        (r, st.2 ++ loaded keywords read st.1.history st.1.apduDirection e) ∧
          r.history = st.1.history ∧ r.apduDirection = st.1.apduDirection := by
      cases e with
      | direction input => exact ⟨st.1, by simp [next, loaded, meaning], rfl, rfl⟩
      | header field value =>
        by_cases hfield : field.keyword ∈ keywords
        · refine ⟨{ st.1 with valid := true, element := field.keyword.2, value := value }, ?_, rfl, rfl⟩
          simp only [next, loaded, meaning, hfield, if_true, pushRule]
        · exact ⟨st.1, by simp [next, loaded, meaning, hfield], rfl, rfl⟩
      | data offset bytes =>
        cases hstart : read offset with
        | error e => exact ⟨st.1, by simp [next, loaded, hstart], rfl, rfl⟩
        | ok start =>
          simp only [next, loaded, hstart]
          exact loadBytes_eq (hints offset start hstart) bytes st
    obtain ⟨r, hr, hhistory, hdirection⟩ := ih (r₁, st.2 ++ loaded keywords read st.1.history
      st.1.apduDirection e)
    refine ⟨r, ?_, hhistory.trans hhistory₁, hdirection.trans hdirection₁⟩
    rw [List.foldl_cons, hstep, hr, hhistory₁, hdirection₁, List.flatMap_cons, List.append_assoc]

/-- Data end up where they belong exactly if the offset is read right and the
last place is a value of an `int`. -/
theorem dataRules_eq_iff {history apduDirection start : ℤ} {offset : ℕ} {bytes : List UInt8}
    (hstart : IsInt start) :
    dataRules history apduDirection (fun i => wrapInt (start + dataBase apduDirection + i)) bytes =
      dataRules history apduDirection (fun i => offset + dataBase apduDirection + i) bytes ↔
    bytes = [] ∨ start = offset ∧ offset + dataBase apduDirection + bytes.length ≤ 2 ^ 31 := by
  have hbase : dataBase apduDirection = 0 ∨ dataBase apduDirection = 5 := by
    unfold dataBase
    split_ifs <;> simp
  constructor
  · intro heq
    by_cases hnil : bytes = []
    · exact Or.inl hnil
    have hplace (i : ℕ) (hi : i < bytes.length) :
        wrapInt (start + dataBase apduDirection + i) = offset + dataBase apduDirection + i := by
      have hget := congrArg (fun rules => rules[i]?) heq
      simpa [dataRules, List.getElem?_mapIdx, List.getElem?_eq_getElem hi] using hget
    have hpos := List.length_pos_of_ne_nil hnil
    have hfirst := hplace 0 hpos
    have hlast := hplace (bytes.length - 1) (by omega)
    have hint₀ := isInt_wrapInt (start + dataBase apduDirection + ((0 : ℕ) : ℤ))
    have hint := isInt_wrapInt (start + dataBase apduDirection + ((bytes.length - 1 : ℕ) : ℤ))
    rw [hfirst] at hint₀
    rw [hlast] at hint
    refine Or.inr ⟨?_, by unfold IsInt at hint; omega⟩
    have hoffset : wrapInt (start + dataBase apduDirection) = wrapInt (offset + dataBase apduDirection) := by
      rw [wrapInt_eq (n := offset + dataBase apduDirection) (by simpa using hint₀)]
      simpa using hfirst
    have hsame := (Int.bmod_add_cancel_right _).mp hoffset
    have hint' : IsInt offset := by
      unfold IsInt at hint₀ ⊢
      omega
    calc start = wrapInt start := (wrapInt_eq hstart).symm
      _ = wrapInt offset := hsame
      _ = offset := wrapInt_eq hint'
  · rintro (rfl | ⟨rfl, hmax⟩)
    · rfl
    · refine List.mapIdx_eq_mapIdx_iff.mpr fun i hi => ?_
      have hint : IsInt (offset + dataBase apduDirection + i) := ⟨by omega, by omega⟩
      simp only [wrapInt_eq hint]

end ApduPlay.RuleElements
