import Mathlib.Data.Int.Notation
import Mathlib.Data.List.Basic
import ApduPlay.ApduRules
import ApduPlay.TextNumbers
import ApduPlay.Library.TextSearch

/-!
# Loading rules

`LoadRule` for the sections that describe rules. Every line of a section is
edited and cut at its commas, and each part gives conditions or changes for
single bytes.
-/

namespace ApduPlay.RuleFile

open ApduRules TextNumbers TextSearch

/-- The dictionary of the ini file parser. A section is stored under its name
without a value, and an entry under the name of its section, a colon and its
key, all in lower case. -/
structure Dictionary where
  /-- Keys and values. -/
  entries : List (Text × Option Text)
  /-- An entry has a colon in its key. -/
  colon_of_value : ∀ e ∈ entries, e.2 ≠ none → 58 ∈ e.1

/-- The names that `iniparser_getsecname` returns. -/
def Dictionary.sections (dict : Dictionary) : List Text :=
  (dict.entries.map (·.1)).filter fun key => 58 ∉ key

/-- `iniparser_getstring` with an empty default. A key that is found may have a
null pointer for its value. -/
def Dictionary.getString (dict : Dictionary) (key : Text) : Option Text :=
  match dict.entries.find? fun e => e.1 == key.map toLower with
  | none => some []
  | some e => e.2

/-- The key is put together in a buffer of 256 characters, and the length of
the value is taken. -/
def Dictionary.value (dict : Dictionary) (sectionName valueName : Text) : Except Fault Text :=
  if sectionName.length + valueName.length < 256 then
    match dict.getString (sectionName ++ valueName) with
    | none => .error .nullPointer
    | some charValue => .ok charValue
  else .error .outOfBounds

/-- An integer setting. -/
def Dictionary.intValue (dict : Dictionary) (sectionName valueName : Text) (default : ℤ) :
    Except Fault ℤ := do
  let charValue ← dict.value sectionName valueName
  return if charValue ≠ [] then strtol 10 charValue else default

/-- `erase` from a position up to the next comma. Without one the count is a
`size_t` that wraps around. -/
def eraseElement (ruleString : Text) (pos : ℕ) : Text :=
  let count :=
    match find [44] (ruleString.drop pos) with
    | some k => k + 1
    | none => (2 ^ 64 - pos) % 2 ^ 64
  ruleString.take pos ++ ruleString.drop (pos + count)

/-- Find history element, will be same for all other elementary rules. -/
def readHistory (singleRule : ApduSingleRule) (ruleString : Text) : ApduSingleRule × Text :=
  match find (ascii "t=") ruleString with
  | none => (singleRule, ruleString)
  | some pos =>
    ({ singleRule with history := strtol 10 (ruleString.drop (pos + 2)) }, eraseElement ruleString pos)

/-- Find direction element (in/out), will be same for all other elementary rules. -/
def readDirection (singleRule : ApduSingleRule) (ruleString : Text) : ApduSingleRule × Text :=
  match find (ascii "in=") ruleString with
  | none => (singleRule, ruleString)
  | some pos =>
    ({ singleRule with apduDirection := strtol 10 (ruleString.drop (pos + 3)) },
      eraseElement ruleString pos)

/-- What stands before the first equals sign. -/
def elemNameOf (rulePart : Text) : Text := rulePart.takeWhile (· != 61)

/-- What stands behind the first equals sign, everything if there is none. -/
def elemValueOf (rulePart : Text) : Text :=
  match find [61] rulePart with
  | none => rulePart
  | some k => rulePart.drop (k + 1)

/-- The current elementary rule and the rules made so far. -/
abbrev Loading := ApduSingleRule × List ApduSingleRule

/-- Use the elementary rule with this element and value. -/
def pushRule (st : Loading) (element : ℤ) (value : UInt8) : Loading :=
  let singleRule := { st.1 with valid := true, element := element, value := value }
  (singleRule, st.2 ++ [singleRule])

/-- An elementary rule for a byte of the header. -/
def loadHeader (rulePart : Text) (st : Loading) (keyword : Text × ℤ) : Loading :=
  if compareWithNoCase (elemNameOf rulePart) keyword.1 then
    pushRule st keyword.2 (byteConvertFromHexNumToByte ((elemValueOf rulePart).take 2))
  else st

/-- An elementary rule for each byte of data, starting at an offset. -/
def loadBytes (st : Loading) (offset : ℤ) : List UInt8 → Loading
  | [] => st
  | b :: bytes =>
    let element := if st.1.apduDirection = inputApdu then wrapInt (offset + 5) else offset
    loadBytes (pushRule st element b) (wrapInt (offset + 1)) bytes

/-- Elementary rules for data. Of a longer text the bytes are counted but not
stored, and the loop runs over the end of the buffer. -/
def loadData (offsetOf : Text → Except Fault ℤ) (rulePart : Text) (st : Loading) : Except Fault Loading :=
  if compareWithNoCase ((elemNameOf rulePart).take 4) (ascii "DATA") then do
    let offset ← offsetOf (elemNameOf rulePart)
    let bytes := byteConvertFromHexString ((elemValueOf rulePart).filter (· != 44))
    if bytes.length ≤ maxApduLength then return loadBytes st offset bytes else .error .outOfBounds
  else .ok st

/-- One part of a line. -/
def loadPart (keywords : List (Text × ℤ)) (offsetOf : Text → Except Fault ℤ) (st : Loading)
    (rulePart : Text) : Except Fault Loading :=
  loadData offsetOf rulePart (keywords.foldl (loadHeader rulePart) st)

/-- The bytes of the header that conditions refer to. -/
def matchKeywords : List (Text × ℤ) :=
  [(ascii "CLA", 0), (ascii "INS", 1), (ascii "P1", 2), (ascii "P2", 3), (ascii "LC", lcElem)]

/-- Changes refer to the expected length as well. -/
def actionKeywords : List (Text × ℤ) := matchKeywords ++ [(ascii "LE", leElem)]

/-- The offset in a condition: no characters from the first digit on. -/
def matchOffset (elemName : Text) : Except Fault ℤ :=
  match elemName.findIdx? isDecimal with
  | none => .error .outOfRange
  | some pos => .ok (strtol 10 ((elemName.drop pos).take 0))

/-- The offset in a change: from the position of the first digit in the name of
the section on. -/
def actionOffset (sectionName elemName : Text) : Except Fault ℤ :=
  match sectionName.findIdx? isDecimal with
  | none => .error .outOfRange
  | some pos => if elemName.length < pos then .error .outOfRange else .ok (strtol 10 (elemName.drop pos))

/-- Parse rule and create elementary rules foreach byte. -/
def loadParts (keywords : List (Text × ℤ)) (offsetOf : Text → Except Fault ℤ) (st : Loading)
    (ruleString : Text) : Except Fault Loading :=
  (parts 44 ruleString).foldlM (loadPart keywords offsetOf) st

/-- One line of conditions. -/
def loadMatch (st : Loading) (charValue : Text) : Except Fault Loading :=
  let history := readHistory st.1 (charValue ++ [32])
  let direction := readDirection history.1 history.2
  loadParts matchKeywords matchOffset (direction.1, st.2) direction.2

/-- The line of changes. -/
def loadAction (sectionName : Text) (singleRule : ApduSingleRule) (charValue : Text) :
    Except Fault Loading :=
  let direction := readDirection singleRule.clear (charValue ++ [32])
  loadParts actionKeywords (actionOffset sectionName) (direction.1, []) direction.2

/-- The loop over the lines of conditions. Only the first key has a colon. -/
def loadMatches (dict : Dictionary) (sectionName : Text) : ℕ → ℕ → Loading → Text → Except Fault Loading
  | 0, _, _, _ => .error .endlessLoop
  | fuel + 1, counter, st, charValue =>
    if charValue = [] then .ok st
    else do
      let st ← loadMatch st charValue
      let charValue ← dict.value sectionName (ascii "MATCH" ++ decimal (counter + 1))
      loadMatches dict sectionName fuel (counter + 1) st charValue

/-- The changes, if there is a line of them. -/
def loadActions (dict : Dictionary) (sectionName : Text) (singleRule : ApduSingleRule) :
    Except Fault (List ApduSingleRule) := do
  let charValue ← dict.value sectionName (ascii ":ACTION")
  if charValue = [] then return []
  else return (← loadAction sectionName singleRule charValue).2

/-- A new `APDU_SINGLE_RULE`. Its constructor does not set the direction. -/
def newSingleRule (apduDirection : ℤ) : ApduSingleRule := ⟨false, 0, apduDirection, 0, 0⟩

/-- The name of the section begins with RULE. -/
def isRuleSection (sectionName : Text) : Bool := compareWithNoCase (sectionName.take 4) (ascii "RULE")

/-- `LoadRule`: the rule that is added for a section. The direction of a new
elementary rule is whatever lies in memory. Each round of the loop over the
conditions needs an entry of its own. -/
def loadRule (dict : Dictionary) (apduDirection : ℤ) (sectionName : Text) :
    Except Fault (Option ApduRule) :=
  if isRuleSection sectionName then do
    let usage ← dict.intValue sectionName (ascii ":USAGE") ApduRule.initial.usage
    let direction ← dict.intValue sectionName (ascii ":APDUIN") ApduRule.initial.direction
    let msDelay ← dict.intValue sectionName (ascii ":DELAY") ApduRule.initial.msDelay
    let charValue ← dict.value sectionName (ascii ":MATCH" ++ decimal 1)
    let st ← loadMatches dict sectionName (dict.entries.length + 2) 1 (newSingleRule apduDirection, [])
      charValue
    let actionRules ← loadActions dict sectionName st.1
    return some ⟨sectionName, usage, direction, st.2, actionRules, msDelay⟩
  else .ok none

end ApduPlay.RuleFile
