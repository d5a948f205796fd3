import Mathlib.Data.Int.Notation
import Mathlib.Data.List.Basic
import ApduPlay.Basic
import ApduPlay.Library.Buffer

/-!
# Rewriting APDUs by rules

A rule compares bytes of exchanged APDUs with expected values and, if all
agree, overwrites bytes of the current APDU. The content of the local buffer
before it is written is an argument.
-/

namespace ApduPlay.ApduRules

/-- `MAX_APDU_LENGTH` -/
def maxApduLength : ℕ := 300

/-- `OFFSET_CDATA` -/
def offsetCdata : UInt32 := 5

/-- `INPUT_APDU` -/
def inputApdu : ℤ := 1

/-- `OUTPUT_APDU` -/
def outputApdu : ℤ := 0

/-- `LC_ELEM` -/
def lcElem : ℤ := 4

/-- `LE_ELEM` -/
def leElem : ℤ := 299

/-- `APDU_BUFFER` -/
structure ApduBuffer where
  /-- The bytes. -/
  buffer : List UInt8
  /-- Their number never changes. -/
  length_eq : buffer.length = maxApduLength

/-- A cleared buffer. -/
def ApduBuffer.zero : ApduBuffer := ⟨List.replicate maxApduLength 0, List.length_replicate⟩

/-- A cleared buffer with an APDU at its beginning. -/
def ApduBuffer.padded (apdu : List UInt8) (h : apdu.length ≤ maxApduLength) : ApduBuffer :=
  ⟨apdu ++ List.replicate (maxApduLength - apdu.length) 0, by
    rw [List.length_append, List.length_replicate]
    omega⟩

/-- An APDU is saved. A longer one runs over the end of the buffer. -/
def ApduBuffer.save (apdu : List UInt8) : Except Fault ApduBuffer :=
  if h : apdu.length ≤ maxApduLength then .ok (padded apdu h) else .error .outOfBounds

theorem ApduBuffer.save_ok {apdu : List UInt8} (h : apdu.length ≤ maxApduLength) :
    save apdu = .ok (padded apdu h) :=
  dif_pos h

/-- `APDU_SINGLE_RULE` -/
structure ApduSingleRule where
  /-- true when used -/
  valid : Bool
  /-- number of target apdu in history (current == 0) -/
  history : ℤ
  /-- 1 .. input, 0... output -/
  apduDirection : ℤ
  /-- type of refered element, also equal to ordinary number of byte in apdu stream -/
  element : ℤ
  /-- expected value of given element -/
  value : UInt8
  deriving DecidableEq, Repr

/-- `APDU_SINGLE_RULE::clear`, which leaves the direction alone. -/
def ApduSingleRule.clear (r : ApduSingleRule) : ApduSingleRule :=
  { r with valid := false, history := 0, element := 0, value := 0 }

/-- `APDU_RULE` -/
structure ApduRule where
  /-- Name of its section. -/
  ruleName : Text
  /-- Only rules with 1 are used. -/
  usage : ℤ
  /-- apdu direction, 1... input apdu, 0...output apdu -/
  direction : ℤ
  /-- Conditions. -/
  matchRules : List ApduSingleRule
  /-- Changes. -/
  actionRules : List ApduSingleRule
  /-- delay in ms before continue -/
  msDelay : ℤ
  deriving DecidableEq, Repr

/-- A new `APDU_RULE`. -/
def ApduRule.initial : ApduRule := ⟨[], 0, inputApdu, [], [], 0⟩

/-- The part of `CWinscardApp` that the rules use. -/
structure WinscardApp where
  /-- Set once rules are loaded. -/
  rulesActive : Bool
  /-- Loaded rules. -/
  rulesList : List ApduRule
  /-- Incoming APDUs, the last one first. -/
  apduInList : List ApduBuffer
  /-- Outgoing APDUs, the last one first. -/
  apduOutList : List ApduBuffer

/-- `GetApduFromHistory`: the buffer found, if any. The loop for outgoing APDUs
does not count down, and the end it is compared with is that of the other list. -/
def WinscardApp.getApduFromHistory (app : WinscardApp) (history apduDirection : ℤ) :
    Except Fault (Option ApduBuffer) :=
  if apduDirection = inputApdu then
    if history.toNat ≤ app.apduInList.length then .ok app.apduInList[history.toNat]?
    else .error .outOfBounds
  else if history > 0 then .error .endlessLoop
  else
    match app.apduOutList with
    | [] => .error .outOfBounds
    | apdu :: _ => .ok (some apdu)

/-- An array is read at a signed index. -/
def byteAt (buffer : List UInt8) (element : ℤ) : Except Fault UInt8 :=
  if element < 0 then .error .outOfBounds
  else
    match buffer[element.toNat]? with
    | none => .error .outOfBounds
    | some b => .ok b

/-- An array is written at a signed index. -/
def setByte (buffer : List UInt8) (element : ℤ) (value : UInt8) : Except Fault (List UInt8) :=
  if 0 ≤ element ∧ element < buffer.length then .ok (buffer.set element.toNat value)
  else .error .outOfBounds

/-- One condition. -/
def WinscardApp.testMatch (app : WinscardApp) (singleRule : ApduSingleRule) : Except Fault Bool := do
  let found ← app.getApduFromHistory singleRule.history singleRule.apduDirection
  let b ← byteAt (found.getD ApduBuffer.zero).buffer singleRule.element
  return b == singleRule.value

/-- All conditions, up to the first one that does not hold. -/
def WinscardApp.testAllMatch (app : WinscardApp) : List ApduSingleRule → Except Fault Bool
  | [] => .ok true
  | singleRule :: rest => do
    if ← app.testMatch singleRule then app.testAllMatch rest else return false

/-- The local variables that rules change. -/
structure Rewrite where
  /-- The new APDU. -/
  newBuffer : List UInt8
  /-- Its length. -/
  pcbLength : UInt32
  /-- Whether a rule was applied. -/
  bRuleFound : Bool
  deriving DecidableEq, Repr

/-- One change. An expected length goes to the length of the APDU. -/
def applyAction (w : Rewrite) (singleRule : ApduSingleRule) : Except Fault Rewrite :=
  if singleRule.valid then
    if singleRule.element = leElem then .ok { w with pcbLength := singleRule.value.toUInt32 }
    else do return { w with newBuffer := ← setByte w.newBuffer singleRule.element singleRule.value }
  else .ok w

/-- The delay of a rule, and a random part of a tenth of it. -/
def sleep (msDelay : ℤ) : Except Fault Unit :=
  if msDelay > 0 ∧ msDelay / 10 = 0 then .error .divisionByZero else .ok ()

/-- One rule. -/
def WinscardApp.applyRule (app : WinscardApp) (direction : ℤ) (w : Rewrite) (rule : ApduRule) :
    Except Fault Rewrite :=
  if rule.direction = direction ∧ rule.usage = 1 then do
    if ← app.testAllMatch rule.matchRules then
      let w ← rule.actionRules.foldlM applyAction w
      sleep rule.msDelay
      return { w with bRuleFound := true }
    else return w
  else .ok w

/-- The length after all rules. It is corrected from the original APDU. -/
def correctLength (pbBuffer : List UInt8) (direction : ℤ) (w : Rewrite) : Except Fault UInt32 :=
  if direction = inputApdu ∧ w.bRuleFound then do
    return (← byteAt pbBuffer 4).toUInt32 + offsetCdata
  else .ok w.pcbLength

/-- `ApplyRules`: the APDU in the caller's memory and its length afterwards. -/
def WinscardApp.applyRules (app : WinscardApp) (newBuffer : ApduBuffer) (pbBuffer : List UInt8)
    (pcbLength : UInt32) (direction : ℤ) : Except Fault (List UInt8 × UInt32) :=
  if app.rulesActive then do
    let apdu ← Buffer.read .outOfBounds pbBuffer 0 pcbLength.toNat
    let newBuffer ← Buffer.write .outOfBounds newBuffer.buffer 0 apdu
    let w ← app.rulesList.foldlM (app.applyRule direction) ⟨newBuffer, pcbLength, false⟩
    let pcbLength ← correctLength pbBuffer direction w
    let apdu ← Buffer.read .outOfBounds w.newBuffer 0 pcbLength.toNat
    let pbBuffer ← Buffer.write .outOfBounds pbBuffer 0 apdu
    return (pbBuffer, pcbLength)
  else .ok (pbBuffer, pcbLength)

end ApduPlay.ApduRules
