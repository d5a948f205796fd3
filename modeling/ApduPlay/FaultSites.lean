import ApduPlay.RuleEvaluation
import ApduPlay.Library.MarkedErrors

/-!
# Where rules go wrong

`ApplyRules` once more, with a mark for every fault that says what kind of
operation it is a fault of. Without the marks it is the same function.
-/

namespace ApduPlay.FaultSites

open ApduRules CheckedSteps MarkedErrors RuleEvaluation

/-- Kinds of operations that can go wrong. -/
inductive Site
  /-- A block is copied into or out of an array of 300 bytes. -/
  | copy
  /-- A single byte of such an array is read or written. -/
  | index
  /-- Modulo for the delay of a rule. -/
  | delay
  /-- Any other operation. -/
  | other
  deriving DecidableEq, Repr

/-- A computation of the library. -/
abbrev Checking := Marked Site Fault

/-- `memcpy` between the beginnings of two arrays. -/
def memcpy (dest src : List UInt8) (n : ℕ) : Except Fault (List UInt8) := do
  Buffer.write .outOfBounds dest 0 (← Buffer.read .outOfBounds src 0 n)

/-- A block of this length is copied into or out of an array of 300 bytes. -/
def copy {α : Type} (n : ℕ) (e : Except Fault α) : Checking α :=
  if n ≤ maxApduLength then mark .other e else .error (.copy, .outOfBounds)

/-- One condition. -/
def testMatch (app : WinscardApp) (singleRule : ApduSingleRule) : Checking Bool := do
  let found ← mark .other (app.getApduFromHistory singleRule.history singleRule.apduDirection)
  let b ← mark .index (byteAt (found.getD ApduBuffer.zero).buffer singleRule.element)
  return b == singleRule.value

/-- All conditions, up to the first one that does not hold. -/
def testAllMatch (app : WinscardApp) : List ApduSingleRule → Checking Bool
  | [] => .ok true
  | singleRule :: rest => do
    if ← testMatch app singleRule then testAllMatch app rest else return false

/-- One rule. -/
def applyRule (app : WinscardApp) (direction : ℤ) (w : Rewrite) (rule : ApduRule) : Checking Rewrite :=
  if rule.direction = direction ∧ rule.usage = 1 then do
    if ← testAllMatch app rule.matchRules then
      let w ← rule.actionRules.foldlM (fun w r => mark .index (applyAction w r)) w
      mark .delay (sleep rule.msDelay)
      return { w with bRuleFound := true }
    else return w
  else .ok w

/-- `ApplyRules` -/
def applyRules (app : WinscardApp) (newBuffer : ApduBuffer) (pbBuffer : List UInt8)
    (pcbLength : UInt32) (direction : ℤ) : Checking (List UInt8 × UInt32) :=
  if app.rulesActive then do
    let newBuffer ← copy pcbLength.toNat (memcpy newBuffer.buffer pbBuffer pcbLength.toNat)
    let w ← app.rulesList.foldlM (applyRule app direction) ⟨newBuffer, pcbLength, false⟩
    let pcbLength ← mark .other (correctLength pbBuffer direction w)
    let pbBuffer ← copy pcbLength.toNat (memcpy pbBuffer w.newBuffer pcbLength.toNat)
    return (pbBuffer, pcbLength)
  else .ok (pbBuffer, pcbLength)

variable {app : WinscardApp} {direction : ℤ} {newBuffer : ApduBuffer} {pbBuffer : List UInt8}
  {pcbLength : UInt32} {w w' : Rewrite} {r : ApduSingleRule} {rule : ApduRule}

/-- A copy that is too long fails in any case. -/
theorem erase_copy {α : Type} {n : ℕ} {e : Except Fault α} (h : maxApduLength < n → e = .error .outOfBounds) :
    erase (copy n e) = e := by
  unfold copy
  split_ifs with hn
  · exact erase_mark _ _
  · exact (h (Nat.lt_of_not_le hn)).symm

theorem erase_testMatch (app : WinscardApp) (r : ApduSingleRule) :
    erase (testMatch app r) = app.testMatch r := by
  unfold testMatch WinscardApp.testMatch
  simp only [erase_bind, erase_mark]
  rfl

theorem erase_testAllMatch (app : WinscardApp) (rs : List ApduSingleRule) :
    erase (testAllMatch app rs) = app.testAllMatch rs := by
  induction rs with
  | nil => rfl
  | cons r rest ih =>
    rw [testAllMatch, WinscardApp.testAllMatch, erase_bind, erase_testMatch]
    refine congrArg (app.testMatch r >>= ·) (funext fun holds => ?_)
    cases holds with
    | false => rfl
    | true => exact ih

theorem erase_applyRule (app : WinscardApp) (direction : ℤ) (w : Rewrite) (rule : ApduRule) :
    erase (applyRule app direction w rule) = app.applyRule direction w rule := by
  unfold applyRule WinscardApp.applyRule
  split_ifs
  · rw [erase_bind, erase_testAllMatch]
    refine congrArg (app.testAllMatch rule.matchRules >>= ·) (funext fun all => ?_)
    cases all with
    | false => rfl
    | true =>
      have hactions : erase (rule.actionRules.foldlM (fun w r => mark Site.index (applyAction w r)) w) =
          rule.actionRules.foldlM applyAction w := erase_foldlM (fun w r => erase_mark _ _) _ _
      simp only [if_true, erase_bind, erase_mark, hactions]
      rfl
  · rfl

/-- The local buffer keeps its size. -/
theorem fullBuffer_of_rules {rules : List ApduRule} (hw : FullBuffer w)
    (h : rules.foldlM (app.applyRule direction) w = .ok w') : FullBuffer w' := by
  obtain ⟨hsound, rfl⟩ := checked_applyRule.loop.of_ok hw h
  exact checked_applyRule.loop.keep w rules hw hsound

/-- More than 300 bytes cannot be copied into an array of that size. -/
theorem memcpy_into_error {dest src : List UInt8} {n : ℕ} (hdest : dest.length = maxApduLength)
    (hn : maxApduLength < n) : memcpy dest src n = .error .outOfBounds := by
  by_cases hread : 0 + n ≤ src.length
  · refine (Fault.bind_ok (Buffer.read_ok hread)).trans (Buffer.write_error ?_)
    rw [List.length_take, List.length_drop]
    omega
  · exact Fault.bind_error (Buffer.read_error (Nat.lt_of_not_le hread))

/-- Nor out of it. -/
theorem memcpy_from_error {dest src : List UInt8} {n : ℕ} (hsrc : src.length = maxApduLength)
    (hn : maxApduLength < n) : memcpy dest src n = .error .outOfBounds :=
  Fault.bind_error (Buffer.read_error (by omega))

theorem length_memcpy {dest src dest' : List UInt8} {n : ℕ} (h : memcpy dest src n = .ok dest') :
    dest'.length = dest.length := by
  obtain ⟨apdu, -, hwrite⟩ := Fault.of_bind_ok h
  obtain ⟨hroom, rfl⟩ := Buffer.write_eq_ok hwrite
  exact Buffer.length_overwrite hroom

/-- Without the marks it is the same function. -/
theorem erase_applyRules (app : WinscardApp) (newBuffer : ApduBuffer) (pbBuffer : List UInt8)
    (pcbLength : UInt32) (direction : ℤ) :
    erase (applyRules app newBuffer pbBuffer pcbLength direction) =
      app.applyRules newBuffer pbBuffer pcbLength direction := by
  have hplain : app.applyRules newBuffer pbBuffer pcbLength direction =
      if app.rulesActive then do
        let newBuffer ← memcpy newBuffer.buffer pbBuffer pcbLength.toNat
        let w ← app.rulesList.foldlM (app.applyRule direction) ⟨newBuffer, pcbLength, false⟩
        let pcbLength ← correctLength pbBuffer direction w
        let pbBuffer ← memcpy pbBuffer w.newBuffer pcbLength.toNat
        return (pbBuffer, pcbLength)
      else .ok (pbBuffer, pcbLength) := by
    simp only [WinscardApp.applyRules, memcpy, bind_assoc]
  rw [hplain, applyRules]
  split_ifs
  · rw [erase_bind, erase_copy (memcpy_into_error newBuffer.length_eq)]
    cases hcopied : memcpy newBuffer.buffer pbBuffer pcbLength.toNat with
    | error e => rfl
    | ok copied =>
      have hfull : FullBuffer ⟨copied, pcbLength, false⟩ := (length_memcpy hcopied).trans newBuffer.length_eq
      refine (erase_bind _ _).trans ?_
      rw [erase_foldlM (erase_applyRule app direction)]
      refine Eq.trans ?_ (Fault.bind_ok rfl).symm
      cases hrules : app.rulesList.foldlM (app.applyRule direction) ⟨copied, pcbLength, false⟩ with
      | error e => rfl
      | ok w =>
        have hw : w.newBuffer.length = maxApduLength := fullBuffer_of_rules hfull hrules
        refine (erase_bind _ _).trans ?_
        rw [erase_mark]
        refine Eq.trans ?_ (Fault.bind_ok rfl).symm
        refine congrArg (correctLength pbBuffer direction w >>= ·) (funext fun n => ?_)
        rw [erase_bind, erase_copy (memcpy_from_error hw)]
        rfl
  · rfl

end ApduPlay.FaultSites
