import ApduPlay.FaultSites
import ApduPlay.RecordedBytes

/-!
# Copies of whole APDUs

Commands and responses are copied into arrays of 300 bytes without a look at
their length. The length that rules leave is never the problem.
-/

namespace ApduPlay.FixedBuffers

open ApduRules CardSession CheckedSteps FaultSites MarkedErrors RecordedBytes RuleEvaluation SuppliedBytes
open Transmit (TransmitConfig Link Locals Exchange forceData transmitTo readout)

variable {σ : Type} (cfg : TransmitConfig) (link : Link σ) (hCard : CardHandle) (locals : Locals)

/-- An APDU is copied into a cleared record for the history. -/
def saveApdu (src : List UInt8) (n : ℕ) : Except Fault ApduBuffer := do
  ApduBuffer.save (← Buffer.read .outOfBounds src 0 n)

/-- The rules, if they are used. -/
def useRules (app : WinscardApp) (newBuffer : ApduBuffer) (pbBuffer : List UInt8) (pcbLength : UInt32)
    (direction : ℤ) : Checking (List UInt8 × UInt32) :=
  if cfg.modifyApduByRules then applyRules app newBuffer pbBuffer pcbLength direction
  else .ok (pbBuffer, pcbLength)

/-- Save the incoming APDU, apply the rules to it and send it. -/
def sendCommand (v : Exchange σ) (pbSendBuffer : List UInt8) (cbSendLength : UInt32) :
    Checking (Exchange σ) := do
  let apduBuff ← copy cbSendLength.toNat (saveApdu pbSendBuffer cbSendLength.toNat)
  let app := afterIncoming v apduBuff
  let sendBuffer ← copy cbSendLength.toNat
    (memcpy locals.sendBuffer.buffer pbSendBuffer cbSendLength.toNat)
  let ruled ← useRules cfg app locals.newBufferIn sendBuffer cbSendLength inputApdu
  let forced := forceData cfg (v.session.isRemoteCard hCard) ruled.1 ruled.2
  let command ← mark .other (Buffer.read .outOfBounds forced.1 0 forced.2.toNat)
  mark .other (transmitTo link hCard { v with app := app } command 0)

/-- Save the outgoing APDU and apply the rules to it. -/
def finish (v : Exchange σ) : Checking (Exchange σ) := do
  let pcbRecvLength := if v.result ≠ scardSSuccess then 0 else v.pcbRecvLength
  let apduBuff ← copy pcbRecvLength.toNat (saveApdu v.pbRecvBuffer pcbRecvLength.toNat)
  let app := afterOutgoing v apduBuff
  let ruled ← useRules cfg app locals.newBufferOut v.pbRecvBuffer pcbRecvLength outputApdu
  return { v with app := app, pbRecvBuffer := ruled.1, pcbRecvLength := ruled.2 }

/-- `SCardTransmit`, with a bound on the rounds of the readout. -/
def scardTransmit (fuel : ℕ) (v : Exchange σ) (pbSendBuffer : List UInt8) (cbSendLength : UInt32) :
    Checking (Option (Exchange σ)) := do
  let v ← sendCommand cfg link hCard locals v pbSendBuffer cbSendLength
  match ← mark .other (readout cfg link hCard fuel v) with
  | none => return none
  | some v => return some (← finish cfg locals v)

/-- No copy of an APDU in the whole call runs over the end of an array. -/
def StaysInArrays (v : Exchange σ) (pbSendBuffer : List UInt8) (cbSendLength : UInt32) : Prop :=
  ∀ fuel, Avoids (· = .copy) (scardTransmit cfg link hCard locals fuel v pbSendBuffer cbSendLength)

variable {cfg : TransmitConfig} {link : Link σ} {hCard : CardHandle} {locals : Locals} {v : Exchange σ}
  {app : WinscardApp} {newBuffer : ApduBuffer} {pbSendBuffer pbBuffer : List UInt8}
  {cbSendLength pcbLength : UInt32} {direction : ℤ}

theorem saveApdu_error {src : List UInt8} {n : ℕ} (hn : maxApduLength < n) :
    saveApdu src n = .error .outOfBounds := by
  by_cases hread : 0 + n ≤ src.length
  · refine (Fault.bind_ok (Buffer.read_ok hread)).trans (dif_neg ?_)
    rw [List.length_take, List.length_drop]
    omega
  · exact Fault.bind_error (Buffer.read_error (Nat.lt_of_not_le hread))

theorem erase_useRules :
    erase (useRules cfg app newBuffer pbBuffer pcbLength direction) =
      if cfg.modifyApduByRules then app.applyRules newBuffer pbBuffer pcbLength direction
      else .ok (pbBuffer, pcbLength) := by
  unfold useRules
  split_ifs
  · exact erase_applyRules _ _ _ _ _
  · rfl

/-- Without the marks a command is sent in the same way. -/
theorem erase_sendCommand :
    erase (sendCommand cfg link hCard locals v pbSendBuffer cbSendLength) =
      Transmit.sendCommand cfg link hCard locals v pbSendBuffer cbSendLength := by
  have hsplit : Transmit.sendCommand cfg link hCard locals v pbSendBuffer cbSendLength = (do
      let apduBuff ← saveApdu pbSendBuffer cbSendLength.toNat
      let sendBuffer ← memcpy locals.sendBuffer.buffer pbSendBuffer cbSendLength.toNat
      let ruled ← Transmit.applyIncoming cfg locals (afterIncoming v apduBuff) sendBuffer cbSendLength
      let forced := forceData cfg (v.session.isRemoteCard hCard) ruled.1 ruled.2
      let command ← Buffer.read .outOfBounds forced.1 0 forced.2.toNat
      transmitTo link hCard { v with app := afterIncoming v apduBuff } command 0) := by
    unfold Transmit.sendCommand saveApdu memcpy
    cases Buffer.read Fault.outOfBounds pbSendBuffer 0 cbSendLength.toNat <;> rfl
  rw [hsplit]
  unfold sendCommand
  simp only [erase_bind, erase_mark, erase_useRules, erase_copy saveApdu_error,
    erase_copy (memcpy_into_error locals.sendBuffer.length_eq)]
  rfl

/-- And a call ends in the same way. -/
theorem erase_finish : erase (finish cfg locals v) = Transmit.finish cfg locals v := by
  rw [finish_eq ⟨[], []⟩]
  unfold finish outgoingPass
  simp only [erase_bind, erase_useRules, erase_copy saveApdu_error]
  simp only [saveApdu, bind_assoc, pure_bind]
  rfl

/-- Without the marks it is the same function. -/
theorem erase_scardTransmit (fuel : ℕ) :
    erase (scardTransmit cfg link hCard locals fuel v pbSendBuffer cbSendLength) =
      Transmit.scardTransmit cfg link hCard locals fuel v pbSendBuffer cbSendLength := by
  unfold scardTransmit Transmit.scardTransmit
  simp only [erase_bind, erase_mark, erase_sendCommand]
  refine congrArg (Transmit.sendCommand _ _ _ _ _ _ _ >>= ·) (funext fun v₁ => ?_)
  refine congrArg (readout _ _ _ _ _ >>= ·) (funext fun found => ?_)
  cases found with
  | none => rfl
  | some v₂ =>
    simp only [erase_bind, erase_finish]
    rfl

/-- A copy that is short enough. -/
theorem avoids_copy_iff {α : Type} {n : ℕ} {e : Except Fault α} :
    Avoids (· = .copy) (copy n e) ↔ n ≤ maxApduLength := by
  unfold copy
  split_ifs with hn
  · exact iff_of_true (avoids_mark (by decide) e) hn
  · exact iff_of_false (fun h => h _ _ rfl rfl) hn

/-- The evaluation of one rule copies nothing. -/
theorem avoids_applyRule (w : Rewrite) (rule : ApduRule) :
    Avoids (· = .copy) (applyRule app direction w rule) := by
  have htest : ∀ rs, Avoids (· = .copy) (testAllMatch app rs) := by
    intro rs
    induction rs with
    | nil => exact avoids_ok _ _
    | cons r rest ih =>
      have hmatch : Avoids (· = .copy) (testMatch app r) :=
        avoids_bind.mpr ⟨avoids_mark (by decide) _, fun found _ =>
          avoids_bind.mpr ⟨avoids_mark (by decide) _, fun b _ => avoids_ok _ _⟩⟩
      refine avoids_bind.mpr ⟨hmatch, fun holds _ => ?_⟩
      cases holds with
      | false => exact avoids_ok _ _
      | true => exact ih
  unfold applyRule
  split_ifs
  · refine avoids_bind.mpr ⟨htest rule.matchRules, fun all _ => ?_⟩
    cases all with
    | false => exact avoids_ok _ _
    | true =>
      refine avoids_bind.mpr ⟨avoids_foldlM _ (fun w r _ => avoids_mark (by decide) _) w, fun w' _ => ?_⟩
      exact avoids_bind.mpr ⟨avoids_mark (by decide) _, fun _ _ => avoids_ok _ _⟩
  · exact avoids_ok _ _

/-- Rules leave the length or set it to the value of a byte. -/
theorem pcbLength_of_rules {w w' : Rewrite} {rules : List ApduRule} (hfull : FullBuffer w)
    (hw : w.pcbLength.toNat ≤ maxApduLength) (h : rules.foldlM (app.applyRule direction) w = .ok w') :
    w'.pcbLength.toNat ≤ maxApduLength := by
  obtain ⟨-, rfl⟩ := checked_applyRule.loop.of_ok hfull h
  rw [foldl_runRule]
  dsimp only
  rw [foldl_act_pcbLength]
  exact lengthWritten_le _ (by decide) hw

/-- A corrected length is small as well. -/
theorem correctLength_le {w : Rewrite} {n : UInt32} (hw : w.pcbLength.toNat ≤ maxApduLength)
    (h : correctLength pbBuffer direction w = .ok n) : n.toNat ≤ maxApduLength := by
  unfold correctLength at h
  split_ifs at h
  · obtain ⟨lc, -, h⟩ := Fault.of_bind_ok h
    cases h
    have hbyte := lc.toNat_lt
    have hmax : maxApduLength = 300 := rfl
    rw [toNat_correctedLength]
    omega
  · cases h
    exact hw

/-- What rules leave is copied back if the APDU could be copied before. -/
theorem avoids_applyRules (hmax : pcbLength.toNat ≤ maxApduLength) :
    Avoids (· = .copy) (applyRules app newBuffer pbBuffer pcbLength direction) := by
  unfold applyRules
  split_ifs
  · refine avoids_bind.mpr ⟨avoids_copy_iff.mpr hmax, fun copied hcopied => ?_⟩
    refine avoids_bind.mpr ⟨avoids_foldlM _ (fun w rule _ => avoids_applyRule w rule) _, fun w hrules => ?_⟩
    refine avoids_bind.mpr ⟨avoids_mark (by decide) _, fun n hcorrect => ?_⟩
    refine avoids_bind.mpr ⟨avoids_copy_iff.mpr ?_, fun _ _ => avoids_ok _ _⟩
    have hfull : FullBuffer ⟨copied, pcbLength, false⟩ := by
      rw [copy, if_pos hmax, mark_eq_ok] at hcopied
      exact (length_memcpy hcopied).trans newBuffer.length_eq
    rw [← erase_eq_ok, erase_foldlM (erase_applyRule app direction)] at hrules
    exact correctLength_le (pcbLength_of_rules hfull hmax hrules) (mark_eq_ok.mp hcorrect)
  · exact avoids_ok _ _

theorem avoids_useRules (hmax : pcbLength.toNat ≤ maxApduLength) :
    Avoids (· = .copy) (useRules cfg app newBuffer pbBuffer pcbLength direction) := by
  unfold useRules
  split_ifs
  · exact avoids_applyRules hmax
  · exact avoids_ok _ _

/-- The first two copies decide. -/
theorem avoids_sendCommand_iff :
    Avoids (· = .copy) (sendCommand cfg link hCard locals v pbSendBuffer cbSendLength) ↔
      cbSendLength.toNat ≤ maxApduLength := by
  refine ⟨fun h => avoids_copy_iff.mp (avoids_bind.mp h).1, fun hmax => ?_⟩
  refine avoids_bind.mpr ⟨avoids_copy_iff.mpr hmax, fun saved _ => ?_⟩
  refine avoids_bind.mpr ⟨avoids_copy_iff.mpr hmax, fun sendBuffer _ => ?_⟩
  refine avoids_bind.mpr ⟨avoids_useRules hmax, fun ruled _ => ?_⟩
  exact avoids_bind.mpr ⟨avoids_mark (by decide) _, fun _ _ => avoids_mark (by decide) _⟩

theorem avoids_finish_iff :
    Avoids (· = .copy) (finish cfg locals v) ↔
      (v.result = scardSSuccess → v.pcbRecvLength.toNat ≤ maxApduLength) := by
  have hlength : (if v.result ≠ scardSSuccess then 0 else v.pcbRecvLength).toNat ≤ maxApduLength ↔
      (v.result = scardSSuccess → v.pcbRecvLength.toNat ≤ maxApduLength) := by
    by_cases hsuccess : v.result = scardSSuccess
    · rw [if_neg (not_not_intro hsuccess)]
      exact ⟨fun h _ => h, fun h => h hsuccess⟩
    · rw [if_pos hsuccess]
      exact iff_of_true (Nat.zero_le _) fun h => absurd h hsuccess
  rw [← hlength]
  refine ⟨fun h => avoids_copy_iff.mp (avoids_bind.mp h).1, fun hmax => ?_⟩
  refine avoids_bind.mpr ⟨avoids_copy_iff.mpr hmax, fun saved _ => ?_⟩
  exact avoids_bind.mpr ⟨avoids_useRules hmax, fun _ _ => avoids_ok _ _⟩

/-- All copies stay inside their arrays exactly if the command has at most 300
bytes and so has the response, unless the last transmit failed. -/
theorem staysInArrays_iff :
    StaysInArrays cfg link hCard locals v pbSendBuffer cbSendLength ↔
      cbSendLength.toNat ≤ maxApduLength ∧
        ∀ fuel v₁ v₂, Transmit.sendCommand cfg link hCard locals v pbSendBuffer cbSendLength = .ok v₁ →
          readout cfg link hCard fuel v₁ = .ok (some v₂) → v₂.result = scardSSuccess →
          v₂.pcbRecvLength.toNat ≤ maxApduLength := by
  unfold StaysInArrays scardTransmit
  constructor
  · intro h
    refine ⟨avoids_sendCommand_iff.mp (avoids_bind.mp (h 0)).1, fun fuel v₁ v₂ hsend hread => ?_⟩
    rw [← erase_sendCommand, erase_eq_ok] at hsend
    have hrest := (avoids_bind.mp ((avoids_bind.mp (h fuel)).2 v₁ hsend)).2 (some v₂) (mark_eq_ok.mpr hread)
    exact avoids_finish_iff.mp (avoids_bind.mp hrest).1
  · rintro ⟨hcommand, hresponse⟩ fuel
    refine avoids_bind.mpr ⟨avoids_sendCommand_iff.mpr hcommand, fun v₁ hsend => ?_⟩
    rw [← erase_eq_ok, erase_sendCommand] at hsend
    refine avoids_bind.mpr ⟨avoids_mark (by decide) _, fun found hread => ?_⟩
    cases found with
    | none => exact avoids_ok _ _
    | some v₂ =>
      have hfits := hresponse fuel v₁ v₂ hsend (mark_eq_ok.mp hread)
      exact avoids_bind.mpr ⟨avoids_finish_iff.mpr hfits, fun _ _ => avoids_ok _ _⟩

/-- A command of 301 bytes runs over the end of the record for the history. -/
theorem not_staysInArrays_extended :
    ¬ StaysInArrays rulesOnly accepting 0 ⟨ApduBuffer.zero, ApduBuffer.zero, ApduBuffer.zero⟩
      ⟨⟨false, [], [], []⟩, Session.initial [] false, (), [], 0, scardSSuccess, []⟩
      (List.replicate 301 0) 301 := by
  intro h
  have hcommand := avoids_sendCommand_iff.mp (avoids_bind.mp (h 0)).1
  exact absurd hcommand (by decide)

end ApduPlay.FixedBuffers
