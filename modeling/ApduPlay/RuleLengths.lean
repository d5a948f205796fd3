import ApduPlay.RuleEvaluation

/-!
# The length of a rewritten APDU

After input rules the length is corrected from the length byte of the original
APDU, so it follows the rewritten length byte only if that is the same.
-/

namespace ApduPlay.RuleLengths

open ApduRules CheckedSteps RuleEvaluation

variable {app : WinscardApp} {newBuffer : ApduBuffer} {pbBuffer : List UInt8} {pcbLength : UInt32}
  {lc : UInt8}

/-- The forwarded length agrees with the length byte of the forwarded APDU. -/
def LengthFollowsLc (app : WinscardApp) (newBuffer : ApduBuffer) (pbBuffer : List UInt8)
    (pcbLength : UInt32) : Prop :=
  ∃ apdu n lc, app.applyRules newBuffer pbBuffer pcbLength inputApdu = .ok (apdu, n) ∧
    apdu[4]? = some lc ∧ n = lc.toUInt32 + offsetCdata

/-- Sound rules of which one is applied leave the corrected length. -/
theorem applyRules_input_ok (newBuffer : ApduBuffer) (hactive : app.rulesActive = true)
    (hlc : pbBuffer[4]? = some lc)
    (hdata : lc.toNat + 5 ≤ pcbLength.toNat) (hmax : pcbLength.toNat ≤ maxApduLength)
    (hmem : pcbLength.toNat ≤ pbBuffer.length)
    (hfires : ∃ rule ∈ app.rulesList, Fires app inputApdu rule)
    (hsound : ∀ rule ∈ app.rulesList, Sound app inputApdu rule) :
    ∃ apdu, app.applyRules newBuffer pbBuffer pcbLength inputApdu = .ok (apdu, lc.toUInt32 + offsetCdata) ∧
      apdu[4]? = some (written (firedActions app inputApdu) lcElem lc) := by
  have hfull : FullBuffer ⟨copied newBuffer pbBuffer pcbLength, pcbLength, false⟩ := length_copied hmax
  obtain ⟨w, hwdef⟩ : ∃ w, w = afterRules app newBuffer pbBuffer pcbLength inputApdu := ⟨_, rfl⟩
  have hrules : app.rulesList.foldlM (app.applyRule inputApdu)
      ⟨copied newBuffer pbBuffer pcbLength, pcbLength, false⟩ = .ok w := by
    rw [hwdef]
    exact checked_applyRule.loop.ok _ _ hfull hsound
  have hw : w.newBuffer.length = maxApduLength := by
    rw [hwdef]
    exact checked_applyRule.loop.keep _ _ hfull hsound
  have hfound : w.bRuleFound = true := by
    obtain ⟨rule, hrule, hfire⟩ := hfires
    rw [hwdef, afterRules, foldl_runRule]
    simp only [Bool.false_or, List.any_eq_true]
    exact ⟨rule, hrule, decide_eq_true hfire⟩
  have hn := toNat_correctedLength lc
  have hcorrect : correctLength pbBuffer inputApdu w = .ok (lc.toUInt32 + offsetCdata) := by
    rw [correctLength, if_pos ⟨rfl, hfound⟩]
    exact Fault.bind_ok (byteAt_ok (by decide) hlc)
  have hlen : ((w.newBuffer.drop 0).take (lc.toUInt32 + offsetCdata).toNat).length = lc.toNat + 5 := by
    rw [hn, List.length_take, List.length_drop, hw]
    omega
  refine ⟨Buffer.overwrite pbBuffer 0 ((w.newBuffer.drop 0).take (lc.toUInt32 + offsetCdata).toNat), ?_, ?_⟩
  · rw [applyRules_eq hactive hmax hmem]
    refine (Fault.bind_ok hrules).trans ((Fault.bind_ok hcorrect).trans ?_)
    refine (Fault.bind_ok (Buffer.read_ok (by rw [hn, hw]; omega))).trans ?_
    exact Fault.bind_ok (Buffer.write_ok (by omega))
  · -- The fifth byte is the one that the rules leave in the copy.
    have hinside := Buffer.getElem?_overwrite_inside pbBuffer 0
      ((w.newBuffer.drop 0).take (lc.toUInt32 + offsetCdata).toNat) (i := 4) (Nat.zero_le _) (by omega)
    rw [Nat.zero_add] at hinside
    have hactions := actionInside_firedActions hsound
    have hbyte : w.newBuffer[4]? = some (written (firedActions app inputApdu) lcElem lc) := by
      rw [hwdef, afterRules, foldl_runRule]
      dsimp only
      rw [← firedActions, getElem?_foldl_act (by decide) _ hactions, getElem?_copied (by omega) hmem, hlc]
      rfl
    rw [hinside, List.getElem?_take_of_lt (by rw [hn]; omega), List.drop_zero, hbyte]

/-- The forwarded length follows the rewritten length byte exactly if the rules
are evaluated without a fault and leave that byte as it was. -/
theorem lengthFollowsLc_iff (hactive : app.rulesActive = true) (hlc : pbBuffer[4]? = some lc)
    (hdata : lc.toNat + 5 ≤ pcbLength.toNat) (hmax : pcbLength.toNat ≤ maxApduLength)
    (hmem : pcbLength.toNat ≤ pbBuffer.length)
    (hfires : ∃ rule ∈ app.rulesList, Fires app inputApdu rule) :
    LengthFollowsLc app newBuffer pbBuffer pcbLength ↔
      (∀ rule ∈ app.rulesList, Sound app inputApdu rule) ∧
        written (firedActions app inputApdu) lcElem lc = lc := by
  constructor
  · rintro ⟨apdu, n, lc', hrun, hbyte, hn⟩
    have hsound : ∀ rule ∈ app.rulesList, Sound app inputApdu rule := by
      by_contra hunsound
      obtain ⟨e, he⟩ := checked_applyRule.loop.fail
        ⟨copied newBuffer pbBuffer pcbLength, pcbLength, false⟩ _ (length_copied hmax) hunsound
      rw [applyRules_eq hactive hmax hmem, Fault.bind_error he] at hrun
      cases hrun
    obtain ⟨apdu', hrun', hbyte'⟩ :=
      applyRules_input_ok newBuffer hactive hlc hdata hmax hmem hfires hsound
    rw [hrun] at hrun'
    cases hrun'
    rw [hbyte] at hbyte'
    have hsame : lc' = lc := UInt8.toUInt32_inj.mp ((UInt32.add_left_inj _).mp hn).symm
    exact ⟨hsound, (Option.some.inj hbyte').symm.trans hsame⟩
  · rintro ⟨hsound, hsame⟩
    obtain ⟨apdu, hrun, hbyte⟩ :=
      applyRules_input_ok newBuffer hactive hlc hdata hmax hmem hfires hsound
    exact ⟨apdu, _, lc, hrun, by rw [hbyte, hsame], rfl⟩

/-- A command with four bytes of data. -/
def shortCommand : List UInt8 := [0x00, 0xA4, 0x04, 0x00, 0x04, 0x01, 0x02, 0x03, 0x04]

/-- The class byte of the current command is compared, and one byte changed. -/
def changing (element : ℤ) (value : UInt8) : WinscardApp where
  rulesActive := true
  rulesList := [{ ApduRule.initial with
    usage := 1
    matchRules := [⟨true, 0, inputApdu, 0, 0x00⟩]
    actionRules := [⟨true, 0, inputApdu, element, value⟩] }]
  apduInList := [ApduBuffer.padded shortCommand (by decide)]
  apduOutList := []

theorem sound_changing (element : ℤ) (value : UInt8) (h : 0 ≤ element ∧ element < maxApduLength) :
    ∀ rule ∈ (changing element value).rulesList, Sound (changing element value) inputApdu rule := by
  intro rule hrule hsel
  obtain rfl := List.mem_singleton.mp hrule
  refine ⟨⟨⟨by decide, by decide, ?_⟩, fun _ => trivial⟩, fun _ => ⟨fun r hr _ => ?_, Or.inl (Int.le_refl 0)⟩⟩
  · show (0 : ℤ) ≤ (1 : ℕ)
    decide
  · obtain rfl := List.mem_singleton.mp hr
    exact h

theorem fires_changing (element : ℤ) (value : UInt8) :
    ∃ rule ∈ (changing element value).rulesList, Fires (changing element value) inputApdu rule := by
  refine ⟨_, List.mem_singleton.mpr rfl, ⟨rfl, rfl⟩, fun r hr => ?_⟩
  obtain rfl := List.mem_singleton.mp hr
  rfl

/-- A rule that changes the instruction keeps the length right. -/
theorem lengthFollowsLc_instruction :
    LengthFollowsLc (changing 1 0xCA) ApduBuffer.zero shortCommand 9 :=
  have hlc : shortCommand[4]? = some 0x04 := rfl
  (lengthFollowsLc_iff rfl hlc (by decide) (by decide) (by decide)
    (fires_changing 1 0xCA)).mpr ⟨sound_changing 1 0xCA (by decide), by decide +kernel⟩

/-- A rule that shortens the data does not shorten the forwarded APDU. -/
theorem not_lengthFollowsLc_shortened :
    (∃ rule ∈ (changing lcElem 0x02).rulesList, Fires (changing lcElem 0x02) inputApdu rule) ∧
      ¬ LengthFollowsLc (changing lcElem 0x02) ApduBuffer.zero shortCommand 9 := by
  refine ⟨fires_changing lcElem 0x02, ?_⟩
  have hrun : (changing lcElem 0x02).applyRules ApduBuffer.zero shortCommand 9 inputApdu =
      .ok ([0x00, 0xA4, 0x04, 0x00, 0x02, 0x01, 0x02, 0x03, 0x04], 9) := by
    decide +kernel
  rintro ⟨apdu, n, lc, h, hbyte, hn⟩
  rw [hrun] at h
  cases h
  cases hbyte
  exact absurd hn (by decide)

end ApduPlay.RuleLengths
