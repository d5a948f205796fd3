import ApduPlay.RuleEvaluation
import ApduPlay.Transmit

/-!
# Where the bytes of a rewritten APDU come from

Only the original length is copied into the local buffer, but the new length
is taken from a byte of the original APDU or from a rule. What then lies
between the two lengths was written by a rule or by nobody.
-/

namespace ApduPlay.SuppliedBytes

open ApduRules CheckedSteps RuleEvaluation Transmit

variable {app : WinscardApp} {direction : ℤ} {newBuffer : ApduBuffer} {pbBuffer : List UInt8}
  {pcbLength : UInt32}

/-- The caller supplied the byte at this index. -/
def CallerByte (pbBuffer : List UInt8) (pcbLength : UInt32) (i : ℕ) (b : UInt8) : Prop :=
  i < pcbLength.toNat ∧ pbBuffer[i]? = some b

/-- The byte is the value of a change that an applied rule makes at this index. -/
def RuleByte (app : WinscardApp) (direction : ℤ) (i : ℕ) (b : UInt8) : Prop :=
  ∃ r ∈ firedActions app direction, r.valid = true ∧ r.element = i ∧ r.value = b

/-- Every byte that is left comes from the caller or from a rule. -/
def SuppliesBytes (app : WinscardApp) (newBuffer : ApduBuffer) (pbBuffer : List UInt8)
    (pcbLength : UInt32) (direction : ℤ) : Prop :=
  ∀ apdu n, app.applyRules newBuffer pbBuffer pcbLength direction = .ok (apdu, n) →
    ∀ i < n.toNat, ∃ b, apdu[i]? = some b ∧
      (CallerByte pbBuffer pcbLength i b ∨ RuleByte app direction i b)

/-- Some rule is applied. -/
def anyFires (app : WinscardApp) (direction : ℤ) : Bool :=
  app.rulesList.any fun rule => decide (Fires app direction rule)

/-- The length that a series of changes leaves. -/
def lengthWritten (actions : List ApduSingleRule) (n : UInt32) : UInt32 :=
  actions.foldl (fun n r => if r.valid = true ∧ r.element = leElem then r.value.toUInt32 else n) n

/-- The new length: five more than the fifth byte of the original APDU if an
input rule is applied, and otherwise the expected length that was set last. -/
def lengthAfter (app : WinscardApp) (pbBuffer : List UInt8) (pcbLength : UInt32) (direction : ℤ) : UInt32 :=
  if direction = inputApdu ∧ anyFires app direction = true then
    (pbBuffer[4]?.getD 0).toUInt32 + offsetCdata
  else lengthWritten (firedActions app direction) pcbLength

/-- The rules are evaluated without a fault, and the caller's memory holds the
length byte and the new APDU. -/
def Completes (app : WinscardApp) (pbBuffer : List UInt8) (pcbLength : UInt32) (direction : ℤ) : Prop :=
  (∀ rule ∈ app.rulesList, Sound app direction rule) ∧
    (direction = inputApdu ∧ anyFires app direction = true → 4 < pbBuffer.length) ∧
    (lengthAfter app pbBuffer pcbLength direction).toNat ≤ pbBuffer.length

/-- Every index behind the original APDU and below the new length is written
by an applied rule. -/
def CoversGrowth (app : WinscardApp) (pbBuffer : List UInt8) (pcbLength : UInt32) (direction : ℤ) : Prop :=
  ∀ i, pcbLength.toNat ≤ i → i < (lengthAfter app pbBuffer pcbLength direction).toNat →
    ∃ r ∈ firedActions app direction, r.valid = true ∧ r.element = i

theorem foldl_act_pcbLength (actions : List ApduSingleRule) (w : Rewrite) :
    (actions.foldl act w).pcbLength = lengthWritten actions w.pcbLength := by
  induction actions generalizing w with
  | nil => rfl
  | cons r rest ih =>
    have hstep : (act w r).pcbLength =
        if r.valid = true ∧ r.element = leElem then r.value.toUInt32 else w.pcbLength := by
      by_cases hv : r.valid = true <;> by_cases hle : r.element = leElem <;> simp [act, hv, hle]
    rw [List.foldl_cons, ih, hstep]
    rfl

theorem afterRules_bRuleFound :
    (afterRules app newBuffer pbBuffer pcbLength direction).bRuleFound = anyFires app direction := by
  rw [afterRules, foldl_runRule]
  exact Bool.false_or _

theorem afterRules_pcbLength :
    (afterRules app newBuffer pbBuffer pcbLength direction).pcbLength =
      lengthWritten (firedActions app direction) pcbLength := by
  rw [afterRules, foldl_runRule]
  exact foldl_act_pcbLength _ _

/-- A length that was set is the value of a byte. -/
theorem lengthWritten_le {m : ℕ} (actions : List ApduSingleRule) {n : UInt32} (hm : 255 ≤ m)
    (hn : n.toNat ≤ m) :
    (lengthWritten actions n).toNat ≤ m := by
  induction actions generalizing n with
  | nil => exact hn
  | cons r rest ih =>
    refine ih (n := if r.valid = true ∧ r.element = leElem then r.value.toUInt32 else n) ?_
    have hbyte := r.value.toNat_lt
    split_ifs
    · rw [UInt8.toNat_toUInt32]
      omega
    · exact hn

/-- A new length that is larger than the original one is at most 260. -/
theorem lengthAfter_le {m : ℕ} (hm : 260 ≤ m) (hn : pcbLength.toNat ≤ m) :
    (lengthAfter app pbBuffer pcbLength direction).toNat ≤ m := by
  unfold lengthAfter
  split_ifs
  · rw [toNat_correctedLength]
    have hb := (pbBuffer[4]?.getD 0).toNat_lt
    omega
  · exact lengthWritten_le _ (by omega) hn

/-- The correction computes the new length while the length byte is there. -/
theorem correctLength_afterRules :
    correctLength pbBuffer direction (afterRules app newBuffer pbBuffer pcbLength direction) =
      if direction = inputApdu ∧ anyFires app direction = true → 4 < pbBuffer.length then
        .ok (lengthAfter app pbBuffer pcbLength direction)
      else .error .outOfBounds := by
  unfold correctLength lengthAfter
  rw [afterRules_bRuleFound, afterRules_pcbLength]
  by_cases hcorrect : direction = inputApdu ∧ anyFires app direction = true
  · rw [if_pos hcorrect, if_pos hcorrect]
    by_cases hlc : 4 < pbBuffer.length
    · have hbyte : pbBuffer[4]? = some pbBuffer[4] := List.getElem?_eq_getElem hlc
      rw [if_pos fun _ => hlc, Fault.bind_ok (byteAt_ok (by decide) hbyte), hbyte]
      rfl
    · have hout : ¬ ((0 : ℤ) ≤ 4 ∧ (4 : ℤ) < pbBuffer.length) := by omega
      rw [if_neg fun h => hlc (h hcorrect), Fault.bind_error (byteAt_error hout)]
  · rw [if_neg hcorrect, if_neg hcorrect, if_pos fun h => absurd h hcorrect]

/-- When the function ends, and with what. -/
theorem applyRules_eq_ok_iff (hactive : app.rulesActive = true) (hmax : pcbLength.toNat ≤ maxApduLength)
    (hmem : pcbLength.toNat ≤ pbBuffer.length) {apdu : List UInt8} {n : UInt32} :
    app.applyRules newBuffer pbBuffer pcbLength direction = .ok (apdu, n) ↔
      Completes app pbBuffer pcbLength direction ∧
        n = lengthAfter app pbBuffer pcbLength direction ∧
        apdu = Buffer.overwrite pbBuffer 0
          ((afterRules app newBuffer pbBuffer pcbLength direction).newBuffer.take n.toNat) := by
  have hfull : FullBuffer ⟨copied newBuffer pbBuffer pcbLength, pcbLength, false⟩ := length_copied hmax
  rw [applyRules_eq hactive hmax hmem]
  by_cases hsound : ∀ rule ∈ app.rulesList, Sound app direction rule
  · have hw : (afterRules app newBuffer pbBuffer pcbLength direction).newBuffer.length = maxApduLength :=
      checked_applyRule.loop.keep _ _ hfull hsound
    rw [Fault.bind_ok (checked_applyRule.loop.ok _ _ hfull hsound), ← afterRules, correctLength_afterRules]
    by_cases hlc : direction = inputApdu ∧ anyFires app direction = true → 4 < pbBuffer.length
    · have hroom : 0 + (lengthAfter app pbBuffer pcbLength direction).toNat ≤
          (afterRules app newBuffer pbBuffer pcbLength direction).newBuffer.length := by
        rw [hw, Nat.zero_add]
        exact lengthAfter_le (by decide) hmax
      have hread := Buffer.read_ok (e := Fault.outOfBounds) hroom
      have htake : ((afterRules app newBuffer pbBuffer pcbLength direction).newBuffer.take
          (lengthAfter app pbBuffer pcbLength direction).toNat).length =
            (lengthAfter app pbBuffer pcbLength direction).toNat :=
        List.length_take_of_le (by rw [hw]; exact lengthAfter_le (by decide) hmax)
      rw [if_pos hlc, Fault.bind_ok rfl, Fault.bind_ok hread, List.drop_zero]
      by_cases hfits : (lengthAfter app pbBuffer pcbLength direction).toNat ≤ pbBuffer.length
      · rw [Fault.bind_ok (Buffer.write_ok (by omega))]
        constructor
        · intro h
          cases h
          exact ⟨⟨hsound, hlc, hfits⟩, rfl, rfl⟩
        · rintro ⟨-, rfl, rfl⟩
          rfl
      · rw [Fault.bind_error (Buffer.write_error (by omega))]
        exact iff_of_false (fun h => by cases h) fun h => hfits h.1.2.2
    · rw [if_neg hlc]
      refine iff_of_false (fun h => by cases h) ?_
      exact fun h => hlc h.1.2.1
  · obtain ⟨e, he⟩ := checked_applyRule.loop.fail _ _ hfull hsound
    rw [Fault.bind_error he]
    refine iff_of_false (fun h => by cases h) ?_
    exact fun h => hsound h.1.1

/-- A byte after some changes is the old one or the value of one of them. -/
theorem written_cases (actions : List ApduSingleRule) (element : ℤ) (b : UInt8) :
    ((∀ r ∈ actions, ¬ (r.valid = true ∧ r.element = element)) ∧ written actions element b = b) ∨
      ∃ r ∈ actions, r.valid = true ∧ r.element = element ∧ r.value = written actions element b := by
  induction actions generalizing b with
  | nil => exact Or.inl ⟨List.forall_mem_nil _, rfl⟩
  | cons r rest ih =>
    have hstep : written (r :: rest) element b =
        written rest element (if r.valid = true ∧ r.element = element then r.value else b) := rfl
    rw [hstep]
    obtain ⟨hnone, hsame⟩ | ⟨r', hr', hchange⟩ :=
      ih (if r.valid = true ∧ r.element = element then r.value else b)
    · by_cases hr : r.valid = true ∧ r.element = element
      · rw [if_pos hr] at hsame ⊢
        exact Or.inr ⟨r, List.mem_cons_self, hr.1, hr.2, hsame.symm⟩
      · rw [if_neg hr] at hsame ⊢
        exact Or.inl ⟨List.forall_mem_cons.mpr ⟨hr, hnone⟩, hsame⟩
    · exact Or.inr ⟨r', List.mem_cons_of_mem r hr', hchange⟩

/-- The place that stands for the expected length is never written. -/
theorem getElem?_foldl_act_leElem (actions : List ApduSingleRule)
    (hactions : ∀ r ∈ actions, ActionInside r) (w : Rewrite) :
    (actions.foldl act w).newBuffer[299]? = w.newBuffer[299]? := by
  induction actions generalizing w with
  | nil => rfl
  | cons r rest ih =>
    obtain ⟨hr, hrest⟩ := List.forall_mem_cons.mp hactions
    rw [List.foldl_cons, ih hrest]
    by_cases hv : r.valid = true
    · by_cases hle : r.element = leElem
      · simp [act, hv, hle]
      · have hlow := (hr hv).1
        have hne : r.element.toNat ≠ 299 := by
          unfold leElem at hle
          omega
        simp [act, hv, hle, List.getElem?_set_ne hne]
    · simp [act, hv]

/-- A byte of the local buffer after all rules. -/
theorem getElem?_afterRules (hsound : ∀ rule ∈ app.rulesList, Sound app direction rule) {i : ℕ}
    (hi : (i : ℤ) ≠ leElem) :
    (afterRules app newBuffer pbBuffer pcbLength direction).newBuffer[i]? =
      (copied newBuffer pbBuffer pcbLength)[i]?.map (written (firedActions app direction) i) := by
  rw [afterRules, foldl_runRule]
  exact getElem?_foldl_act hi _ (actionInside_firedActions hsound) _

/-- The caller's memory begins with the new APDU. -/
theorem getElem?_newApdu (hmax : pcbLength.toNat ≤ maxApduLength)
    (hcomp : Completes app pbBuffer pcbLength direction) {i : ℕ}
    (hi : i < (lengthAfter app pbBuffer pcbLength direction).toNat) :
    (Buffer.overwrite pbBuffer 0 ((afterRules app newBuffer pbBuffer pcbLength direction).newBuffer.take
        (lengthAfter app pbBuffer pcbLength direction).toNat))[i]? =
      (afterRules app newBuffer pbBuffer pcbLength direction).newBuffer[i]? := by
  have hw : (afterRules app newBuffer pbBuffer pcbLength direction).newBuffer.length = maxApduLength :=
    checked_applyRule.loop.keep _ _ (length_copied hmax) hcomp.1
  have hle : (lengthAfter app pbBuffer pcbLength direction).toNat ≤ maxApduLength :=
    lengthAfter_le (by decide) hmax
  have hinside := Buffer.getElem?_overwrite_inside pbBuffer 0
    ((afterRules app newBuffer pbBuffer pcbLength direction).newBuffer.take
      (lengthAfter app pbBuffer pcbLength direction).toNat) (i := i) (Nat.zero_le _)
    (by rw [List.length_take_of_le (by omega)]; exact hi)
  rw [Nat.zero_add] at hinside
  rw [hinside, List.getElem?_take_of_lt hi]

/-- Below the original length every byte comes from the caller or from a rule,
and above it from a rule if one writes there. -/
theorem newApdu_supplied (hmax : pcbLength.toNat ≤ maxApduLength) (hmem : pcbLength.toNat ≤ pbBuffer.length)
    (hsound : ∀ rule ∈ app.rulesList, Sound app direction rule) {i : ℕ} (hi : i < maxApduLength)
    (hcover : pcbLength.toNat ≤ i → (i : ℤ) ≠ leElem ∧
      ∃ r ∈ firedActions app direction, r.valid = true ∧ r.element = i) :
    ∃ b, (afterRules app newBuffer pbBuffer pcbLength direction).newBuffer[i]? = some b ∧
      (CallerByte pbBuffer pcbLength i b ∨ RuleByte app direction i b) := by
  have hlen : (copied newBuffer pbBuffer pcbLength).length = maxApduLength := length_copied hmax
  have hcopied : ∃ c, (copied newBuffer pbBuffer pcbLength)[i]? = some c :=
    ⟨_, List.getElem?_eq_getElem (by rw [hlen]; exact hi)⟩
  obtain ⟨c, hc⟩ := hcopied
  have hcaller : i < pcbLength.toNat → CallerByte pbBuffer pcbLength i c :=
    fun hlow => ⟨hlow, by rw [← hc, getElem?_copied hlow hmem]⟩
  by_cases hle : (i : ℤ) = leElem
  · have hlow : i < pcbLength.toNat := by
      by_contra hhigh
      exact (hcover (Nat.not_lt.mp hhigh)).1 hle
    have hplace : i = 299 := by
      unfold leElem at hle
      omega
    refine ⟨c, ?_, Or.inl (hcaller hlow)⟩
    rw [afterRules, foldl_runRule, ← hc, hplace]
    exact getElem?_foldl_act_leElem _ (actionInside_firedActions hsound) _
  · refine ⟨written (firedActions app direction) i c, ?_, ?_⟩
    · rw [getElem?_afterRules hsound hle, hc]
      rfl
    · obtain ⟨hnone, hsame⟩ | hrule := written_cases (firedActions app direction) i c
      · have hlow : i < pcbLength.toNat := by
          by_contra hhigh
          obtain ⟨r, hr, hchange⟩ := (hcover (Nat.not_lt.mp hhigh)).2
          exact hnone r hr hchange
        rw [hsame]
        exact Or.inl (hcaller hlow)
      · exact Or.inr hrule

/-- Unless rules are active nothing changes. -/
theorem suppliesBytes_inactive (hactive : app.rulesActive = false)
    (hmem : pcbLength.toNat ≤ pbBuffer.length) :
    SuppliesBytes app newBuffer pbBuffer pcbLength direction := by
  intro apdu n hrun i hi
  rw [WinscardApp.applyRules, if_neg (by rw [hactive]; exact Bool.false_ne_true)] at hrun
  cases hrun
  have hbyte : pbBuffer[i]? = some pbBuffer[i] := List.getElem?_eq_getElem (Nat.lt_of_lt_of_le hi hmem)
  exact ⟨_, hbyte, Or.inl ⟨hi, hbyte⟩⟩

/-- Every byte that is left comes from the caller or from a rule exactly if
rules write everything by which the APDU grows, whenever the function ends. -/
theorem suppliesBytes_iff (hmax : pcbLength.toNat ≤ maxApduLength)
    (hmem : pcbLength.toNat ≤ pbBuffer.length) :
    SuppliesBytes app newBuffer pbBuffer pcbLength direction ↔
      (app.rulesActive = true → Completes app pbBuffer pcbLength direction →
        CoversGrowth app pbBuffer pcbLength direction) := by
  constructor
  · intro h hactive hcomp i hlow hhigh
    obtain ⟨b, -, hcaller | hrule⟩ :=
      h _ _ ((applyRules_eq_ok_iff hactive hmax hmem).mpr ⟨hcomp, rfl, rfl⟩) i hhigh
    · exact absurd hcaller.1 (Nat.not_lt.mpr hlow)
    · obtain ⟨r, hr, hv, he, -⟩ := hrule
      exact ⟨r, hr, hv, he⟩
  · intro hcover
    cases hactive : app.rulesActive with
    | false => exact suppliesBytes_inactive hactive hmem
    | true =>
      intro apdu n hrun i hi
      obtain ⟨hcomp, rfl, rfl⟩ := (applyRules_eq_ok_iff hactive hmax hmem).mp hrun
      rw [getElem?_newApdu hmax hcomp hi]
      have hroom : (lengthAfter app pbBuffer pcbLength direction).toNat ≤ maxApduLength :=
        lengthAfter_le (by decide) hmax
      refine newApdu_supplied hmax hmem hcomp.1 (Nat.lt_of_lt_of_le hi hroom) fun hlow => ⟨?_, ?_⟩
      · intro hle
        have hshort : (lengthAfter app pbBuffer pcbLength direction).toNat ≤ i :=
          lengthAfter_le (by unfold leElem at hle; omega) hlow
        exact absurd hi (Nat.not_lt.mpr hshort)
      · exact hcover hactive hcomp i hlow hi

/-- Rules and history when the incoming rules are applied. -/
def afterIncoming {σ : Type} (v : Exchange σ) (saved : ApduBuffer) : WinscardApp :=
  { v.app with apduInList := saved :: v.app.apduInList }

/-- Rules and history when the outgoing rules are applied. -/
def afterOutgoing {σ : Type} (v : Exchange σ) (saved : ApduBuffer) : WinscardApp :=
  { v.app with apduOutList := saved :: v.app.apduOutList }

/-- A command that asks for 16 bytes, in a buffer of the library. -/
def readBinary : ApduBuffer := ApduBuffer.padded [0x00, 0xB0, 0x00, 0x00, 0x10] (by decide)

/-- Every command with this fifth byte gets another first parameter. -/
def redirecting (length : UInt8) (apduIn : ApduBuffer) : WinscardApp where
  rulesActive := true
  rulesList := [{ ApduRule.initial with
    usage := 1
    matchRules := [⟨true, 0, inputApdu, 4, length⟩]
    actionRules := [⟨true, 0, inputApdu, 2, 0x01⟩] }]
  apduInList := [apduIn]
  apduOutList := []

/-- A command with two bytes of data keeps its length. -/
theorem suppliesBytes_data :
    SuppliesBytes (redirecting 0x02 (ApduBuffer.padded [0x00, 0xD6, 0x00, 0x00, 0x02, 0x0A, 0x0B]
      (by decide)))
      ApduBuffer.zero [0x00, 0xD6, 0x00, 0x00, 0x02, 0x0A, 0x0B] 7 inputApdu :=
  (suppliesBytes_iff (by decide) (by decide)).mpr fun _ _ i hlow hhigh =>
    absurd (Nat.lt_of_le_of_lt hlow hhigh) (by decide +kernel)

/-- The expected length of a command without data becomes the length of data
that nobody supplied. -/
theorem not_suppliesBytes_readBinary :
    ¬ SuppliesBytes (redirecting 0x10 readBinary) ApduBuffer.zero readBinary.buffer 5 inputApdu := by
  intro h
  have hrun : (redirecting 0x10 readBinary).applyRules ApduBuffer.zero readBinary.buffer 5 inputApdu =
      .ok (readBinary.buffer.set 2 0x01, 21) := by
    decide +kernel
  obtain ⟨b, -, hcaller | ⟨r, hr, -, hplace, -⟩⟩ := h _ _ hrun 5 (by decide)
  · exact absurd hcaller.1 (by decide)
  · have hfired : firedActions (redirecting 0x10 readBinary) inputApdu = [⟨true, 0, inputApdu, 2, 0x01⟩] := by
      decide +kernel
    rw [hfired] at hr
    obtain rfl := List.mem_singleton.mp hr
    exact absurd hplace (by decide)

end ApduPlay.SuppliedBytes
