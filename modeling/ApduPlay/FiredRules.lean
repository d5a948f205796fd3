import Mathlib.Data.List.Induction
import ApduPlay.SuppliedBytes

/-!
# What rules are meant to do

A reference for `ApplyRules`: the rules that apply are found by looking at the
history alone, and of all their changes the last one to an index counts. The
function is written once more so that it also notes the rules that it applies.
-/

namespace ApduPlay.FiredRules

open ApduRules CheckedSteps RuleEvaluation SuppliedBytes

/-- One rule; it is noted when it is applied. -/
def applyRuleNoting (app : WinscardApp) (direction : ℤ) (s : Rewrite × List ApduRule) (rule : ApduRule) :
    Except Fault (Rewrite × List ApduRule) :=
  if rule.direction = direction ∧ rule.usage = 1 then do
    if ← app.testAllMatch rule.matchRules then
      let w ← rule.actionRules.foldlM applyAction s.1
      sleep rule.msDelay
      return ({ w with bRuleFound := true }, s.2 ++ [rule])
    else return s
  else .ok s

/-- `ApplyRules` with the rules that are applied. -/
def applyRulesNoting (app : WinscardApp) (newBuffer : ApduBuffer) (pbBuffer : List UInt8)
    (pcbLength : UInt32) (direction : ℤ) : Except Fault ((List UInt8 × UInt32) × List ApduRule) :=
  if app.rulesActive then do
    let apdu ← Buffer.read .outOfBounds pbBuffer 0 pcbLength.toNat
    let newBuffer ← Buffer.write .outOfBounds newBuffer.buffer 0 apdu
    let s ← app.rulesList.foldlM (applyRuleNoting app direction) (⟨newBuffer, pcbLength, false⟩, [])
    let pcbLength ← correctLength pbBuffer direction s.1
    let apdu ← Buffer.read .outOfBounds s.1.newBuffer 0 pcbLength.toNat
    let pbBuffer ← Buffer.write .outOfBounds pbBuffer 0 apdu
    return ((pbBuffer, pcbLength), s.2)
  else .ok ((pbBuffer, pcbLength), [])

/-- The element is the index of a byte or stands for the expected length. -/
def InRange (element : ℤ) : Prop := 0 ≤ element ∧ element ≤ 298 ∨ element = leElem

/-- Rules whose elements are in range, whose conditions refer to incoming APDUs
in the history, and whose delays can be used. Loading rules activates them. -/
structure RulesInRange (app : WinscardApp) : Prop where
  /-- Rules are active once there are any. -/
  active : app.rulesList ≠ [] → app.rulesActive = true
  /-- Conditions refer to bytes of recorded commands. -/
  condition : ∀ rule ∈ app.rulesList, ∀ r ∈ rule.matchRules,
    InRange r.element ∧ r.apduDirection = inputApdu ∧ 0 ≤ r.history ∧ r.history < app.apduInList.length
  /-- Changes are in range. -/
  action : ∀ rule ∈ app.rulesList, ∀ r ∈ rule.actionRules, InRange r.element
  /-- No delay is shorter than ten milliseconds. -/
  delay : ∀ rule ∈ app.rulesList, rule.msDelay = 0 ∨ 10 ≤ rule.msDelay

/-- The recorded command has the expected byte. -/
def Matches (app : WinscardApp) (r : ApduSingleRule) : Prop :=
  (app.apduInList[r.history.toNat]?.bind fun apdu => apdu.buffer[r.element.toNat]?) = some r.value

instance (app : WinscardApp) (r : ApduSingleRule) : Decidable (Matches app r) :=
  inferInstanceAs (Decidable (_ = _))

/-- The rule applies to APDUs of this direction with this history. -/
def ShouldFire (app : WinscardApp) (direction : ℤ) (rule : ApduRule) : Prop :=
  rule.usage = 1 ∧ rule.direction = direction ∧ ∀ r ∈ rule.matchRules, Matches app r

instance (app : WinscardApp) (direction : ℤ) (rule : ApduRule) : Decidable (ShouldFire app direction rule) :=
  inferInstanceAs (Decidable (_ ∧ _))

/-- The rules that apply, in their order. -/
def rulesToFire (app : WinscardApp) (direction : ℤ) : List ApduRule :=
  app.rulesList.filter fun rule => decide (ShouldFire app direction rule)

/-- The value of the last valid change to an index. -/
def lastByte (rules : List ApduRule) (i : ℕ) : Option UInt8 :=
  (((rules.flatMap (·.actionRules)).filter fun r =>
    decide (r.valid = true ∧ r.element = (i : ℤ) ∧ r.element ≠ leElem)).getLast?).map (·.value)

/-- The last expected length that a valid change sets. -/
def lastLength (rules : List ApduRule) : Option UInt8 :=
  (((rules.flatMap (·.actionRules)).filter fun r =>
    decide (r.valid = true ∧ r.element = leElem)).getLast?).map (·.value)

/-- The length that is left: input rules correct it from the length byte. -/
def lengthToLeave (app : WinscardApp) (pbBuffer : List UInt8) (pcbLength : UInt32) (direction : ℤ) : UInt32 :=
  if direction = inputApdu ∧ rulesToFire app direction ≠ [] then
    (pbBuffer[4]?.getD 0).toUInt32 + offsetCdata
  else ((lastLength (rulesToFire app direction)).map UInt8.toUInt32).getD pcbLength

/-- A pass over the rules ends unless the caller's memory is too small. The rules
that are noted are those that should be, and from them follow all bytes that
stay in the APDU and its new length. Without them nothing changes. -/
structure MeetsReference (app : WinscardApp) (newBuffer : ApduBuffer) (pbBuffer : List UInt8)
    (pcbLength : UInt32) (direction : ℤ) : Prop where
  /-- When the pass ends. -/
  ends : (∃ result, applyRulesNoting app newBuffer pbBuffer pcbLength direction = .ok result) ↔
    (direction = inputApdu ∧ rulesToFire app direction ≠ [] → 4 < pbBuffer.length) ∧
      (lengthToLeave app pbBuffer pcbLength direction).toNat ≤ pbBuffer.length
  /-- The rules that are applied. -/
  fired : ∀ {result fired},
    applyRulesNoting app newBuffer pbBuffer pcbLength direction = .ok (result, fired) →
    fired = rulesToFire app direction
  /-- The bytes below both lengths. -/
  bytes : ∀ {apdu n fired},
    applyRulesNoting app newBuffer pbBuffer pcbLength direction = .ok ((apdu, n), fired) →
    ∀ i < pcbLength.toNat, i < n.toNat → apdu[i]? = (lastByte fired i).or pbBuffer[i]?
  /-- The length, for outgoing APDUs. -/
  length : ∀ {apdu n fired},
    applyRulesNoting app newBuffer pbBuffer pcbLength direction = .ok ((apdu, n), fired) →
    direction ≠ inputApdu → n = ((lastLength fired).map UInt8.toUInt32).getD pcbLength
  /-- No rule is applied. -/
  idle : ∀ {apdu n}, applyRulesNoting app newBuffer pbBuffer pcbLength direction = .ok ((apdu, n), []) →
    apdu = pbBuffer ∧ n = pcbLength

variable {app : WinscardApp} {direction : ℤ} {newBuffer : ApduBuffer} {pbBuffer : List UInt8}
  {pcbLength : UInt32} {r : ApduSingleRule} {rule : ApduRule}

/-- Noting rules changes nothing else. -/
theorem applyRuleNoting_fst (s : Rewrite × List ApduRule) :
    (applyRuleNoting app direction s rule).map Prod.fst = app.applyRule direction s.1 rule := by
  unfold applyRuleNoting WinscardApp.applyRule
  split_ifs with hsel
  · rw [Fault.map_bind]
    refine congrArg (app.testAllMatch rule.matchRules >>= ·) (funext fun all => ?_)
    cases all with
    | false => rfl
    | true =>
      simp only [if_true, Fault.map_bind]
      rfl
  · rfl

theorem foldlM_applyRuleNoting_fst (rules : List ApduRule) (s : Rewrite × List ApduRule) :
    (rules.foldlM (applyRuleNoting app direction) s).map Prod.fst =
      rules.foldlM (app.applyRule direction) s.1 := by
  induction rules generalizing s with
  | nil => rfl
  | cons rule rest ih =>
    rw [List.foldlM_cons, List.foldlM_cons, Fault.map_bind, ← applyRuleNoting_fst]
    cases applyRuleNoting app direction s rule with
    | error e => rfl
    | ok s' => exact ih s'

/-- The function that notes rules is the function itself. -/
theorem applyRulesNoting_fst (app : WinscardApp) (newBuffer : ApduBuffer) (pbBuffer : List UInt8)
    (pcbLength : UInt32) (direction : ℤ) :
    (applyRulesNoting app newBuffer pbBuffer pcbLength direction).map Prod.fst =
      app.applyRules newBuffer pbBuffer pcbLength direction := by
  unfold applyRulesNoting WinscardApp.applyRules
  split_ifs
  · simp only [Fault.map_bind]
    refine congrArg (Buffer.read _ _ _ _ >>= ·) (funext fun apdu => ?_)
    refine congrArg (Buffer.write _ _ _ _ >>= ·) (funext fun copy => ?_)
    have hloop : (app.rulesList.foldlM (applyRuleNoting app direction) (⟨copy, pcbLength, false⟩, [])).map
        Prod.fst = app.rulesList.foldlM (app.applyRule direction) ⟨copy, pcbLength, false⟩ :=
      foldlM_applyRuleNoting_fst _ _
    rw [← hloop]
    cases app.rulesList.foldlM (applyRuleNoting app direction) (⟨copy, pcbLength, false⟩, []) <;> rfl
  · rfl

/-- A sound rule is noted when it fires. -/
theorem applyRuleNoting_ok {s : Rewrite × List ApduRule} (hs : FullBuffer s.1)
    (hsound : Sound app direction rule) :
    applyRuleNoting app direction s rule =
      .ok (runRule app direction s.1 rule, if Fires app direction rule then s.2 ++ [rule] else s.2) := by
  have hrule := checked_applyRule.ok s.1 rule hs hsound
  unfold applyRuleNoting
  by_cases hsel : rule.direction = direction ∧ rule.usage = 1
  · obtain ⟨heval, hact⟩ := hsound hsel
    rw [if_pos hsel, Fault.bind_ok (testAllMatch_ok heval)]
    by_cases hall : ∀ r ∈ rule.matchRules, Holds app r
    · have hfires : Fires app direction rule := ⟨hsel, hall⟩
      obtain ⟨hinside, hdelay⟩ := hact hall
      rw [if_pos (decide_eq_true hall), if_pos hfires, runRule, if_pos hfires]
      refine (Fault.bind_ok (checked_applyAction.loop.ok s.1 _ hs hinside)).trans ?_
      exact Fault.bind_ok (sleep_ok_iff.mpr hdelay)
    · have hfires : ¬ Fires app direction rule := fun h => hall h.2
      rw [if_neg (by simpa using hall), if_neg hfires, runRule, if_neg hfires]
      rfl
  · have hfires : ¬ Fires app direction rule := fun h => hsel h.1
    rw [if_neg hsel, if_neg hfires, runRule, if_neg hfires]

/-- Sound rules are noted in their order. -/
theorem foldlM_applyRuleNoting_ok (rules : List ApduRule) {s : Rewrite × List ApduRule}
    (hs : FullBuffer s.1) (hsound : ∀ rule ∈ rules, Sound app direction rule) :
    rules.foldlM (applyRuleNoting app direction) s =
      .ok (rules.foldl (runRule app direction) s.1,
        s.2 ++ rules.filter fun rule => decide (Fires app direction rule)) := by
  induction rules generalizing s with
  | nil => simp [pure, Except.pure]
  | cons rule rest ih =>
    obtain ⟨hrule, hrest⟩ := List.forall_mem_cons.mp hsound
    have hkeep : FullBuffer (runRule app direction s.1 rule) := checked_applyRule.keep s.1 rule hs hrule
    rw [List.foldlM_cons, Fault.bind_ok (applyRuleNoting_ok hs hrule), ih hkeep hrest, List.foldl_cons]
    by_cases hfires : Fires app direction rule
    · simp [hfires]
    · simp [hfires]

/-- The function that notes rules, when the rules are sound. -/
theorem applyRulesNoting_eq (hactive : app.rulesActive = true) (hmax : pcbLength.toNat ≤ maxApduLength)
    (hmem : pcbLength.toNat ≤ pbBuffer.length) (hsound : ∀ rule ∈ app.rulesList, Sound app direction rule) :
    applyRulesNoting app newBuffer pbBuffer pcbLength direction =
      (app.applyRules newBuffer pbBuffer pcbLength direction).map fun result =>
        (result, app.rulesList.filter fun rule => decide (Fires app direction rule)) := by
  have hfull : FullBuffer ⟨copied newBuffer pbBuffer pcbLength, pcbLength, false⟩ := length_copied hmax
  have hroom : 0 + ((pbBuffer.drop 0).take pcbLength.toNat).length ≤ newBuffer.buffer.length := by
    rw [newBuffer.length_eq, List.length_take, List.length_drop]
    omega
  rw [applyRules_eq hactive hmax hmem, Fault.bind_ok (checked_applyRule.loop.ok _ _ hfull hsound)]
  simp only [Fault.map_bind]
  rw [applyRulesNoting, if_pos hactive]
  refine (Fault.bind_ok (Buffer.read_ok (by omega))).trans ?_
  refine (Fault.bind_ok (Buffer.write_ok hroom)).trans ?_
  exact Fault.bind_ok (foldlM_applyRuleNoting_ok (s := (_, [])) _ hfull hsound)

/-- The last change that meets a condition is what folding over all of them leaves. -/
theorem foldl_eq_getLast {β : Type} (p : ApduSingleRule → Prop) [DecidablePred p] (f : UInt8 → β)
    (actions : List ApduSingleRule) (b : β) :
    actions.foldl (fun b r => if p r then f r.value else b) b =
      ((((actions.filter fun r => decide (p r)).getLast?).map (·.value)).map f).getD b := by
  induction actions using List.reverseRecOn with
  | nil => rfl
  | append_singleton actions r ih =>
    rw [List.foldl_append, List.filter_append]
    by_cases hr : p r
    · simp [hr]
    · simp [hr, ih]

/-- Conditions in range can be read. -/
theorem RulesInRange.readable (h : RulesInRange app) (hrule : rule ∈ app.rulesList)
    (hr : r ∈ rule.matchRules) : Readable app r := by
  obtain ⟨helement, hdir, hlow, hhigh⟩ := h.condition rule hrule r hr
  unfold InRange leElem at helement
  have hmax : maxApduLength = 300 := rfl
  refine ⟨by omega, by omega, ?_⟩
  rw [if_pos hdir]
  exact Int.le_of_lt hhigh

/-- They hold for exactly the recorded commands that match. -/
theorem RulesInRange.holds_iff (h : RulesInRange app) (hrule : rule ∈ app.rulesList)
    (hr : r ∈ rule.matchRules) : Holds app r ↔ Matches app r := by
  obtain ⟨-, hdir, hlow, hhigh⟩ := h.condition rule hrule r hr
  have hplace : r.history.toNat < app.apduInList.length := by omega
  have hentry : app.apduInList[r.history.toNat]? = some app.apduInList[r.history.toNat] :=
    List.getElem?_eq_getElem hplace
  unfold Holds Matches referredApdu
  rw [if_pos hdir, hentry]
  rfl

/-- In a list of rules in range conditions and changes stay inside the buffers. -/
theorem RulesInRange.sound (h : RulesInRange app) (hrule : rule ∈ app.rulesList) :
    Sound app direction rule := by
  have heval : ∀ rs : List ApduSingleRule, (∀ r ∈ rs, Readable app r) → Evaluable app rs := by
    intro rs hread
    induction rs with
    | nil => trivial
    | cons r rest ih =>
      obtain ⟨hr, hrest⟩ := List.forall_mem_cons.mp hread
      exact ⟨hr, fun _ => ih hrest⟩
  intro _
  refine ⟨heval _ fun r hr => h.readable hrule hr, fun _ => ⟨fun r hr _ => ?_, ?_⟩⟩
  · have helement := h.action rule hrule r hr
    unfold InRange leElem at helement
    have hmax : maxApduLength = 300 := rfl
    omega
  · have hdelay := h.delay rule hrule
    omega

/-- The rules that are applied are those that should be. -/
theorem RulesInRange.filter_fires (h : RulesInRange app) :
    (app.rulesList.filter fun rule => decide (Fires app direction rule)) = rulesToFire app direction := by
  refine List.filter_congr fun rule hrule => decide_eq_decide.mpr ?_
  have hconds : (∀ r ∈ rule.matchRules, Holds app r) ↔ ∀ r ∈ rule.matchRules, Matches app r :=
    forall₂_congr fun r hr => h.holds_iff hrule hr
  unfold Fires ShouldFire
  rw [hconds, and_assoc, and_left_comm]

theorem RulesInRange.firedActions_eq (h : RulesInRange app) :
    firedActions app direction = (rulesToFire app direction).flatMap (·.actionRules) :=
  congrArg (List.flatMap ApduRule.actionRules) h.filter_fires

theorem RulesInRange.anyFires_iff (h : RulesInRange app) :
    anyFires app direction = true ↔ rulesToFire app direction ≠ [] := by
  rw [← h.filter_fires, ← List.length_pos_iff, List.length_pos_iff_exists_mem, anyFires, List.any_eq_true]
  simp only [List.mem_filter]

/-- The length that is left is the one that should be. -/
theorem RulesInRange.lengthAfter_eq (h : RulesInRange app) :
    lengthAfter app pbBuffer pcbLength direction = lengthToLeave app pbBuffer pcbLength direction := by
  unfold lengthAfter lengthToLeave
  simp only [h.anyFires_iff]
  refine if_congr Iff.rfl rfl ?_
  rw [lengthWritten, h.firedActions_eq, foldl_eq_getLast _ UInt8.toUInt32]
  rfl

/-- A byte of the local buffer is the last one written to it, or the original one. -/
theorem RulesInRange.getElem?_afterRules (h : RulesInRange app)
    (hmem : pcbLength.toNat ≤ pbBuffer.length) {i : ℕ} (hi : i < pcbLength.toNat) :
    (afterRules app newBuffer pbBuffer pcbLength direction).newBuffer[i]? =
      (lastByte (rulesToFire app direction) i).or pbBuffer[i]? := by
  have hsound : ∀ rule ∈ app.rulesList, Sound app direction rule := fun rule hrule => h.sound hrule
  have hread : i < pbBuffer.length := by omega
  have hbyte : pbBuffer[i]? = some pbBuffer[i] := List.getElem?_eq_getElem hread
  by_cases hle : (i : ℤ) = leElem
  · -- The place that stands for the expected length is never written.
    have hplace : i = 299 := by
      unfold leElem at hle
      omega
    have hnone : lastByte (rulesToFire app direction) i = none := by
      unfold lastByte
      rw [List.filter_eq_nil_iff.mpr]
      · rfl
      · intro r _
        rw [decide_eq_true_eq, hle]
        exact fun hr => hr.2.2 hr.2.1
    rw [hnone, afterRules, foldl_runRule, Option.none_or, ← getElem?_copied hi hmem, hplace]
    exact getElem?_foldl_act_leElem _ (actionInside_firedActions hsound) _
  · rw [SuppliedBytes.getElem?_afterRules hsound hle, getElem?_copied hi hmem, hbyte, Option.map_some,
      written, h.firedActions_eq, foldl_eq_getLast _ (fun b => b), lastByte]
    have hsame : ∀ r : ApduSingleRule, (r.valid = true ∧ r.element = (i : ℤ)) ↔
        (r.valid = true ∧ r.element = (i : ℤ) ∧ r.element ≠ leElem) :=
      fun r => ⟨fun hr => ⟨hr.1, hr.2, fun he => hle (hr.2.symm.trans he)⟩, fun hr => ⟨hr.1, hr.2.1⟩⟩
    simp only [hsame]
    cases (List.filter _ _).getLast? <;> rfl

/-- What is left when the pass ends. -/
theorem RulesInRange.applyRulesNoting_eq_ok_iff (h : RulesInRange app) (hactive : app.rulesActive = true)
    (hmax : pcbLength.toNat ≤ maxApduLength) (hmem : pcbLength.toNat ≤ pbBuffer.length)
    {apdu : List UInt8} {n : UInt32} {fired : List ApduRule} :
    applyRulesNoting app newBuffer pbBuffer pcbLength direction = .ok ((apdu, n), fired) ↔
      Completes app pbBuffer pcbLength direction ∧ n = lengthToLeave app pbBuffer pcbLength direction ∧
        apdu = Buffer.overwrite pbBuffer 0
          ((afterRules app newBuffer pbBuffer pcbLength direction).newBuffer.take n.toNat) ∧
        fired = rulesToFire app direction := by
  rw [applyRulesNoting_eq hactive hmax hmem fun rule hrule => h.sound hrule, h.filter_fires,
    ← h.lengthAfter_eq]
  constructor
  · intro hrun
    cases hplain : app.applyRules newBuffer pbBuffer pcbLength direction with
    | error e =>
      rw [hplain] at hrun
      cases hrun
    | ok result =>
      rw [hplain] at hrun
      cases hrun
      obtain ⟨hcomp, hn, hapdu⟩ := (applyRules_eq_ok_iff hactive hmax hmem).mp hplain
      exact ⟨hcomp, hn, hapdu, rfl⟩
  · rintro ⟨hcomp, hn, hapdu, rfl⟩
    rw [(applyRules_eq_ok_iff hactive hmax hmem).mpr ⟨hcomp, hn, hapdu⟩]
    rfl

/-- A pass over no rules. -/
theorem meetsReference_none (hnone : app.rulesList = []) (hactive : app.rulesActive = false)
    (hmem : pcbLength.toNat ≤ pbBuffer.length) :
    MeetsReference app newBuffer pbBuffer pcbLength direction := by
  have hfire : rulesToFire app direction = [] := by rw [rulesToFire, hnone, List.filter_nil]
  have hrun : applyRulesNoting app newBuffer pbBuffer pcbLength direction =
      .ok ((pbBuffer, pcbLength), []) := by
    rw [applyRulesNoting, hactive, if_neg Bool.false_ne_true]
  constructor
  · rw [lengthToLeave, hfire, if_neg fun h => h.2 rfl]
    exact iff_of_true ⟨_, hrun⟩ ⟨fun h => absurd rfl h.2, hmem⟩
  · intro result fired h
    cases hrun.symm.trans h
    exact hfire.symm
  · intro apdu n fired h i _ _
    cases hrun.symm.trans h
    rfl
  · intro apdu n fired h _
    cases hrun.symm.trans h
    rfl
  · intro apdu n h
    cases hrun.symm.trans h
    exact ⟨rfl, rfl⟩

/-- Rules in range do what they are meant to do. -/
theorem meetsReference_of_rulesInRange (h : RulesInRange app) (newBuffer : ApduBuffer) (direction : ℤ)
    (hmax : pcbLength.toNat ≤ maxApduLength) (hmem : pcbLength.toNat ≤ pbBuffer.length) :
    MeetsReference app newBuffer pbBuffer pcbLength direction := by
  cases hactive : app.rulesActive with
  | false =>
    have hnone : app.rulesList = [] := by
      by_contra hsome
      exact Bool.false_ne_true (hactive.symm.trans (h.active hsome))
    exact meetsReference_none hnone hactive hmem
  | true =>
    constructor
    · constructor
      · rintro ⟨⟨⟨apdu, n⟩, fired⟩, hrun⟩
        obtain ⟨⟨-, hlc, hfits⟩, -, -, -⟩ := (h.applyRulesNoting_eq_ok_iff hactive hmax hmem).mp hrun
        rw [h.anyFires_iff] at hlc
        rw [h.lengthAfter_eq] at hfits
        exact ⟨hlc, hfits⟩
      · rintro ⟨hlc, hfits⟩
        rw [← h.anyFires_iff] at hlc
        rw [← h.lengthAfter_eq] at hfits
        exact ⟨((_, _), _), (h.applyRulesNoting_eq_ok_iff hactive hmax hmem).mpr
          ⟨⟨fun rule hrule => h.sound hrule, hlc, hfits⟩, rfl, rfl, rfl⟩⟩
    · rintro ⟨apdu, n⟩ fired hrun
      exact ((h.applyRulesNoting_eq_ok_iff hactive hmax hmem).mp hrun).2.2.2
    · intro apdu n fired hrun i hold hnew
      obtain ⟨hcomp, rfl, rfl, rfl⟩ := (h.applyRulesNoting_eq_ok_iff hactive hmax hmem).mp hrun
      rw [← h.lengthAfter_eq] at hnew ⊢
      rw [getElem?_newApdu hmax hcomp hnew]
      exact h.getElem?_afterRules hmem hold
    · intro apdu n fired hrun hdir
      obtain ⟨-, rfl, -, rfl⟩ := (h.applyRulesNoting_eq_ok_iff hactive hmax hmem).mp hrun
      rw [lengthToLeave, if_neg fun hin => hdir hin.1]
    · intro apdu n hrun
      obtain ⟨hcomp, hn, hapdu, hnone⟩ := (h.applyRulesNoting_eq_ok_iff hactive hmax hmem).mp hrun
      have hlen : n = pcbLength := by
        rw [hn, lengthToLeave, ← hnone, if_neg fun hin => hin.2 rfl]
        rfl
      have hidle : ∀ rule ∈ app.rulesList, ¬ Fires app direction rule := by
        intro rule hrule hfires
        have hmem : rule ∈ rulesToFire app direction := by
          rw [← h.filter_fires]
          exact List.mem_filter.mpr ⟨hrule, decide_eq_true hfires⟩
        rw [← hnone] at hmem
        exact List.not_mem_nil hmem
      rw [hapdu, afterRules_idle hidle, hlen]
      exact ⟨overwrite_copied hmem, rfl⟩

/-- The rule of a command that asks for 16 bytes is in range, fires, and does
what it is meant to do. -/
theorem meetsReference_readBinary :
    rulesToFire (redirecting 0x10 readBinary) inputApdu ≠ [] ∧
      MeetsReference (redirecting 0x10 readBinary) ApduBuffer.zero readBinary.buffer 5 inputApdu := by
  have hrange : RulesInRange (redirecting 0x10 readBinary) := by
    refine ⟨fun _ => rfl, fun rule hrule r hr => ?_, fun rule hrule r hr => ?_, fun rule hrule => ?_⟩ <;>
      obtain rfl := List.mem_singleton.mp hrule
    · obtain rfl := List.mem_singleton.mp hr
      exact ⟨Or.inl (by decide), rfl, by decide, by decide⟩
    · obtain rfl := List.mem_singleton.mp hr
      exact Or.inl (by decide)
    · exact Or.inl rfl
  have hmem : (5 : UInt32).toNat ≤ readBinary.buffer.length := by
    rw [readBinary.length_eq]
    decide
  exact ⟨by decide +kernel, meetsReference_of_rulesInRange hrange _ _ (by decide) hmem⟩

end ApduPlay.FiredRules
