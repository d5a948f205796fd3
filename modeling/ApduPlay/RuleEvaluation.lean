import ApduPlay.HistoryLookup
import ApduPlay.Library.CheckedSteps

/-!
# What rules compute

When the evaluation of rules stays inside its buffers, and what it then does
to the bytes and the length of an APDU.
-/

namespace ApduPlay.RuleEvaluation

open ApduRules CheckedSteps
open HistoryLookup (getApduFromHistory_in getApduFromHistory_out testMatch_eq)

variable {app : WinscardApp} {direction : ℤ} {w : Rewrite} {r : ApduSingleRule} {rule : ApduRule}

/-- The APDU that a condition looks at, zeroes behind the end of the history. -/
def referredApdu (app : WinscardApp) (r : ApduSingleRule) : List UInt8 :=
  ((if r.apduDirection = inputApdu then app.apduInList else app.apduOutList)[r.history.toNat]?.getD
    ApduBuffer.zero).buffer

/-- The byte that a condition looks at can be read. -/
def Readable (app : WinscardApp) (r : ApduSingleRule) : Prop :=
  0 ≤ r.element ∧ r.element < maxApduLength ∧
    if r.apduDirection = inputApdu then r.history ≤ app.apduInList.length
    else r.history ≤ 0 ∧ app.apduOutList ≠ []

/-- The byte has the expected value. -/
def Holds (app : WinscardApp) (r : ApduSingleRule) : Prop :=
  (referredApdu app r)[r.element.toNat]? = some r.value

instance : Decidable (Holds app r) :=
  inferInstanceAs (Decidable (_ = _))

/-- All conditions are readable up to the first one that does not hold. -/
def Evaluable (app : WinscardApp) : List ApduSingleRule → Prop
  | [] => True
  | r :: rest => Readable app r ∧ (Holds app r → Evaluable app rest)

/-- The rule is applied. -/
def Fires (app : WinscardApp) (direction : ℤ) (rule : ApduRule) : Prop :=
  (rule.direction = direction ∧ rule.usage = 1) ∧ ∀ r ∈ rule.matchRules, Holds app r

instance : Decidable (Fires app direction rule) :=
  inferInstanceAs (Decidable (_ ∧ _))

/-- A change stays inside the buffer. -/
def ActionInside (r : ApduSingleRule) : Prop :=
  r.valid = true → 0 ≤ r.element ∧ r.element < maxApduLength

/-- The rule is evaluated without a fault. -/
def Sound (app : WinscardApp) (direction : ℤ) (rule : ApduRule) : Prop :=
  rule.direction = direction ∧ rule.usage = 1 → Evaluable app rule.matchRules ∧
    ((∀ r ∈ rule.matchRules, Holds app r) →
      (∀ r ∈ rule.actionRules, ActionInside r) ∧ (rule.msDelay ≤ 0 ∨ 10 ≤ rule.msDelay))

/-- What a change does. -/
def act (w : Rewrite) (r : ApduSingleRule) : Rewrite :=
  if r.valid then
    if r.element = leElem then { w with pcbLength := r.value.toUInt32 }
    else { w with newBuffer := w.newBuffer.set r.element.toNat r.value }
  else w

/-- What a rule does. -/
def runRule (app : WinscardApp) (direction : ℤ) (w : Rewrite) (rule : ApduRule) : Rewrite :=
  if Fires app direction rule then { rule.actionRules.foldl act w with bRuleFound := true } else w

/-- The changes of all rules that are applied. -/
def firedActions (app : WinscardApp) (direction : ℤ) : List ApduSingleRule :=
  (app.rulesList.filter fun rule => decide (Fires app direction rule)).flatMap (·.actionRules)

/-- A byte after a series of changes. -/
def written (actions : List ApduSingleRule) (element : ℤ) (b : UInt8) : UInt8 :=
  actions.foldl (fun b r => if r.valid = true ∧ r.element = element then r.value else b) b

/-- The APDU of a condition fills a buffer. -/
theorem length_referredApdu (app : WinscardApp) (r : ApduSingleRule) :
    (referredApdu app r).length = maxApduLength :=
  ApduBuffer.length_eq _

/-- A byte inside a buffer is read. -/
theorem byteAt_ok {buffer : List UInt8} {element : ℤ} {b : UInt8} (h : 0 ≤ element)
    (hb : buffer[element.toNat]? = some b) : byteAt buffer element = .ok b := by
  rw [byteAt, if_neg (Int.not_lt.mpr h), hb]

/-- Outside there is none. -/
theorem byteAt_error {buffer : List UInt8} {element : ℤ} (h : ¬ (0 ≤ element ∧ element < buffer.length)) :
    byteAt buffer element = .error .outOfBounds := by
  unfold byteAt
  split_ifs with hneg
  · rfl
  · have hnone : buffer[element.toNat]? = none := List.getElem?_eq_none (by omega)
    rw [hnone]

/-- A readable condition is tested. -/
theorem testMatch_ok (h : Readable app r) : app.testMatch r = .ok (decide (Holds app r)) := by
  obtain ⟨hlow, hhigh, hhistory⟩ := h
  obtain ⟨found, hfound, hapdu⟩ :
      ∃ found, HistoryLookup.getApduFromHistory app ApduBuffer.zero r.history r.apduDirection = .ok found ∧
        found.2.buffer = referredApdu app r := by
    unfold referredApdu
    split_ifs at hhistory ⊢ with hdir
    · rw [getApduFromHistory_in _ hdir, if_pos (by omega)]
      refine ⟨_, rfl, ?_⟩
      cases app.apduInList[r.history.toNat]? <;> rfl
    · obtain ⟨apdu, rest, hlist⟩ := List.exists_cons_of_ne_nil hhistory.2
      have hzero : r.history.toNat = 0 := by omega
      rw [getApduFromHistory_out _ hdir, if_neg (by omega), hlist, hzero]
      exact ⟨(statOk, apdu), rfl, rfl⟩
  obtain ⟨b, hb⟩ : ∃ b, (referredApdu app r)[r.element.toNat]? = some b := by
    have hlt : r.element.toNat < (referredApdu app r).length := by
      rw [length_referredApdu]
      omega
    exact ⟨_, List.getElem?_eq_getElem hlt⟩
  rw [testMatch_eq]
  refine (Fault.bind_ok hfound).trans ?_
  rw [hapdu]
  refine (Fault.bind_ok (byteAt_ok hlow hb)).trans ?_
  have hholds : Holds app r ↔ b = r.value := by
    unfold Holds
    rw [hb, Option.some.injEq]
  have hiff : (b == r.value) = decide (Holds app r) := by
    rw [Bool.eq_iff_iff, beq_iff_eq, decide_eq_true_iff, hholds]
  rw [hiff]
  rfl

/-- A condition that cannot be read is a fault. -/
theorem testMatch_error (h : ¬ Readable app r) : ∃ e, app.testMatch r = .error e := by
  rw [testMatch_eq]
  cases hfound : HistoryLookup.getApduFromHistory app ApduBuffer.zero r.history r.apduDirection with
  | error e => exact ⟨e, rfl⟩
  | ok found =>
    have hoff : ¬ (0 ≤ r.element ∧ r.element < found.2.buffer.length) := by
      rw [ApduBuffer.length_eq]
      intro hin
      refine h ⟨hin.1, hin.2, ?_⟩
      by_cases hdir : r.apduDirection = inputApdu
      · rw [getApduFromHistory_in _ hdir] at hfound
        split_ifs at hfound with hle
        rw [if_pos hdir]
        omega
      · rw [getApduFromHistory_out _ hdir] at hfound
        split_ifs at hfound with hpos
        rw [if_neg hdir]
        refine ⟨by omega, fun hnil => ?_⟩
        rw [hnil] at hfound
        cases hfound
    exact ⟨.outOfBounds, (Fault.bind_ok rfl).trans (Fault.bind_error (byteAt_error hoff))⟩

/-- A test succeeds if the byte can be read and is right. -/
theorem testMatch_true_iff : app.testMatch r = .ok true ↔ Readable app r ∧ Holds app r := by
  by_cases hread : Readable app r
  · rw [testMatch_ok hread, Except.ok.injEq, decide_eq_true_iff, and_iff_right hread]
  · obtain ⟨e, he⟩ := testMatch_error hread
    rw [he]
    exact iff_of_false (fun h => by cases h) fun h => hread h.1

/-- All conditions hold exactly if each of them does. -/
theorem testAllMatch_true_iff {rs : List ApduSingleRule} :
    app.testAllMatch rs = .ok true ↔ ∀ r ∈ rs, app.testMatch r = .ok true := by
  induction rs with
  | nil => exact iff_of_true rfl (List.forall_mem_nil _)
  | cons r rest ih =>
    rw [WinscardApp.testAllMatch, List.forall_mem_cons]
    cases htest : app.testMatch r with
    | error e => exact iff_of_false (fun h => by cases h) fun h => by cases h.1
    | ok b =>
      cases b with
      | false => exact iff_of_false (fun h => by cases h) fun h => by cases h.1
      | true => exact ih.trans (and_iff_right rfl).symm

/-- Conditions are tested in order up to the first that fails. -/
theorem testAllMatch_ok {rs : List ApduSingleRule} (h : Evaluable app rs) :
    app.testAllMatch rs = .ok (decide (∀ r ∈ rs, Holds app r)) := by
  induction rs with
  | nil => simp [WinscardApp.testAllMatch]
  | cons r rest ih =>
    rw [WinscardApp.testAllMatch, Fault.bind_ok (testMatch_ok h.1)]
    by_cases hr : Holds app r
    · simp [hr, ih (h.2 hr)]
    · simp [hr]
      rfl

/-- A condition that cannot be evaluated is a fault of all. -/
theorem testAllMatch_error {rs : List ApduSingleRule} (h : ¬ Evaluable app rs) :
    ∃ e, app.testAllMatch rs = .error e := by
  induction rs with
  | nil => exact absurd trivial h
  | cons r rest ih =>
    rw [WinscardApp.testAllMatch]
    by_cases hread : Readable app r
    · rw [Fault.bind_ok (testMatch_ok hread)]
      have hr : Holds app r := by
        by_contra hr
        exact h ⟨hread, fun hr' => absurd hr' hr⟩
      have hrest : ¬ Evaluable app rest := fun hrest => h ⟨hread, fun _ => hrest⟩
      obtain ⟨e, he⟩ := ih hrest
      exact ⟨e, by simp [hr, he]⟩
    · obtain ⟨e, he⟩ := testMatch_error hread
      exact ⟨e, Fault.bind_error he⟩

/-- The local buffer keeps its size. -/
def FullBuffer (w : Rewrite) : Prop := w.newBuffer.length = maxApduLength

/-- An action is checked for its place. -/
theorem checked_applyAction : Checked FullBuffer ActionInside act applyAction where
  ok w r hw hr := by
    unfold FullBuffer at hw
    unfold act applyAction
    split_ifs with hv hle
    · rfl
    · rw [setByte, if_pos (by rw [hw]; exact hr hv)]
      rfl
    · rfl
  keep w r hw _ := by
    unfold FullBuffer at hw ⊢
    unfold act
    split_ifs <;> simp [hw]
  fail w r hw hr := by
    unfold FullBuffer at hw
    have hv : r.valid = true := by
      by_contra hv
      exact hr fun hv' => absurd hv' hv
    have hout : ¬ (0 ≤ r.element ∧ r.element < maxApduLength) := fun hin => hr fun _ => hin
    have hle : r.element ≠ leElem := by
      intro he
      rw [he] at hout
      exact hout (by decide)
    refine ⟨.outOfBounds, ?_⟩
    rw [applyAction, if_pos hv, if_neg hle, setByte, if_neg (by rw [hw]; exact hout)]
    rfl

/-- A delay works if there is none, or at least ten milliseconds. -/
theorem sleep_ok_iff {msDelay : ℤ} : sleep msDelay = .ok () ↔ msDelay ≤ 0 ∨ 10 ≤ msDelay := by
  unfold sleep
  split_ifs with h
  · refine iff_of_false (fun h' => by cases h') ?_
    omega
  · refine iff_of_true rfl ?_
    omega

/-- A rule is checked for its conditions, its delay and its actions. -/
theorem checked_applyRule :
    Checked FullBuffer (Sound app direction) (runRule app direction) (app.applyRule direction) where
  ok w rule hw hsound := by
    unfold runRule WinscardApp.applyRule
    by_cases hsel : rule.direction = direction ∧ rule.usage = 1
    · obtain ⟨heval, hact⟩ := hsound hsel
      rw [if_pos hsel, Fault.bind_ok (testAllMatch_ok heval)]
      by_cases hall : ∀ r ∈ rule.matchRules, Holds app r
      · obtain ⟨hinside, hdelay⟩ := hact hall
        have hfires : Fires app direction rule := ⟨hsel, hall⟩
        rw [if_pos (decide_eq_true hall), if_pos hfires]
        refine (Fault.bind_ok (checked_applyAction.loop.ok w _ hw hinside)).trans ?_
        exact Fault.bind_ok (sleep_ok_iff.mpr hdelay)
      · have hfires : ¬ Fires app direction rule := fun h => hall h.2
        rw [if_neg (by simpa using hall), if_neg hfires]
        rfl
    · have hfires : ¬ Fires app direction rule := fun h => hsel h.1
      rw [if_neg hsel, if_neg hfires]
  keep w rule hw hsound := by
    unfold runRule
    split_ifs with hfires
    · exact checked_applyAction.loop.keep w _ hw ((hsound hfires.1).2 hfires.2).1
    · exact hw
  fail w rule hw hsound := by
    unfold Sound at hsound
    obtain ⟨hsel, hbad⟩ := Classical.not_imp.mp hsound
    rw [WinscardApp.applyRule, if_pos hsel]
    by_cases heval : Evaluable app rule.matchRules
    · obtain ⟨hall, hbad⟩ := Classical.not_imp.mp fun himp => hbad ⟨heval, himp⟩
      rw [Fault.bind_ok (testAllMatch_ok heval), if_pos (decide_eq_true hall)]
      by_cases hinside : ∀ r ∈ rule.actionRules, ActionInside r
      · have hslow : ¬ sleep rule.msDelay = .ok () := fun h => hbad ⟨hinside, sleep_ok_iff.mp h⟩
        refine ⟨_, (Fault.bind_ok (checked_applyAction.loop.ok w _ hw hinside)).trans
          (Fault.bind_error (x := .divisionByZero) ?_)⟩
        unfold sleep at hslow ⊢
        split_ifs at hslow ⊢ <;> simp_all
      · obtain ⟨e, he⟩ := checked_applyAction.loop.fail w _ hw hinside
        exact ⟨e, Fault.bind_error he⟩
    · obtain ⟨e, he⟩ := testAllMatch_error heval
      exact ⟨e, Fault.bind_error he⟩

/-- Actions do not look at whether a rule was found. -/
theorem foldl_act_bRuleFound (actions : List ApduSingleRule) (w : Rewrite) (found : Bool) :
    actions.foldl act { w with bRuleFound := found } =
      { actions.foldl act w with bRuleFound := found } := by
  induction actions generalizing w with
  | nil => rfl
  | cons r rest ih =>
    have hstep : act { w with bRuleFound := found } r = { act w r with bRuleFound := found } := by
      unfold act
      split_ifs <;> rfl
    rw [List.foldl_cons, hstep, ih, List.foldl_cons]

/-- All rules together make the changes of those that are applied. -/
theorem foldl_runRule (rules : List ApduRule) (w : Rewrite) :
    rules.foldl (runRule app direction) w =
      { ((rules.filter fun rule => decide (Fires app direction rule)).flatMap (·.actionRules)).foldl act w
        with bRuleFound := w.bRuleFound || rules.any fun rule => decide (Fires app direction rule) } := by
  induction rules generalizing w with
  | nil => simp
  | cons rule rest ih =>
    rw [List.foldl_cons, ih, List.filter_cons, List.any_cons, runRule]
    by_cases hfires : Fires app direction rule
    · simp only [hfires, if_true, decide_true, Bool.true_or, Bool.or_true, List.flatMap_cons,
        List.foldl_append, foldl_act_bRuleFound]
    · simp only [hfires, if_false, decide_false, Bool.false_or, Bool.false_eq_true]

/-- An action changes the byte at its place. -/
theorem getElem?_act {i : ℕ} (hr : ActionInside r) (hi : (i : ℤ) ≠ leElem) :
    (act w r).newBuffer[i]? =
      w.newBuffer[i]?.map fun b => if r.valid = true ∧ r.element = i then r.value else b := by
  unfold act
  by_cases hv : r.valid = true
  · have hin := hr hv
    by_cases hle : r.element = leElem
    · have hne : r.element ≠ i := fun he => hi (by rw [← he, hle])
      simp [hv, hle, hle ▸ hne]
    · by_cases hi' : r.element = i
      · rw [if_pos hv, if_neg hle]
        simp only [hi', hv, and_self, if_true, Int.toNat_natCast, List.getElem?_set_self']
        rfl
      · have hnat : r.element.toNat ≠ i := by omega
        rw [if_pos hv, if_neg hle]
        simp [hi', List.getElem?_set_ne hnat]
  · simp [hv]

/-- Changes that are made stay inside the buffer if the rules are sound. -/
theorem actionInside_firedActions (hsound : ∀ rule ∈ app.rulesList, Sound app direction rule) :
    ∀ r ∈ firedActions app direction, ActionInside r := by
  intro r hr
  obtain ⟨rule, hrule, hr⟩ := List.mem_flatMap.mp hr
  obtain ⟨hmem, hfire⟩ := List.mem_filter.mp hrule
  have hfire := of_decide_eq_true hfire
  exact ((hsound rule hmem hfire.1).2 hfire.2).1 r hr

/-- Every byte is the last one written to it. -/
theorem getElem?_foldl_act {i : ℕ} (hi : (i : ℤ) ≠ leElem) (actions : List ApduSingleRule)
    (hactions : ∀ r ∈ actions, ActionInside r) (w : Rewrite) :
    (actions.foldl act w).newBuffer[i]? = w.newBuffer[i]?.map (written actions i) := by
  induction actions generalizing w with
  | nil =>
    rw [List.foldl_nil]
    cases w.newBuffer[i]? <;> rfl
  | cons r rest ih =>
    obtain ⟨hr, hrest⟩ := List.forall_mem_cons.mp hactions
    rw [List.foldl_cons, ih hrest, getElem?_act hr hi, Option.map_map]
    rfl

variable {newBuffer : ApduBuffer} {pbBuffer : List UInt8} {pcbLength : UInt32}

/-- The local buffer after the APDU is copied into it. -/
def copied (newBuffer : ApduBuffer) (pbBuffer : List UInt8) (pcbLength : UInt32) : List UInt8 :=
  Buffer.overwrite newBuffer.buffer 0 ((pbBuffer.drop 0).take pcbLength.toNat)

/-- The variables after all rules. -/
def afterRules (app : WinscardApp) (newBuffer : ApduBuffer) (pbBuffer : List UInt8) (pcbLength : UInt32)
    (direction : ℤ) : Rewrite :=
  app.rulesList.foldl (runRule app direction) ⟨copied newBuffer pbBuffer pcbLength, pcbLength, false⟩

/-- The copy fills a buffer. -/
theorem length_copied (hmax : pcbLength.toNat ≤ maxApduLength) :
    (copied newBuffer pbBuffer pcbLength).length = maxApduLength := by
  rw [copied, Buffer.length_overwrite, newBuffer.length_eq]
  rw [newBuffer.length_eq, List.length_take, List.length_drop]
  omega

/-- The copy begins with the APDU. -/
theorem getElem?_copied {i : ℕ} (hi : i < pcbLength.toNat) (hmem : pcbLength.toNat ≤ pbBuffer.length) :
    (copied newBuffer pbBuffer pcbLength)[i]? = pbBuffer[i]? := by
  have hinside := Buffer.getElem?_overwrite_inside newBuffer.buffer 0
    ((pbBuffer.drop 0).take pcbLength.toNat) (i := i) (Nat.zero_le _) (by
      rw [List.length_take, List.length_drop]
      omega)
  rw [Nat.zero_add] at hinside
  rw [copied, hinside, List.getElem?_take_of_lt hi, List.drop_zero]

/-- The whole function, given what the rules do. -/
theorem applyRules_eq (hactive : app.rulesActive = true) (hmax : pcbLength.toNat ≤ maxApduLength)
    (hmem : pcbLength.toNat ≤ pbBuffer.length) (direction : ℤ) :
    app.applyRules newBuffer pbBuffer pcbLength direction = (do
      let w ← app.rulesList.foldlM (app.applyRule direction)
        ⟨copied newBuffer pbBuffer pcbLength, pcbLength, false⟩
      let n ← correctLength pbBuffer direction w
      let apdu ← Buffer.read .outOfBounds w.newBuffer 0 n.toNat
      let pbBuffer ← Buffer.write .outOfBounds pbBuffer 0 apdu
      return (pbBuffer, n)) := by
  have hroom : 0 + ((pbBuffer.drop 0).take pcbLength.toNat).length ≤ newBuffer.buffer.length := by
    rw [newBuffer.length_eq, List.length_take, List.length_drop]
    omega
  rw [WinscardApp.applyRules, if_pos hactive]
  refine (Fault.bind_ok (Buffer.read_ok (by omega))).trans ?_
  exact Fault.bind_ok (Buffer.write_ok hroom)

/-- Where no rule is applied the variables stay as they are. -/
theorem afterRules_idle (hidle : ∀ rule ∈ app.rulesList, ¬ Fires app direction rule) :
    afterRules app newBuffer pbBuffer pcbLength direction =
      ⟨copied newBuffer pbBuffer pcbLength, pcbLength, false⟩ := by
  have hnone : app.rulesList.filter (fun rule => decide (Fires app direction rule)) = [] :=
    List.filter_eq_nil_iff.mpr fun rule hrule hfires => hidle rule hrule (of_decide_eq_true hfires)
  have hany : app.rulesList.any (fun rule => decide (Fires app direction rule)) = false :=
    List.any_eq_false.mpr fun rule hrule hfires => hidle rule hrule (of_decide_eq_true hfires)
  rw [afterRules, foldl_runRule, hnone, hany]
  rfl

/-- The APDU is copied back over itself. -/
theorem overwrite_copied (hmem : pcbLength.toNat ≤ pbBuffer.length) :
    Buffer.overwrite pbBuffer 0 ((copied newBuffer pbBuffer pcbLength).take pcbLength.toNat) = pbBuffer := by
  have hlen : (pbBuffer.take pcbLength.toNat).length = pcbLength.toNat := List.length_take_of_le hmem
  have htake : (copied newBuffer pbBuffer pcbLength).take pcbLength.toNat =
      pbBuffer.take pcbLength.toNat := by
    rw [copied, Buffer.overwrite, List.take_zero, List.nil_append, List.drop_zero]
    exact List.take_left' hlen
  rw [htake]
  simp [Buffer.overwrite, hmem]

/-- Without a rule for its direction an APDU stays as it is. -/
theorem applyRules_unused (hmax : pcbLength.toNat ≤ maxApduLength)
    (hmem : pcbLength.toNat ≤ pbBuffer.length) (hdir : direction ≠ inputApdu)
    (hunused : app.rulesActive = true →
      ∀ rule ∈ app.rulesList, ¬ (rule.direction = direction ∧ rule.usage = 1)) :
    app.applyRules newBuffer pbBuffer pcbLength direction = .ok (pbBuffer, pcbLength) := by
  by_cases hactive : app.rulesActive = true
  · specialize hunused hactive
    have hsound : ∀ rule ∈ app.rulesList, Sound app direction rule :=
      fun rule hrule hsel => absurd hsel (hunused rule hrule)
    have hrules := checked_applyRule.loop.ok
      ⟨copied newBuffer pbBuffer pcbLength, pcbLength, false⟩ _ (length_copied hmax) hsound
    rw [← afterRules, afterRules_idle fun rule hrule hfires => hunused rule hrule hfires.1] at hrules
    rw [applyRules_eq hactive hmax hmem, Fault.bind_ok hrules, correctLength,
      if_neg fun h => hdir h.1]
    refine (Fault.bind_ok rfl).trans ?_
    refine (Fault.bind_ok (Buffer.read_ok ?_)).trans ?_
    · rw [length_copied hmax, Nat.zero_add]
      exact hmax
    rw [List.drop_zero]
    refine (Fault.bind_ok (Buffer.write_ok ?_)).trans ?_
    · rw [Nat.zero_add]
      exact Nat.le_trans (List.length_take_le _ _) hmem
    rw [overwrite_copied hmem]
    rfl
  · rw [WinscardApp.applyRules, if_neg hactive]

/-- The corrected length does not wrap around. -/
theorem toNat_correctedLength (lc : UInt8) : (lc.toUInt32 + offsetCdata).toNat = lc.toNat + 5 := by
  have hb := lc.toNat_lt
  rw [UInt32.toNat_add, UInt8.toNat_toUInt32]
  exact Nat.mod_eq_of_lt (by simp [offsetCdata]; omega)

end ApduPlay.RuleEvaluation
