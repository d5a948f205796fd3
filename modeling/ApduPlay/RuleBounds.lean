import ApduPlay.FixedBuffers
import ApduPlay.MatchLines

/-!
# Bounds of loaded rules

Offsets, numbers of bytes and delays go from the rules file into the arrays of
the loader and of `ApplyRules` without a check. The loader is written once more
with a mark for the array that it decodes data into.
-/

namespace ApduPlay.RuleBounds

open ApduRules CheckedSteps FaultSites FixedBuffers MarkedErrors MatchLines RuleEvaluation RuleFile
open RuleSections TextNumbers TextSearch

/-- Elementary rules for data. `dataBuffer` is read up to the number of bytes
that were decoded, even if they were not stored because there are too many. -/
def loadData (offsetOf : Text → Except Fault ℤ) (rulePart : Text) (st : Loading) : Checking Loading :=
  if compareWithNoCase ((elemNameOf rulePart).take 4) (ascii "DATA") then do
    let offset ← mark .other (offsetOf (elemNameOf rulePart))
    let bytes := byteConvertFromHexString ((elemValueOf rulePart).filter (· != 44))
    if bytes.length ≤ maxApduLength then return loadBytes st offset bytes else .error (.index, .outOfBounds)
  else .ok st

/-- One part of a line. -/
def loadPart (keywords : List (Text × ℤ)) (offsetOf : Text → Except Fault ℤ) (st : Loading)
    (rulePart : Text) : Checking Loading :=
  loadData offsetOf rulePart (keywords.foldl (loadHeader rulePart) st)

/-- Parse rule and create elementary rules foreach byte. -/
def loadParts (keywords : List (Text × ℤ)) (offsetOf : Text → Except Fault ℤ) (st : Loading)
    (ruleString : Text) : Checking Loading :=
  (parts 44 ruleString).foldlM (loadPart keywords offsetOf) st

/-- One line of conditions. -/
def loadMatch (st : Loading) (charValue : Text) : Checking Loading :=
  let history := readHistory st.1 (charValue ++ [32])
  let direction := readDirection history.1 history.2
  loadParts matchKeywords matchOffset (direction.1, st.2) direction.2

/-- The line of changes. -/
def loadAction (sectionName : Text) (singleRule : ApduSingleRule) (charValue : Text) : Checking Loading :=
  let direction := readDirection singleRule.clear (charValue ++ [32])
  loadParts actionKeywords (actionOffset sectionName) (direction.1, []) direction.2

/-- The loop over the lines of conditions. -/
def loadMatches (dict : Dictionary) (sectionName : Text) : ℕ → ℕ → Loading → Text → Checking Loading
  | 0, _, _, _ => .error (.other, .endlessLoop)
  | fuel + 1, counter, st, charValue =>
    if charValue = [] then .ok st
    else do
      let st ← loadMatch st charValue
      let charValue ← mark .other (dict.value sectionName (ascii "MATCH" ++ decimal (counter + 1)))
      loadMatches dict sectionName fuel (counter + 1) st charValue

/-- The changes, if there is a line of them. -/
def loadActions (dict : Dictionary) (sectionName : Text) (singleRule : ApduSingleRule) :
    Checking (List ApduSingleRule) := do
  let charValue ← mark .other (dict.value sectionName (ascii ":ACTION"))
  if charValue = [] then return []
  else return (← loadAction sectionName singleRule charValue).2

/-- `LoadRule` -/
def loadRule (dict : Dictionary) (apduDirection : ℤ) (sectionName : Text) :
    Checking (Option ApduRule) :=
  if isRuleSection sectionName then do
    let usage ← mark .other (dict.intValue sectionName (ascii ":USAGE") ApduRule.initial.usage)
    let direction ← mark .other (dict.intValue sectionName (ascii ":APDUIN") ApduRule.initial.direction)
    let msDelay ← mark .other (dict.intValue sectionName (ascii ":DELAY") ApduRule.initial.msDelay)
    let charValue ← mark .other (dict.value sectionName (ascii ":MATCH" ++ decimal 1))
    let st ← loadMatches dict sectionName (dict.entries.length + 2) 1 (newSingleRule apduDirection, [])
      charValue
    let actionRules ← loadActions dict sectionName st.1
    return some ⟨sectionName, usage, direction, st.2, actionRules, msDelay⟩
  else .ok none

/-- `LoadRules`, for sections that describe rules. What lies in memory before a
new elementary rule is made may differ from section to section. -/
def loadRules (dict : Dictionary) (memory : Text → ℤ) : Checking (List ApduRule) :=
  dict.sections.foldlM (fun rules sectionName => do
    return rules ++ (← loadRule dict (memory sectionName) sectionName).toList) []

/-- Nothing stops the loader, unless it runs over the end of `dataBuffer`. -/
def Accepts (dict : Dictionary) (memory : Text → ℤ) : Prop :=
  ∀ e, loadRules dict memory = .error e → e.1 = .index

/-- Loading the file and applying its rules to an APDU stays inside all arrays
of 300 bytes, and divides by nothing but positive numbers. -/
def StaysInBounds (dict : Dictionary) (memory : Text → ℤ) (apduInList apduOutList : List ApduBuffer)
    (newBuffer : ApduBuffer) (pbBuffer : List UInt8) (pcbLength : UInt32) (direction : ℤ) : Prop :=
  Avoids (· ≠ .other) (loadRules dict memory) ∧
    ∀ rules, loadRules dict memory = .ok rules →
      Avoids (· ≠ .other)
        (applyRules ⟨true, rules, apduInList, apduOutList⟩ newBuffer pbBuffer pcbLength direction)

/-- The data of a part of a line fit into `dataBuffer`. -/
def DataFits (rulePart : Text) : Prop :=
  compareWithNoCase ((elemNameOf rulePart).take 4) (ascii "DATA") = true →
    (byteConvertFromHexString ((elemValueOf rulePart).filter (· != 44))).length ≤ maxApduLength

/-- All data of the file fit. -/
def FileFits (dict : Dictionary) : Prop :=
  ∀ sectionName ∈ dict.sections, isRuleSection sectionName = true →
    (∀ text, dict.getString (sectionName ++ (ascii ":MATCH" ++ decimal 1)) = some text →
      ∀ rulePart ∈ matchParts text, DataFits rulePart) ∧
    ∀ text, dict.getString (sectionName ++ ascii ":ACTION") = some text →
      ∀ rulePart ∈ actionParts text, DataFits rulePart

/-- The APDU that a condition refers to is found. -/
def Found (app : WinscardApp) (r : ApduSingleRule) : Prop :=
  if r.apduDirection = inputApdu then r.history ≤ app.apduInList.length
  else r.history ≤ 0 ∧ app.apduOutList ≠ []

/-- The place is inside an array of 300 bytes. -/
def Inside (element : ℤ) : Prop := 0 ≤ element ∧ element < maxApduLength

/-- Conditions look at places inside, up to the first that does not hold. -/
def BoundedConditions (app : WinscardApp) : List ApduSingleRule → Prop
  | [] => True
  | r :: rest => Found app r → Inside r.element ∧ (Holds app r → BoundedConditions app rest)

/-- A rule for this direction has such conditions, and if all of them hold its
changes are made inside and its delay is none or at least ten milliseconds. -/
def BoundedRule (app : WinscardApp) (direction : ℤ) (rule : ApduRule) : Prop :=
  rule.direction = direction ∧ rule.usage = 1 → BoundedConditions app rule.matchRules ∧
    ((∀ r ∈ rule.matchRules, Found app r ∧ Holds app r) →
      (∀ r ∈ rule.actionRules, r.valid = true → Inside r.element) ∧ (rule.msDelay ≤ 0 ∨ 10 ≤ rule.msDelay))

/-- The rules are bounded, up to the first that is not evaluated to its end. -/
def BoundedRules (app : WinscardApp) (direction : ℤ) : List ApduRule → Prop
  | [] => True
  | rule :: rest =>
    BoundedRule app direction rule ∧ (Sound app direction rule → BoundedRules app direction rest)

variable {dict : Dictionary} {memory : Text → ℤ} {sectionName : Text} {offsetOf : Text → Except Fault ℤ}
  {keywords : List (Text × ℤ)} {rulePart : Text} {st : Loading}

/-- Without marks a part is loaded in the same way. -/
theorem erase_loadPart (keywords : List (Text × ℤ)) (offsetOf : Text → Except Fault ℤ) (st : Loading)
    (rulePart : Text) :
    erase (loadPart keywords offsetOf st rulePart) = RuleFile.loadPart keywords offsetOf st rulePart := by
  unfold loadPart loadData RuleFile.loadPart RuleFile.loadData
  split_ifs
  · rw [erase_bind, erase_mark]
    refine congrArg (offsetOf _ >>= ·) (funext fun offset => ?_)
    dsimp only
    split_ifs <;> rfl
  · rfl

/-- Without marks a condition is loaded as before. -/
theorem erase_loadMatch (st : Loading) (charValue : Text) :
    erase (loadMatch st charValue) = RuleFile.loadMatch st charValue :=
  erase_foldlM (erase_loadPart _ _) _ _

/-- So is an action. -/
theorem erase_loadAction (r : ApduSingleRule) (charValue : Text) :
    erase (loadAction sectionName r charValue) = RuleFile.loadAction sectionName r charValue :=
  erase_foldlM (erase_loadPart _ _) _ _

/-- So are all conditions. -/
theorem erase_loadMatches (fuel counter : ℕ) (st : Loading) (charValue : Text) :
    erase (loadMatches dict sectionName fuel counter st charValue) =
      RuleFile.loadMatches dict sectionName fuel counter st charValue := by
  induction fuel generalizing counter st charValue with
  | zero => rfl
  | succ fuel ih =>
    rw [loadMatches, RuleFile.loadMatches]
    split_ifs
    · rfl
    · simp only [erase_bind, erase_loadMatch, erase_mark, ih]

/-- So are all actions. -/
theorem erase_loadActions (r : ApduSingleRule) :
    erase (loadActions dict sectionName r) = RuleFile.loadActions dict sectionName r := by
  unfold loadActions RuleFile.loadActions
  rw [erase_bind, erase_mark]
  refine congrArg (dict.value _ _ >>= ·) (funext fun charValue => ?_)
  split_ifs
  · rfl
  · rw [erase_bind, erase_loadAction]
    rfl

/-- Without marks it is the same loader. -/
theorem erase_loadRule (dict : Dictionary) (apduDirection : ℤ) (sectionName : Text) :
    erase (loadRule dict apduDirection sectionName) = RuleFile.loadRule dict apduDirection sectionName := by
  unfold loadRule RuleFile.loadRule
  split_ifs
  · simp only [erase_bind, erase_mark, erase_loadMatches, erase_loadActions]
    rfl
  · rfl

/-- Data that fits goes into its array. -/
theorem avoids_loadPart (h : DataFits rulePart) :
    Avoids (· ≠ .other) (loadPart keywords offsetOf st rulePart) := by
  unfold loadPart loadData
  split_ifs with hdata
  · refine avoids_bind.mpr ⟨avoids_mark (by decide) _, fun offset _ => ?_⟩
    dsimp only
    rw [if_pos (h hdata)]
    exact avoids_ok _ _
  · exact avoids_ok _ _

/-- So does that of a condition. -/
theorem avoids_loadMatch {charValue : Text} (h : ∀ rulePart ∈ matchParts charValue, DataFits rulePart) :
    Avoids (· ≠ .other) (loadMatch st charValue) := by
  simp only [loadMatch, loadParts, parts_matchParts]
  exact avoids_foldlM _ (fun st part hpart => avoids_loadPart (h part hpart)) _

/-- So does that of an action. -/
theorem avoids_loadAction {r : ApduSingleRule} {charValue : Text}
    (h : ∀ rulePart ∈ actionParts charValue, DataFits rulePart) :
    Avoids (· ≠ .other) (loadAction sectionName r charValue) := by
  simp only [loadAction, loadParts, parts_actionParts]
  exact avoids_foldlM _ (fun st part hpart => avoids_loadPart (h part hpart)) _

/-- Only the first line of conditions is ever loaded. -/
theorem avoids_loadMatches (hsection : sectionName ∈ dict.sections) {charValue : Text} (fuel : ℕ)
    (h : ∀ rulePart ∈ matchParts charValue, DataFits rulePart) :
    Avoids (· ≠ .other) (loadMatches dict sectionName (fuel + 2) 1 st charValue) := by
  rw [loadMatches]
  split_ifs
  · exact avoids_ok _ _
  · refine avoids_bind.mpr ⟨avoids_loadMatch h, fun st' _ => ?_⟩
    refine avoids_bind.mpr ⟨avoids_mark (by decide) _, fun second hsecond => ?_⟩
    have hfound := (value_ok_iff.mp (mark_eq_ok.mp hsecond)).2
    rw [getString_colonless (secondKey_colonless hsection) hfound, loadMatches, if_pos rfl]
    exact avoids_ok _ _

/-- So does that of all actions. -/
theorem avoids_loadActions {r : ApduSingleRule}
    (h : ∀ text, dict.getString (sectionName ++ ascii ":ACTION") = some text →
      ∀ rulePart ∈ actionParts text, DataFits rulePart) :
    Avoids (· ≠ .other) (loadActions dict sectionName r) := by
  refine avoids_bind.mpr ⟨avoids_mark (by decide) _, fun charValue hvalue => ?_⟩
  split_ifs
  · exact avoids_ok _ _
  · have hline := h charValue (value_ok_iff.mp (mark_eq_ok.mp hvalue)).2
    exact avoids_bind.mpr ⟨avoids_loadAction hline, fun _ _ => avoids_ok _ _⟩

/-- A file whose data fit is loaded without running over the end of an array. -/
theorem avoids_loadRules (h : FileFits dict) : Avoids (· ≠ .other) (loadRules dict memory) := by
  refine avoids_foldlM _ (fun rules sectionName hsection => ?_) []
  refine avoids_bind.mpr ⟨?_, fun _ _ => avoids_ok _ _⟩
  unfold loadRule
  split_ifs with hrule
  · obtain ⟨hmatch, haction⟩ := h sectionName hsection hrule
    refine avoids_bind.mpr ⟨avoids_mark (by decide) _, fun usage _ => ?_⟩
    refine avoids_bind.mpr ⟨avoids_mark (by decide) _, fun direction _ => ?_⟩
    refine avoids_bind.mpr ⟨avoids_mark (by decide) _, fun msDelay _ => ?_⟩
    refine avoids_bind.mpr ⟨avoids_mark (by decide) _, fun charValue hvalue => ?_⟩
    have hline := hmatch charValue (value_ok_iff.mp (mark_eq_ok.mp hvalue)).2
    refine avoids_bind.mpr ⟨avoids_loadMatches hsection _ hline, fun st _ => ?_⟩
    exact avoids_bind.mpr ⟨avoids_loadActions haction, fun _ _ => avoids_ok _ _⟩
  · exact avoids_ok _ _

/-- What was loaded fitted. -/
theorem fileFits_of_loadRules {rules : List ApduRule} (h : loadRules dict memory = .ok rules) :
    FileFits dict := by
  have hsections : ∀ sectionName ∈ dict.sections,
      ∃ rule, loadRule dict (memory sectionName) sectionName = .ok rule := by
    refine (exists_foldlM_ok (fun rules sectionName => ?_) _ _).mp ⟨rules, h⟩
    constructor
    · rintro ⟨rules', hstep⟩
      obtain ⟨rule, hrule, -⟩ := bind_eq_ok.mp hstep
      exact ⟨rule, hrule⟩
    · rintro ⟨rule, hrule⟩
      exact ⟨_, bind_eq_ok.mpr ⟨rule, hrule, rfl⟩⟩
  intro sectionName hsection hrule
  obtain ⟨rule, hload⟩ := hsections sectionName hsection
  rw [← erase_eq_ok, erase_loadRule, RuleFile.loadRule, if_pos hrule] at hload
  obtain ⟨usage, -, hload⟩ := Fault.of_bind_ok hload
  obtain ⟨direction, -, hload⟩ := Fault.of_bind_ok hload
  obtain ⟨msDelay, -, hload⟩ := Fault.of_bind_ok hload
  obtain ⟨charValue, hvalue, hload⟩ := Fault.of_bind_ok hload
  obtain ⟨st, hmatches, hload⟩ := Fault.of_bind_ok hload
  obtain ⟨actionRules, hactions, -⟩ := Fault.of_bind_ok hload
  constructor
  · intro text htext
    obtain rfl : charValue = text := by
      have hfound := (value_ok_iff.mp hvalue).2
      rw [htext] at hfound
      exact (Option.some.inj hfound).symm
    have hline : ∃ st', RuleFile.loadMatch (newSingleRule (memory sectionName), []) charValue = .ok st' := by
      rw [RuleFile.loadMatches] at hmatches
      split_ifs at hmatches with hnil
      · exact ⟨_, hnil ▸ loadMatch_nil _⟩
      · obtain ⟨st', hst', -⟩ := Fault.of_bind_ok hmatches
        exact ⟨st', hst'⟩
    exact fun rulePart hpart hdata => ((exists_loadMatch_ok _ _).mp hline rulePart hpart hdata).2
  · intro text htext
    have hline : ∃ st', RuleFile.loadAction sectionName st.1 text = .ok st' := by
      obtain ⟨charValue, hvalue, hactions⟩ := Fault.of_bind_ok hactions
      have hfound := (value_ok_iff.mp hvalue).2
      rw [htext] at hfound
      cases hfound
      split_ifs at hactions with hnil
      · exact ⟨_, hnil ▸ loadAction_nil _⟩
      · obtain ⟨st', hst', -⟩ := Fault.of_bind_ok hactions
        exact ⟨st', hst'⟩
    exact fun rulePart hpart hdata => ((exists_loadAction_ok _ _ _).mp hline rulePart hpart hdata).2

/-- A file that is accepted is loaded inside `dataBuffer` exactly if its data fit. -/
theorem avoids_loadRules_iff (haccept : Accepts dict memory) :
    Avoids (· ≠ .other) (loadRules dict memory) ↔ FileFits dict := by
  refine ⟨fun h => ?_, avoids_loadRules⟩
  cases hload : loadRules dict memory with
  | error e =>
    have hsite := haccept e hload
    exact absurd hload (h e.1 e.2 (by rw [hsite]; decide))
  | ok rules => exact fileFits_of_loadRules hload

variable {app : WinscardApp} {direction : ℤ} {newBuffer : ApduBuffer} {pbBuffer : List UInt8}
  {pcbLength : UInt32} {w : Rewrite} {r : ApduSingleRule} {rule : ApduRule}

/-- A condition is read if its APDU is found and its place is inside. -/
theorem readable_iff : Readable app r ↔ Inside r.element ∧ Found app r :=
  and_assoc.symm

/-- The APDU is found exactly if the history has it. -/
theorem found_iff : (∃ found, app.getApduFromHistory r.history r.apduDirection = .ok found) ↔
    Found app r := by
  unfold WinscardApp.getApduFromHistory Found
  split_ifs with hin hle hpos
  · exact iff_of_true ⟨_, rfl⟩ (by omega)
  · exact iff_of_false (fun ⟨_, h⟩ => by cases h) (by omega)
  · exact iff_of_false (fun ⟨_, h⟩ => by cases h) (by omega)
  · cases app.apduOutList with
    | nil => exact iff_of_false (fun ⟨_, h⟩ => by cases h) fun h => h.2 rfl
    | cons apdu rest => exact iff_of_true ⟨_, rfl⟩ ⟨by omega, List.cons_ne_nil _ _⟩

/-- A byte is read exactly inside the buffer. -/
theorem byteAt_iff {buffer : List UInt8} (hbuffer : buffer.length = maxApduLength) (element : ℤ) :
    (∃ b, byteAt buffer element = .ok b) ↔ Inside element := by
  constructor
  · rintro ⟨b, hb⟩
    by_contra hout
    rw [byteAt_error (by rw [hbuffer]; exact hout)] at hb
    cases hb
  · rintro ⟨hlow, hhigh⟩
    exact ⟨_, byteAt_ok hlow (List.getElem?_eq_getElem (by omega))⟩

/-- A condition leaves its array exactly if its APDU is found and its place is outside. -/
theorem avoids_testMatch_iff :
    Avoids (· ≠ .other) (testMatch app r) ↔ (Found app r → Inside r.element) := by
  unfold testMatch
  rw [avoids_bind, and_iff_right (avoids_mark (by decide) _), ← found_iff, forall_exists_index]
  refine forall_congr' fun found => ?_
  rw [mark_eq_ok]
  refine imp_congr_right fun _ => ?_
  rw [avoids_bind, avoids_mark_iff (by decide), byteAt_iff (ApduBuffer.length_eq _)]
  exact and_iff_left fun _ _ => avoids_ok _ _

/-- The conditions of a rule stay inside the array. -/
theorem avoids_testAllMatch_iff {rs : List ApduSingleRule} :
    Avoids (· ≠ .other) (testAllMatch app rs) ↔ BoundedConditions app rs := by
  induction rs with
  | nil => exact iff_of_true (avoids_ok _ _) trivial
  | cons r rest ih =>
    have hrest : (∀ holds, testMatch app r = .ok holds →
        Avoids (· ≠ .other) (if holds then testAllMatch app rest else .ok false)) ↔
          (app.testMatch r = .ok true → BoundedConditions app rest) := by
      rw [← ih, ← erase_testMatch, erase_eq_ok]
      constructor
      · exact fun h htrue => h true htrue
      · intro h holds hholds
        cases holds with
        | false => exact avoids_ok _ _
        | true => exact h hholds
    rw [testAllMatch, avoids_bind, avoids_testMatch_iff]
    refine (and_congr_right fun _ => hrest).trans ?_
    rw [testMatch_true_iff, readable_iff, BoundedConditions]
    constructor
    · rintro ⟨hinside, hnext⟩ hfound
      exact ⟨hinside hfound, fun hholds => hnext ⟨⟨hinside hfound, hfound⟩, hholds⟩⟩
    · intro h
      refine ⟨fun hfound => (h hfound).1, ?_⟩
      rintro ⟨⟨-, hfound⟩, hholds⟩
      exact (h hfound).2 hholds

/-- Among bounded conditions those that are found and hold are met. -/
theorem testAllMatch_true_iff {rs : List ApduSingleRule} (h : BoundedConditions app rs) :
    app.testAllMatch rs = .ok true ↔ ∀ r ∈ rs, Found app r ∧ Holds app r := by
  rw [RuleEvaluation.testAllMatch_true_iff]
  induction rs with
  | nil => exact iff_of_true (List.forall_mem_nil _) (List.forall_mem_nil _)
  | cons r rest ih =>
    rw [List.forall_mem_cons, List.forall_mem_cons, testMatch_true_iff, readable_iff]
    constructor
    · rintro ⟨⟨⟨hinside, hfound⟩, hholds⟩, hrest⟩
      exact ⟨⟨hfound, hholds⟩, (ih ((h hfound).2 hholds)).mp hrest⟩
    · rintro ⟨⟨hfound, hholds⟩, hrest⟩
      exact ⟨⟨⟨(h hfound).1, hfound⟩, hholds⟩, (ih ((h hfound).2 hholds)).mpr hrest⟩

/-- One rule stays inside the arrays. -/
theorem avoids_applyRule_iff (hw : FullBuffer w) :
    Avoids (· ≠ .other) (applyRule app direction w rule) ↔ BoundedRule app direction rule := by
  unfold applyRule BoundedRule
  split_ifs with hsel
  · rw [forall_prop_of_true hsel, avoids_bind, avoids_testAllMatch_iff]
    refine and_congr_right fun hconds => ?_
    rw [← testAllMatch_true_iff hconds, ← erase_testAllMatch, erase_eq_ok]
    have hfired : Avoids (· ≠ .other) (do
        let w ← rule.actionRules.foldlM (fun w r => mark .index (applyAction w r)) w
        mark .delay (sleep rule.msDelay)
        return { w with bRuleFound := true } : Checking Rewrite) ↔
          (∀ r ∈ rule.actionRules, r.valid = true → Inside r.element) ∧
            (rule.msDelay ≤ 0 ∨ 10 ≤ rule.msDelay) := by
      rw [foldlM_mark, avoids_bind, avoids_mark_iff (by decide), checked_applyAction.loop.exists_ok_iff hw]
      refine and_congr_right fun hinside => ?_
      have hactions := checked_applyAction.loop.ok w rule.actionRules hw hinside
      have hslept (w' : Rewrite) : Avoids (· ≠ .other) (do
          mark .delay (sleep rule.msDelay)
          return { w' with bRuleFound := true } : Checking Rewrite) ↔
        rule.msDelay ≤ 0 ∨ 10 ≤ rule.msDelay := by
        rw [avoids_bind, avoids_mark_iff (by decide), ← sleep_ok_iff]
        refine (and_iff_left fun _ _ => avoids_ok _ _).trans ?_
        exact ⟨fun ⟨_, h⟩ => h, fun h => ⟨_, h⟩⟩
      constructor
      · exact fun h => (hslept _).mp (h _ (mark_eq_ok.mpr hactions))
      · exact fun h w' _ => (hslept w').mpr h
    constructor
    · exact fun h htrue => hfired.mp (h true htrue)
    · intro h all hall
      cases all with
      | false => exact avoids_ok _ _
      | true => exact hfired.mpr (h hall)
  · exact iff_of_true (avoids_ok _ _) fun h => absurd h hsel

/-- All rules stay inside the arrays. -/
theorem avoids_rules_iff (hw : FullBuffer w) (rules : List ApduRule) :
    Avoids (· ≠ .other) (rules.foldlM (applyRule app direction) w) ↔ BoundedRules app direction rules := by
  induction rules generalizing w with
  | nil => exact iff_of_true (avoids_ok _ _) trivial
  | cons rule rest ih =>
    rw [List.foldlM_cons, avoids_bind, avoids_applyRule_iff hw, BoundedRules]
    refine and_congr_right fun _ => ?_
    constructor
    · intro h hsound
      have hrule := checked_applyRule.ok w rule hw hsound
      rw [← erase_applyRule, erase_eq_ok] at hrule
      exact (ih (checked_applyRule.keep w rule hw hsound)).mp (h _ hrule)
    · intro h w' hrule
      rw [← erase_eq_ok, erase_applyRule] at hrule
      obtain ⟨hsound, rfl⟩ := checked_applyRule.of_ok hw hrule
      exact (ih (checked_applyRule.keep w rule hw hsound)).mpr (h hsound)

/-- The whole function stays inside the arrays. -/
theorem avoids_applyRules_iff (hactive : app.rulesActive = true) (hmax : pcbLength.toNat ≤ maxApduLength)
    (hmem : pcbLength.toNat ≤ pbBuffer.length) :
    Avoids (· ≠ .other) (applyRules app newBuffer pbBuffer pcbLength direction) ↔
      BoundedRules app direction app.rulesList := by
  have hcopied : copy pcbLength.toNat (memcpy newBuffer.buffer pbBuffer pcbLength.toNat) =
      .ok (copied newBuffer pbBuffer pcbLength) := by
    rw [copy, if_pos hmax, mark_eq_ok]
    refine (Fault.bind_ok (Buffer.read_ok (by omega))).trans (Buffer.write_ok ?_)
    rw [newBuffer.length_eq, List.length_take]
    omega
  have hfull : FullBuffer ⟨copied newBuffer pbBuffer pcbLength, pcbLength, false⟩ := length_copied hmax
  rw [applyRules, if_pos hactive, hcopied, avoids_bind, and_iff_right (avoids_ok _ _)]
  have hloop : Avoids (· ≠ .other) (app.rulesList.foldlM (applyRule app direction)
      ⟨copied newBuffer pbBuffer pcbLength, pcbLength, false⟩) ↔ BoundedRules app direction app.rulesList :=
    avoids_rules_iff hfull app.rulesList
  constructor
  · exact fun h => hloop.mp (avoids_bind.mp (h _ rfl)).1
  · rintro h _ ⟨⟩
    refine avoids_bind.mpr ⟨hloop.mpr h, fun w hrules => ?_⟩
    refine avoids_bind.mpr ⟨avoids_mark (by decide) _, fun n hcorrect => ?_⟩
    rw [← erase_eq_ok, erase_foldlM (erase_applyRule app direction)] at hrules
    have hn := correctLength_le (pcbLength_of_rules hfull hmax hrules) (mark_eq_ok.mp hcorrect)
    rw [copy, if_pos hn]
    exact avoids_bind.mpr ⟨avoids_mark (by decide) _, fun _ _ => avoids_ok _ _⟩

/-- A file that is accepted is loaded and its rules are applied inside all arrays
exactly if its data fit and its rules are bounded. -/
theorem staysInBounds_iff {apduInList apduOutList : List ApduBuffer} (haccept : Accepts dict memory)
    (hmax : pcbLength.toNat ≤ 260) (hmem : pcbLength.toNat ≤ pbBuffer.length) :
    StaysInBounds dict memory apduInList apduOutList newBuffer pbBuffer pcbLength direction ↔
      FileFits dict ∧ ∀ rules, loadRules dict memory = .ok rules →
        BoundedRules ⟨true, rules, apduInList, apduOutList⟩ direction rules := by
  have hroom : pcbLength.toNat ≤ maxApduLength := Nat.le_trans hmax (by decide)
  unfold StaysInBounds
  rw [avoids_loadRules_iff haccept]
  exact and_congr_right fun _ => forall₂_congr fun rules _ => avoids_applyRules_iff rfl hroom hmem

/-- A file with a rule that only delays, by a number of milliseconds. -/
def delaying (delay : Text) : Dictionary :=
  oneSection (ascii "rule1") [(ascii "usage", ascii "1"), (ascii "delay", delay)]

/-- The rule that is loaded from it. -/
def delayRule (msDelay : ℤ) : ApduRule :=
  { ApduRule.initial with ruleName := ascii "rule1", usage := 1, msDelay := msDelay }

/-- A delay of 50 milliseconds is used. -/
theorem staysInBounds_delay :
    (5 : UInt32).toNat ≤ 260 ∧
      StaysInBounds (delaying (ascii "50")) (fun _ => 0) [] [] ApduBuffer.zero [0, 0, 0, 0, 0] 5
      inputApdu := by
  have hload : loadRules (delaying (ascii "50")) (fun _ => 0) = .ok [delayRule 50] := by rfl
  have haccept : Accepts (delaying (ascii "50")) fun _ => 0 := by
    intro e he
    rw [hload] at he
    cases he
  refine ⟨by decide, (staysInBounds_iff haccept (by decide) (by decide)).mpr
    ⟨fileFits_of_loadRules hload, ?_⟩⟩
  rintro rules hrules
  rw [hload] at hrules
  cases hrules
  exact ⟨fun _ => ⟨trivial, fun _ => ⟨List.forall_mem_nil _, Or.inr (by decide)⟩⟩, fun _ => trivial⟩

/-- A random part of a tenth of five milliseconds is a remainder modulo zero. -/
theorem not_staysInBounds_delay :
    Accepts (delaying (ascii "5")) (fun _ => 0) ∧
      ¬ StaysInBounds (delaying (ascii "5")) (fun _ => 0) [] [] ApduBuffer.zero [0, 0, 0, 0, 0] 5
        inputApdu := by
  have hload : loadRules (delaying (ascii "5")) (fun _ => 0) = .ok [delayRule 5] := by rfl
  refine ⟨fun e he => ?_, fun h => ?_⟩
  · rw [hload] at he
    cases he
  · have hbounded := (avoids_applyRules_iff rfl (by decide) (by decide)).mp (h.2 _ hload)
    obtain ⟨-, hfired⟩ := hbounded.1 ⟨rfl, rfl⟩
    obtain ⟨-, hdelay⟩ := hfired (List.forall_mem_nil _)
    exact absurd hdelay (by decide)

end ApduPlay.RuleBounds
