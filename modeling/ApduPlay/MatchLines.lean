import ApduPlay.Library.CheckedSteps
import ApduPlay.RuleSections

/-!
# Several lines of conditions

The conditions of all lines together, and when a section with several lines is
loaded with all of them.
-/

namespace ApduPlay.MatchLines

open ApduRules TextNumbers TextSearch RuleFile RuleSections CheckedSteps

/-- Elementary rules are added, none exactly if something holds. -/
def Grows (quiet : Prop) (rules rules' : List ApduSingleRule) : Prop :=
  ∃ new, rules' = rules ++ new ∧ (new = [] ↔ quiet)

/-- A part of a line gives no elementary rules. -/
def Silent (keywords : List (Text × ℤ)) (rulePart : Text) : Prop :=
  (∀ keyword ∈ keywords, ¬ compareWithNoCase (elemNameOf rulePart) keyword.1 = true) ∧
    (compareWithNoCase ((elemNameOf rulePart).take 4) (ascii "DATA") = true →
      byteConvertFromHexString ((elemValueOf rulePart).filter (· != 44)) = [])

/-- A part of a line does not stop the loader. -/
def Loadable (offsetOf : Text → Except Fault ℤ) (rulePart : Text) : Prop :=
  compareWithNoCase ((elemNameOf rulePart).take 4) (ascii "DATA") = true →
    (∃ offset, offsetOf (elemNameOf rulePart) = .ok offset) ∧
      (byteConvertFromHexString ((elemValueOf rulePart).filter (· != 44))).length ≤ maxApduLength

/-- The parts of a line of conditions, without its history and its direction. -/
def matchParts (charValue : Text) : List Text :=
  parts 44 (readDirection (newSingleRule 0) (readHistory (newSingleRule 0) (charValue ++ [32])).2).2

/-- The parts of a line of changes, without its direction. -/
def actionParts (charValue : Text) : List Text :=
  parts 44 (readDirection (newSingleRule 0) (charValue ++ [32])).2

/-- A line of conditions without conditions. -/
def SaysNothing (charValue : Text) : Prop := ∀ rulePart ∈ matchParts charValue, Silent matchKeywords rulePart

variable {quiet quiet' : Prop} {rules rules' rules'' : List ApduSingleRule} {rulePart charValue : Text}
  {st st' : Loading} {keywords : List (Text × ℤ)} {offsetOf : Text → Except Fault ℤ}

/-- Rules that stay do not grow. -/
theorem Grows.refl (h : quiet) : Grows quiet rules rules :=
  ⟨[], (List.append_nil rules).symm, ⟨fun _ => h, fun _ => rfl⟩⟩

/-- Rules grow step by step. -/
theorem Grows.trans (h : Grows quiet rules rules') (h' : Grows quiet' rules' rules'') :
    Grows (quiet ∧ quiet') rules rules'' := by
  obtain ⟨new, rfl, hnew⟩ := h
  obtain ⟨new', rfl, hnew'⟩ := h'
  exact ⟨new ++ new', List.append_assoc _ _ _, by rw [List.append_eq_nil_iff, hnew, hnew']⟩

/-- The condition may be put in another way. -/
theorem Grows.congr (h : Grows quiet rules rules') (hiff : quiet ↔ quiet') : Grows quiet' rules rules' := by
  obtain ⟨new, hrules, hnew⟩ := h
  exact ⟨new, hrules, hnew.trans hiff⟩

/-- They stay exactly if every step is quiet. -/
theorem Grows.eq_iff (h : Grows quiet rules rules') : rules = rules' ↔ quiet := by
  obtain ⟨new, rfl, hnew⟩ := h
  rw [← hnew, List.self_eq_append_right]

/-- A rule that is pushed is a new one. -/
theorem grows_pushRule (element : ℤ) (value : UInt8) : Grows False st.2 (pushRule st element value).2 :=
  ⟨_, rfl, by simp⟩

/-- A header byte is a rule exactly if its keyword is there. -/
theorem grows_loadHeader (keyword : Text × ℤ) :
    Grows (¬ compareWithNoCase (elemNameOf rulePart) keyword.1 = true)
      st.2 (loadHeader rulePart st keyword).2 := by
  unfold loadHeader
  split_ifs with hname
  · exact (grows_pushRule _ _).congr ⟨False.elim, fun h => h hname⟩
  · exact Grows.refl hname

/-- So it is for all header bytes. -/
theorem grows_loadHeaders (rulePart : Text) (keywords : List (Text × ℤ)) (st : Loading) :
    Grows (∀ keyword ∈ keywords, ¬ compareWithNoCase (elemNameOf rulePart) keyword.1 = true) st.2
      (keywords.foldl (loadHeader rulePart) st).2 := by
  induction keywords generalizing st with
  | nil => exact Grows.refl (List.forall_mem_nil _)
  | cons keyword keywords ih =>
    exact ((grows_loadHeader keyword).trans (ih _)).congr (by rw [List.forall_mem_cons])

/-- Every byte of data is a rule. -/
theorem grows_loadBytes (offset : ℤ) (bytes : List UInt8) (st : Loading) :
    Grows (bytes = []) st.2 (loadBytes st offset bytes).2 := by
  induction bytes generalizing offset st with
  | nil => exact Grows.refl rfl
  | cons b bytes ih => exact ((grows_pushRule _ _).trans (ih _ _)).congr (by simp)

/-- A part adds elementary rules unless it is silent. -/
theorem grows_loadPart (h : loadPart keywords offsetOf st rulePart = .ok st') :
    Grows (Silent keywords rulePart) st.2 st'.2 := by
  have hheaders := grows_loadHeaders rulePart keywords st
  unfold loadPart loadData at h
  split_ifs at h with hdata
  · obtain ⟨offset, -, hbytes⟩ := Fault.of_bind_ok h
    dsimp only at hbytes
    split_ifs at hbytes with hroom
    cases hbytes
    exact (hheaders.trans (grows_loadBytes _ _ _)).congr
      (and_congr_right fun _ => ⟨fun hnil _ => hnil, fun hnil => hnil hdata⟩)
  · cases h
    exact hheaders.congr ⟨fun hnone => ⟨hnone, fun hname => absurd hname hdata⟩, fun hnone => hnone.1⟩

/-- A loop grows by what its rounds do. -/
theorem grows_foldlM {α : Type} {step : Loading → α → Except Fault Loading} {silent : α → Prop}
    (hstep : ∀ st a st', step st a = .ok st' → Grows (silent a) st.2 st'.2) (st : Loading) (as : List α)
    (h : as.foldlM step st = .ok st') : Grows (∀ a ∈ as, silent a) st.2 st'.2 := by
  induction as generalizing st with
  | nil =>
    cases h
    exact Grows.refl (List.forall_mem_nil _)
  | cons a as ih =>
    rw [List.foldlM_cons] at h
    obtain ⟨st₁, hfirst, hrest⟩ := Fault.of_bind_ok h
    exact ((hstep st a st₁ hfirst).trans (ih _ hrest)).congr (by rw [List.forall_mem_cons])

/-- The text that is left does not depend on the rule. -/
theorem readHistory_text (r r' : ApduSingleRule) (s : Text) : (readHistory r s).2 = (readHistory r' s).2 := by
  unfold readHistory
  split <;> rfl

/-- Nor does it behind a direction. -/
theorem readDirection_text (r r' : ApduSingleRule) (s : Text) :
    (readDirection r s).2 = (readDirection r' s).2 := by
  unfold readDirection
  split <;> rfl

/-- The parts of a line of conditions do not depend on what was loaded before. -/
theorem parts_matchParts (r : ApduSingleRule) (charValue : Text) :
    parts 44 (readDirection (readHistory r (charValue ++ [32])).1 (readHistory r (charValue ++ [32])).2).2 =
      matchParts charValue := by
  rw [matchParts, readHistory_text r (newSingleRule 0), readDirection_text _ (newSingleRule 0)]

/-- The parts of an action, with the blank at its end. -/
theorem parts_actionParts (r : ApduSingleRule) (charValue : Text) :
    parts 44 (readDirection r (charValue ++ [32])).2 = actionParts charValue := by
  rw [actionParts, readDirection_text r (newSingleRule 0)]

/-- A line of conditions adds conditions unless it says nothing. -/
theorem grows_loadMatch (h : loadMatch st charValue = .ok st') : Grows (SaysNothing charValue)
    st.2 st'.2 := by
  have hstep : ∀ (st : Loading) (part : Text) (st' : Loading),
      loadPart matchKeywords matchOffset st part = .ok st' → Grows (Silent matchKeywords part) st.2 st'.2 :=
    fun _ _ _ hpart => grows_loadPart hpart
  simp only [loadMatch, loadParts, parts_matchParts] at h
  have hgrows := grows_foldlM hstep _ _ h
  exact hgrows

/-- Which parts do not stop the loader. -/
theorem exists_loadPart_ok (st : Loading) (rulePart : Text) :
    (∃ st', loadPart keywords offsetOf st rulePart = .ok st') ↔ Loadable offsetOf rulePart := by
  unfold loadPart loadData Loadable
  split_ifs with hdata
  · rw [forall_prop_of_true hdata]
    constructor
    · rintro ⟨st', h⟩
      obtain ⟨offset, hoffset, hbytes⟩ := Fault.of_bind_ok h
      dsimp only at hbytes
      split_ifs at hbytes with hroom
      exact ⟨⟨offset, hoffset⟩, hroom⟩
    · rintro ⟨⟨offset, hoffset⟩, hroom⟩
      exact ⟨_, (Fault.bind_ok hoffset).trans (if_pos hroom)⟩
  · exact ⟨fun _ h => absurd h hdata, fun _ => ⟨_, rfl⟩⟩

/-- Which lines of conditions are loaded. -/
theorem exists_loadMatch_ok (st : Loading) (charValue : Text) :
    (∃ st', loadMatch st charValue = .ok st') ↔
      ∀ rulePart ∈ matchParts charValue, Loadable matchOffset rulePart := by
  simp only [loadMatch, loadParts, parts_matchParts]
  exact exists_foldlM_ok exists_loadPart_ok _ _

/-- Which lines of changes are loaded. -/
theorem exists_loadAction_ok (sectionName : Text) (r : ApduSingleRule) (charValue : Text) :
    (∃ st, loadAction sectionName r charValue = .ok st) ↔
      ∀ rulePart ∈ actionParts charValue, Loadable (actionOffset sectionName) rulePart := by
  simp only [loadAction, loadParts, parts_actionParts]
  exact exists_foldlM_ok exists_loadPart_ok _ _

/-- Conditions hold only if each of them does. -/
theorem testMatch_of_testAllMatch {app : WinscardApp} {conditions : List ApduSingleRule}
    (h : app.testAllMatch conditions = .ok true) : ∀ r ∈ conditions, app.testMatch r = .ok true := by
  induction conditions with
  | nil => exact List.forall_mem_nil _
  | cons r conditions ih =>
    obtain ⟨b, hb, hrest⟩ := Fault.of_bind_ok h
    cases b with
    | true => exact List.forall_mem_cons.mpr ⟨hb, ih hrest⟩
    | false => cases hrest

/-- The section gives a rule with these conditions, which is applied only when
all of them hold. -/
def LoadsAllLines (dict : Dictionary) (apduDirection : ℤ) (sectionName : Text)
    (conditions : List ApduSingleRule) : Prop :=
  ∃ rule, loadRule dict apduDirection sectionName = .ok (some rule) ∧ rule.matchRules = conditions ∧
    ∀ app : WinscardApp, app.testAllMatch rule.matchRules = .ok true →
      ∀ r ∈ conditions, app.testMatch r = .ok true

/-- A rule has the conditions of all lines exactly if the lines after the first
say nothing, and nothing else in the section stops the loader. -/
theorem loadsAllLines_iff {dict : Dictionary} {apduDirection : ℤ} {sectionName text : Text}
    {lines : List Text}
    {r : ApduSingleRule} {conditions : List ApduSingleRule} (hsection : sectionName ∈ dict.sections)
    (hrule : isRuleSection sectionName = true)
    (hkeys : ∀ (i : ℕ) (h : i < (text :: lines).length),
      dict.getString (sectionName ++ (ascii ":MATCH" ++ decimal (i + 1))) = some (text :: lines)[i])
    (hlines : ∀ t ∈ text :: lines, t ≠ [])
    (hconditions : (text :: lines).foldlM loadMatch (newSingleRule apduDirection, []) = .ok (r, conditions)) :
    LoadsAllLines dict apduDirection sectionName conditions ↔
      ReadsSettings dict sectionName ∧ dict.getString (secondKey sectionName) ≠ none ∧
      (∃ changes, dict.getString (sectionName ++ ascii ":ACTION") = some changes ∧
        ∀ rulePart ∈ actionParts changes, Loadable (actionOffset sectionName) rulePart) ∧
      ∀ t ∈ lines, SaysNothing t := by
  rw [List.foldlM_cons] at hconditions
  obtain ⟨st, hfirst, hrest⟩ := Fault.of_bind_ok hconditions
  have hquiet : st.2 = conditions ↔ ∀ t ∈ lines, SaysNothing t :=
    (grows_foldlM (fun _ _ _ hline => grows_loadMatch hline) st lines hrest).eq_iff
  have hall : LoadsAllLines dict apduDirection sectionName conditions ↔
      ∃ rule, loadRule dict apduDirection sectionName = .ok (some rule) ∧ rule.matchRules = conditions :=
    exists_congr fun rule => and_congr_right fun _ =>
      ⟨And.left, fun hsame => ⟨hsame, fun app happ => testMatch_of_testAllMatch (hsame ▸ happ)⟩⟩
  have hkey : dict.getString (sectionName ++ (ascii ":MATCH" ++ decimal 1)) = some text := hkeys 0 (by simp)
  rw [hall, exists_loadRule hsection hrule hkey fun matchRules _ => matchRules = conditions]
  have hne : text ≠ [] := hlines text List.mem_cons_self
  constructor
  · rintro ⟨hsettings, hsecond, changes, hchanges, st₁, st', hline, haction, hsame⟩
    rw [hfirst] at hline
    cases hline
    exact ⟨hsettings, hsecond hne, ⟨changes, hchanges, (exists_loadAction_ok _ _ _).mp ⟨st', haction⟩⟩,
      hquiet.mp hsame⟩
  · rintro ⟨hsettings, hsecond, ⟨changes, hchanges, hloadable⟩, hsilent⟩
    obtain ⟨st', haction⟩ := (exists_loadAction_ok sectionName st.1 changes).mpr hloadable
    exact ⟨hsettings, fun _ => hsecond, changes, hchanges, st, st', hfirst, haction, hquiet.mpr hsilent⟩

/-- A rule with two lines of conditions, on the class and the instruction. -/
def twoLines (second : Text) : Dictionary :=
  oneSection (ascii "rule1")
    [(ascii "match1", ascii "in=1,cla=00,"), (ascii "match2", second), (ascii "action", ascii "in=1,p1=00,")]

/-- The conditions are looked up under numbered keys. -/
theorem match_keys : ∀ i < 2, (twoLines (ascii "in=1,")).getString (ascii "rule1" ++
    (ascii ":MATCH" ++ decimal (i + 1))) = [ascii "in=1,cla=00,", ascii "in=1,"][i]? := by
  decide +kernel

/-- A second line without conditions does no harm. -/
theorem loadsAllLines_silent :
    LoadsAllLines (twoLines (ascii "in=1,")) 0 (ascii "rule1") [⟨true, 0, inputApdu, 0, 0x00⟩] := by
  have hconditions : [ascii "in=1,cla=00,", ascii "in=1,"].foldlM loadMatch (newSingleRule 0, []) =
      .ok (⟨true, 0, inputApdu, 0, 0x00⟩, [⟨true, 0, inputApdu, 0, 0x00⟩]) := by
    decide +kernel
  refine (loadsAllLines_iff (by decide +kernel) (by decide) (fun i hi => ?_) (by decide) hconditions).mpr ?_
  · rw [match_keys i hi, List.getElem?_eq_getElem hi]
  · refine ⟨⟨by decide, by decide +kernel⟩, by decide +kernel,
      ⟨ascii "in=1,p1=00,", by decide +kernel, ?_⟩, ?_⟩
    · have hparts : actionParts (ascii "in=1,p1=00,") = [ascii "p1=00,"] := by decide +kernel
      rw [hparts, List.forall_mem_singleton]
      exact fun hdata => absurd hdata (by decide)
    · have hparts : matchParts (ascii "in=1,") = [] := by decide +kernel
      rw [List.forall_mem_singleton, SaysNothing, hparts]
      exact List.forall_mem_nil _

/-- A second line with a condition is lost. -/
theorem not_loadsAllLines :
    [ascii "in=1,cla=00,", ascii "in=1,ins=a4,"].foldlM loadMatch (newSingleRule 0, []) =
        .ok (⟨true, 0, inputApdu, 1, 0xA4⟩, [⟨true, 0, inputApdu, 0, 0x00⟩, ⟨true, 0, inputApdu, 1, 0xA4⟩]) ∧
      ¬ LoadsAllLines (twoLines (ascii "in=1,ins=a4,")) 0 (ascii "rule1")
        [⟨true, 0, inputApdu, 0, 0x00⟩, ⟨true, 0, inputApdu, 1, 0xA4⟩] := by
  refine ⟨by decide +kernel, ?_⟩
  have hrun : loadRule (twoLines (ascii "in=1,ins=a4,")) 0 (ascii "rule1") =
      .ok (some ⟨ascii "rule1", 0, inputApdu, [⟨true, 0, inputApdu, 0, 0x00⟩],
        [⟨true, 0, inputApdu, 2, 0x00⟩], 0⟩) := by
    decide +kernel
  rintro ⟨rule, h, hsame, -⟩
  rw [hrun] at h
  cases h
  exact absurd hsame (by decide)

end ApduPlay.MatchLines
