import ApduPlay.RuleOffsets
import ApduPlay.RuleSections

/-!
# Values of rules

When a section is loaded as its elements are written, with a comma behind the
last one or without.
-/

namespace ApduPlay.RuleValues

open ApduRules TextNumbers RuleFile RuleElements RuleLines RuleOffsets RuleSections

/-- The section gives a rule with the conditions and the changes of all
elements, each once and in order. -/
def LoadsElements (dict : Dictionary) (apduDirection : ℤ) (sectionName : Text)
    (conditions changes : List Written) :
    Prop :=
  ∃ rule, loadRule dict apduDirection sectionName = .ok (some rule) ∧
    rule.matchRules =
      rulesOf (meaning matchKeywords 0 (directionOf apduDirection conditions)) conditions ∧
    rule.actionRules =
      rulesOf (meaning actionKeywords 0 (directionOf (directionOf apduDirection conditions) changes)) changes

/-- A line is loaded as it is written. Nothing is lost at its end, and each
element with a comma does not stop the loader and has its bytes where they belong. -/
structure LineFits (sectionName : Text) (kind : LineKind) (apduDirection : ℤ) (ws : List Written)
    (comma : Bool) : Prop where
  /-- The last element has a comma or stands for nothing. -/
  complete : Complete kind.keywords ws comma
  /-- The elements with a comma are loaded as they are written. -/
  fits : ∀ w ∈ processed ws comma, Passes sectionName kind w.element ∧
    InPlace sectionName (directionOf apduDirection ws) kind w.element

variable {dict : Dictionary} {apduDirection : ℤ} {sectionName : Text} {kind : LineKind}
  {conditions changes ws : List Written} {comma comma' : Bool}

theorem line_eq_nil : line ws comma = [] ↔ ws = [] := by
  cases ws with
  | nil => exact ⟨fun _ => rfl, fun _ => rfl⟩
  | cons w ws =>
    have htext : w.text ≠ [] := by
      obtain ⟨element, text, spells⟩ := w
      cases spells <;> simp [ascii]
    cases ws <;> simp [line, htext]

/-- When a single line is loaded as it is written. -/
theorem load_line_iff (hrule : isRuleSection sectionName = true) (kind : LineKind) (apduDirection : ℤ)
    (ws : List Written) (comma : Bool) :
    (∃ st, kind.load sectionName apduDirection (line ws comma) = .ok st ∧
      st.2 = rulesOf (meaning kind.keywords 0 (directionOf apduDirection ws)) ws) ↔
      LineFits sectionName kind apduDirection ws comma := by
  have hfaithful := faithful_line_iff (lineOutcome_load hrule kind apduDirection ws comma)
  simp only [faithful_iff hrule, List.nil_append] at hfaithful
  exact hfaithful.trans ⟨fun h => ⟨h.1, h.2⟩, fun h => ⟨h.complete, h.fits⟩⟩

/-- A section is loaded as its elements are written exactly if both lines are
and nothing else in it stops the loader. -/
theorem loadsElements_iff (hsection : sectionName ∈ dict.sections) (hrule : isRuleSection sectionName = true)
    (hmatch : dict.getString (sectionName ++ (ascii ":MATCH" ++ decimal 1)) = some (line conditions comma))
    (haction : dict.getString (sectionName ++ ascii ":ACTION") = some (line changes comma')) :
    LoadsElements dict apduDirection sectionName conditions changes ↔
      ReadsSettings dict sectionName ∧ (conditions ≠ [] → dict.getString (secondKey sectionName) ≠ none) ∧
      LineFits sectionName .conditions apduDirection conditions comma ∧
      LineFits sectionName .changes (directionOf apduDirection conditions) changes comma' := by
  rw [LoadsElements, exists_loadRule hsection hrule hmatch fun matchRules actionRules =>
    matchRules = rulesOf (meaning matchKeywords 0 (directionOf apduDirection conditions)) conditions ∧
      actionRules =
        rulesOf
          (meaning actionKeywords 0 (directionOf (directionOf apduDirection conditions) changes)) changes,
    ne_eq, line_eq_nil, ← load_line_iff hrule, ← load_line_iff hrule]
  refine and_congr_right fun _ => and_congr_right fun _ => ?_
  have hdirection {st : Loading}
      (hst : loadMatch (newSingleRule apduDirection, []) (line conditions comma) = .ok st) :
      st.1.apduDirection = directionOf apduDirection conditions :=
    apduDirection_line (lineOutcome_load hrule .conditions apduDirection conditions comma) hst
  have hclear (r : ApduSingleRule) (text : Text) :
      loadAction sectionName r text = loadAction sectionName (newSingleRule r.apduDirection) text := rfl
  constructor
  · rintro ⟨text, htext, st, st', hst, hst', hconditions, hchanges⟩
    rw [haction] at htext
    cases htext
    rw [hclear, hdirection hst] at hst'
    exact ⟨⟨st, hst, hconditions⟩, ⟨st', hst', hchanges⟩⟩
  · rintro ⟨⟨st, hst, hconditions⟩, ⟨st', hst', hchanges⟩⟩
    refine ⟨_, haction, st, st', hst, ?_, hconditions, hchanges⟩
    rw [hclear, hdirection hst]
    exact hst'

/-- A section with these lines. -/
def lines (conditions changes : Text) : Dictionary :=
  oneSection (ascii "rule1") [(ascii "match1", conditions), (ascii "action", changes)]

/-- The class of incoming APDUs is compared. -/
def comparedClass : List Written := [(Element.direction true).written, (Element.header .cla 0x00).written]

/-- A parameter is changed. -/
def changedParameter : List Written := [(Element.header .p1 0x01).written]

/-- With commas behind the last elements both lines are loaded. -/
theorem loadsElements_commas :
    LoadsElements (lines (ascii "in=1,CLA=00,") (ascii "P1=01,")) 0 (ascii "rule1") comparedClass
      changedParameter := by
  have hmatch : (lines (ascii "in=1,CLA=00,") (ascii "P1=01,")).getString
      (ascii "rule1" ++ (ascii ":MATCH" ++ decimal 1)) = some (line comparedClass true) := by decide +kernel
  have haction : (lines (ascii "in=1,CLA=00,") (ascii "P1=01,")).getString
      (ascii "rule1" ++ ascii ":ACTION") = some (line changedParameter true) := by decide +kernel
  refine (loadsElements_iff (by decide +kernel) (by decide) hmatch haction).mpr
    ⟨⟨by decide, by decide +kernel⟩, fun _ => by decide +kernel, ⟨Or.inl rfl, ?_⟩, ⟨Or.inl rfl, ?_⟩⟩
  · exact List.forall_mem_cons.mpr ⟨⟨trivial, trivial⟩, List.forall_mem_singleton.mpr ⟨trivial, trivial⟩⟩
  · exact List.forall_mem_singleton.mpr ⟨trivial, trivial⟩

/-- Without a comma the last condition is lost. -/
theorem not_loadsElements_noComma :
    line comparedClass false = ascii "in=1,CLA=00" ∧
      ¬ LoadsElements (lines (ascii "in=1,CLA=00") (ascii "P1=01,")) 0 (ascii "rule1") comparedClass
        changedParameter := by
  refine ⟨by decide +kernel, ?_⟩
  have hrun : loadRule (lines (ascii "in=1,CLA=00") (ascii "P1=01,")) 0 (ascii "rule1") =
      .ok (some ⟨ascii "rule1", 0, inputApdu, [], [⟨true, 0, inputApdu, 2, 0x01⟩], 0⟩) := by
    decide +kernel
  rintro ⟨rule, h, hsame, -⟩
  rw [hrun] at h
  cases h
  exact absurd hsame (by decide +kernel)

end ApduPlay.RuleValues
