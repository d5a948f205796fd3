import ApduPlay.RuleOffsets

/-!
# Data elements of rules

Where the bytes of a data element end up when its line is loaded.
-/

namespace ApduPlay.DataElements

open ApduRules TextNumbers RuleFile RuleElements RuleLines RuleOffsets

/-- The number of elementary rules that an element stands for. -/
def size (keywords : List (Text × ℤ)) : Element → ℕ
  | .direction _ => 0
  | .header field _ => if field.keyword ∈ keywords then 1 else 0
  | .data _ bytes => bytes.length

/-- The same for several elements. -/
def totalSize (kind : LineKind) (ws : List Written) : ℕ :=
  (ws.map fun w => size kind.keywords w.element).sum

/-- A line is loaded, and in it a data element between others gives exactly one
elementary rule for each byte, one place behind the other from its offset on. -/
def LoadsData (sectionName : Text) (kind : LineKind) (default : ℤ) (before : List Written) (w : Written)
    (after : List Written) (comma input : Bool) (offset : ℕ) (bytes : List UInt8) : Prop :=
  ∃ r rulesBefore rulesAfter,
    kind.load sectionName default (line (before ++ w :: after) comma) =
      .ok (r, rulesBefore ++ (bytes.mapIdx fun i b =>
        ⟨true, 0, directionNumber input, if input then offset + 5 + i else offset + i, b⟩) ++ rulesAfter) ∧
    rulesBefore.length = totalSize kind before ∧
    rulesAfter.length = totalSize kind (processed after comma)

variable {sectionName : Text} {kind : LineKind} {default : ℤ} {before after ws : List Written} {w : Written}
  {comma input : Bool} {offset : ℕ} {bytes : List UInt8}

/-- An element that does not stop the loader gives as many elementary rules as
it stands for. -/
theorem length_loaded_eq_size {keywords : List (Text × ℤ)} {read : ℕ → Except Fault ℤ} {e : Element}
    (h : Loads read e) (history direction : ℤ) :
    (loaded keywords read history direction e).length = size keywords e := by
  rw [length_loaded h]
  cases e with
  | direction input => rfl
  | header field value => by_cases hfield : field.keyword ∈ keywords <;> simp [meaning, size, hfield]
  | data offset bytes => simp [meaning, dataRules, size]

theorem length_rulesOf (history direction : ℤ)
    (hloads : ∀ w ∈ ws, Loads (kind.read sectionName) w.element) :
    (rulesOf (loaded kind.keywords (kind.read sectionName) history direction) ws).length =
      totalSize kind ws := by
  rw [rulesOf, List.length_flatMap, totalSize]
  exact congrArg List.sum (List.map_congr_left fun w hw => length_loaded_eq_size (hloads w hw) _ _)

/-- What a data element stands for in a line with a direction. -/
theorem meaning_data (keywords : List (Text × ℤ)) :
    meaning keywords 0 (directionNumber input) (.data offset bytes) = bytes.mapIdx fun i b =>
      ⟨true, 0, directionNumber input, if input then offset + 5 + i else offset + i, b⟩ := by
  cases input with
  | true => rfl
  | false =>
    refine List.mapIdx_eq_mapIdx_iff.mpr fun i hi => ?_
    have hbase : (offset : ℤ) + dataBase (directionNumber false) + i = offset + i := by
      rw [show dataBase (directionNumber false) = 0 from rfl, Int.add_zero]
    simp only [hbase, Bool.false_eq_true, if_false]

/-- An element with a comma is processed like those before it. -/
theorem processed_between (hcomma : comma = true ∨ after ≠ []) :
    processed (before ++ w :: after) comma = before ++ w :: processed after comma := by
  cases comma with
  | true => rfl
  | false =>
    have hafter : after ≠ [] := hcomma.resolve_left Bool.false_ne_true
    rw [processed, processed, if_neg Bool.false_ne_true, if_neg Bool.false_ne_true,
      List.dropLast_append_of_ne_nil (List.cons_ne_nil w after), List.dropLast_cons_of_ne_nil hafter]

/-- The elementary rules of one element stand between those of the others. -/
theorem load_between (default : ℤ) (hrule : isRuleSection sectionName = true)
    (hcomma : comma = true ∨ after ≠ [])
    (hinput : ((before ++ w :: after).findSome? fun v => inputOf v.element) = some input)
    (hloads : ∀ v ∈ before ++ w :: processed after comma, Loads (kind.read sectionName) v.element) :
    ∃ r rulesBefore rulesAfter, kind.load sectionName default (line (before ++ w :: after) comma) =
        .ok (r, rulesBefore ++
          loaded kind.keywords (kind.read sectionName) 0 (directionNumber input) w.element ++ rulesAfter) ∧
      rulesBefore.length = totalSize kind before ∧
      rulesAfter.length = totalSize kind (processed after comma) := by
  have hdirection : directionOf (newSingleRule default).apduDirection (before ++ w :: after) =
      directionNumber input := by
    rw [directionOf, hinput]
  rw [← processed_between hcomma] at hloads
  obtain ⟨r, hresult, -, -⟩ := (lineOutcome_load hrule kind default _ comma).ok hloads
  rw [processed_between hcomma, List.forall_mem_append, List.forall_mem_cons] at hloads
  have hsplit (f : Element → List ApduSingleRule) : rulesOf f (before ++ w :: processed after comma) =
      rulesOf f before ++ f w.element ++ rulesOf f (processed after comma) := by
    simp [rulesOf]
  rw [processed_between hcomma, List.nil_append, hdirection, hsplit] at hresult
  exact ⟨r, _, _, hresult, length_rulesOf 0 _ hloads.1, length_rulesOf 0 _ hloads.2.2⟩

/-- The bytes of a data element with a comma end up where they belong exactly if
no element of the line stops the loader and the offset of this one is read
right. -/
theorem loadsData_iff (hrule : isRuleSection sectionName = true) (hw : w.element = .data offset bytes)
    (hcomma : comma = true ∨ after ≠ [])
    (hinput : ((before ++ w :: after).findSome? fun v => inputOf v.element) = some input) :
    LoadsData sectionName kind default before w after comma input offset bytes ↔
      (∀ v ∈ before ++ w :: processed after comma, Passes sectionName kind v.element) ∧
        InPlace sectionName (directionNumber input) kind (.data offset bytes) := by
  have hpasses : (∀ v ∈ before ++ w :: processed after comma, Loads (kind.read sectionName) v.element) ↔
      ∀ v ∈ before ++ w :: processed after comma, Passes sectionName kind v.element :=
    forall₂_congr fun v _ => loads_iff
  rw [← hpasses]
  by_cases hloads : ∀ v ∈ before ++ w :: processed after comma, Loads (kind.read sectionName) v.element
  · obtain ⟨r, rulesBefore, rulesAfter, hresult, hlenBefore, hlenAfter⟩ :=
      load_between default hrule hcomma hinput hloads
    have hself : Loads (kind.read sectionName) (.data offset bytes) :=
      hw ▸ hloads w (List.mem_append_right before List.mem_cons_self)
    have hplace : loaded kind.keywords (kind.read sectionName) 0 (directionNumber input)
      (.data offset bytes) =
        meaning kind.keywords 0 (directionNumber input) (.data offset bytes) ↔
          InPlace sectionName (directionNumber input) kind (.data offset bytes) :=
      (and_iff_right hself).symm.trans ((faithful_iff hrule).trans (and_iff_right (loads_iff.mp hself)))
    rw [hw] at hresult
    rw [← hplace, meaning_data]
    constructor
    · rintro ⟨r', rulesBefore', rulesAfter', hrun, hlenBefore', hlenAfter'⟩
      rw [hresult] at hrun
      have hrules := (Prod.mk.inj (Except.ok.inj hrun)).2
      obtain ⟨hfront, -⟩ := List.append_inj' hrules (hlenAfter.trans hlenAfter'.symm)
      exact ⟨hloads, (List.append_inj hfront (hlenBefore.trans hlenBefore'.symm)).2⟩
    · rintro ⟨-, hsame⟩
      rw [hsame] at hresult
      exact ⟨r, _, _, hresult, hlenBefore, hlenAfter⟩
  · have hfails := hloads
    rw [← processed_between hcomma] at hfails
    obtain ⟨fault, hfault⟩ := (lineOutcome_load hrule kind default _ comma).fail hfails
    constructor
    · rintro ⟨r, rulesBefore, rulesAfter, hrun, -⟩
      rw [hfault] at hrun
      cases hrun
    · rintro ⟨hall, -⟩
      exact absurd hall hloads

/-- Data of an incoming APDU. -/
def dataLine (offset : ℕ) : List Written :=
  [(Element.direction true).written, (Element.data offset [0xAB]).written]

/-- Changes in the section of the first rule have their offset. -/
theorem loadsData_changes :
    LoadsData (ascii "rule1") .changes 0 [(Element.direction true).written]
      (Element.data 12 [0xAB]).written [] true true 12 [0xAB] := by
  refine (loadsData_iff (by decide) rfl (Or.inl rfl) rfl).mpr ⟨?_, Or.inr ⟨Or.inl (by decide), by decide⟩⟩
  have hpasses : Passes (ascii "rule1") .changes (.data 12 [0xAB]) := ⟨by decide, 4, by decide, by decide⟩
  exact List.forall_mem_cons.mpr ⟨trivial, List.forall_mem_singleton.mpr hpasses⟩

/-- Conditions lose their offset, and in a section without a digit changes
throw an exception. -/
theorem not_loadsData :
    ¬ LoadsData (ascii "rule1") .conditions 0 [(Element.direction true).written]
        (Element.data 12 [0xAB]).written [] true true 12 [0xAB] ∧
      LineKind.changes.load (ascii "rules") 0 (line (dataLine 12) true) = .error .outOfRange := by
  constructor
  · have hrun : LineKind.conditions.load (ascii "rule1") 0 (line (dataLine 12) true) =
        .ok (⟨true, 0, 1, 5, 0xAB⟩, [⟨true, 0, 1, 5, 0xAB⟩]) := by
      decide +kernel
    rintro ⟨r, rulesBefore, rulesAfter, h, hbefore, hafter⟩
    rw [List.length_eq_zero_iff.mp hbefore, List.length_eq_zero_iff.mp hafter] at h
    exact absurd (hrun.symm.trans h) (by simp)
  · decide +kernel

end ApduPlay.DataElements
