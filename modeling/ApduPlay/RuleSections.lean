import ApduPlay.RuleFile

/-!
# Sections of rules

What the loader makes of a whole section. The key of the second line of
conditions has no colon, so no entry is ever found under it and the first line
remains the only one.
-/

namespace ApduPlay.RuleSections

open ApduRules TextNumbers TextSearch RuleFile

variable {dict : Dictionary} {sectionName valueName key text : Text} {apduDirection : ℤ}

/-- The key under which the loader looks for a second line of conditions. -/
def secondKey (sectionName : Text) : Text := sectionName ++ (ascii "MATCH" ++ decimal 2)

/-- Keys fit into their buffer, and no section is named like a setting of the
rule, since sections have null pointers for values. -/
structure ReadsSettings (dict : Dictionary) (sectionName : Text) : Prop where
  /-- The name of the section is short. -/
  short : sectionName.length ≤ 248
  /-- The settings are texts. -/
  settings : ∀ name ∈ [ascii ":USAGE", ascii ":APDUIN", ascii ":DELAY"],
    dict.getString (sectionName ++ name) ≠ none

theorem value_ok_iff : dict.value sectionName valueName = .ok text ↔
    sectionName.length + valueName.length < 256 ∧ dict.getString (sectionName ++ valueName) = some text := by
  unfold Dictionary.value
  by_cases hroom : sectionName.length + valueName.length < 256
  · rw [if_pos hroom, and_iff_right hroom]
    cases dict.getString (sectionName ++ valueName) with
    | none => exact ⟨fun h => (nomatch h), fun h => (nomatch h)⟩
    | some charValue => simp
  · rw [if_neg hroom]
    exact ⟨fun h => (nomatch h), fun h => absurd h.1 hroom⟩

theorem intValue_ok_iff (default : ℤ) : (∃ n, dict.intValue sectionName valueName default = .ok n) ↔
    sectionName.length + valueName.length < 256 ∧ dict.getString (sectionName ++ valueName) ≠ none := by
  rw [Option.ne_none_iff_exists']
  constructor
  · rintro ⟨n, hn⟩
    obtain ⟨text, htext, -⟩ := Fault.of_bind_ok hn
    obtain ⟨hroom, hfound⟩ := value_ok_iff.mp htext
    exact ⟨hroom, text, hfound⟩
  · rintro ⟨hroom, text, hfound⟩
    exact ⟨_, Fault.bind_ok (value_ok_iff.mpr ⟨hroom, hfound⟩)⟩

/-- Only sections are found under keys without a colon. -/
theorem getString_colonless (hkey : (58 : UInt8) ∉ key) (hfound : dict.getString key = some text) :
    text = [] := by
  unfold Dictionary.getString at hfound
  split at hfound
  · exact (Option.some.inj hfound).symm
  · rename_i e hentry
    have hlower : (58 : UInt8) ∉ key.map toLower := by
      intro hmem
      obtain ⟨c, hc, hcolon⟩ := List.mem_map.mp hmem
      have hsame : c = 58 := by
        unfold toLower at hcolon
        split_ifs at hcolon with hupper
        · obtain ⟨hlow, hhigh⟩ := hupper
          rw [UInt8.le_iff_toNat_le] at hlow hhigh
          have hsum := congrArg UInt8.toNat hcolon
          rw [UInt8.toNat_add] at hsum
          simp at hlow hhigh hsum
          omega
        · exact hcolon
      exact hkey (hsame ▸ hc)
    have hname : e.1 = key.map toLower := by simpa using List.find?_some hentry
    have hcolon := dict.colon_of_value e (List.mem_of_find?_eq_some hentry) (by rw [hfound]; simp)
    rw [hname] at hcolon
    exact absurd hcolon hlower

theorem secondKey_colonless (hsection : sectionName ∈ dict.sections) :
    (58 : UInt8) ∉ secondKey sectionName := by
  have hname : (58 : UInt8) ∉ sectionName := by simpa using (List.mem_filter.mp hsection).2
  rw [secondKey, List.mem_append, not_or]
  exact ⟨hname, by decide⟩

theorem loadMatch_nil (st : Loading) : loadMatch st [] = .ok st := rfl

theorem loadAction_nil (r : ApduSingleRule) : loadAction sectionName r [] = .ok (r.clear, []) := rfl

/-- The loop ends after one line, or with a null pointer. -/
theorem loadMatches_ok_iff (hsection : sectionName ∈ dict.sections) (hshort : sectionName.length ≤ 248)
    (fuel : ℕ) {st st' : Loading} :
    loadMatches dict sectionName (fuel + 2) 1 st text = .ok st' ↔
      (text ≠ [] → dict.getString (secondKey sectionName) ≠ none) ∧ loadMatch st text = .ok st' := by
  by_cases hnil : text = []
  · rw [hnil, loadMatch_nil, loadMatches, if_pos rfl]
    simp
  rw [loadMatches, if_neg hnil, Fault.bind_eq_ok]
  constructor
  · rintro ⟨st₁, hline, hrest⟩
    obtain ⟨second, hsecond, hloop⟩ := Fault.of_bind_ok hrest
    have hfound := (value_ok_iff.mp hsecond).2
    have hempty := getString_colonless (secondKey_colonless hsection) hfound
    rw [hempty, loadMatches, if_pos rfl] at hloop
    refine ⟨fun _ => ?_, hline.trans hloop⟩
    rw [secondKey, hfound]
    simp
  · rintro ⟨hnull, hline⟩
    obtain ⟨second, hfound⟩ := Option.ne_none_iff_exists'.mp (hnull hnil)
    have hempty := getString_colonless (secondKey_colonless hsection) hfound
    have hroom : sectionName.length + (ascii "MATCH" ++ decimal 2).length < 256 := by
      have hlen : (ascii "MATCH" ++ decimal 2).length = 6 := by decide
      omega
    refine ⟨st', hline, (Fault.bind_ok (value_ok_iff.mpr ⟨hroom, hfound⟩)).trans ?_⟩
    rw [hempty, loadMatches, if_pos rfl]

/-- The changes of a section. -/
theorem loadActions_ok_iff (hshort : sectionName.length ≤ 248) {r : ApduSingleRule}
    {actionRules : List ApduSingleRule} :
    loadActions dict sectionName r = .ok actionRules ↔ ∃ changes,
      dict.getString (sectionName ++ ascii ":ACTION") = some changes ∧
      ∃ st, loadAction sectionName r changes = .ok st ∧ st.2 = actionRules := by
  have hroom : sectionName.length + (ascii ":ACTION").length < 256 := by
    have hlen : (ascii ":ACTION").length = 7 := by decide
    omega
  rw [loadActions, Fault.bind_eq_ok]
  refine exists_congr fun changes => ?_
  rw [value_ok_iff, and_iff_right hroom]
  refine and_congr_right fun _ => ?_
  by_cases hnil : changes = []
  · rw [hnil, if_pos rfl, loadAction_nil]
    exact ⟨fun h => ⟨_, rfl, Except.ok.inj h⟩, fun ⟨_, hst, h⟩ => by cases hst; rw [← h]; rfl⟩
  · rw [if_neg hnil, Fault.bind_eq_ok]
    exact exists_congr fun st => and_congr_right fun _ => ⟨Except.ok.inj, congrArg Except.ok⟩

/-- A section gives a rule from its first line of conditions and its line of
changes. -/
theorem exists_loadRule (hsection : sectionName ∈ dict.sections) (hrule : isRuleSection sectionName = true)
    (hmatch : dict.getString (sectionName ++ (ascii ":MATCH" ++ decimal 1)) = some text)
    (Q : List ApduSingleRule → List ApduSingleRule → Prop) :
    (∃ rule, loadRule dict apduDirection sectionName = .ok (some rule) ∧ Q rule.matchRules rule.actionRules) ↔
      ReadsSettings dict sectionName ∧
      (text ≠ [] → dict.getString (secondKey sectionName) ≠ none) ∧
      ∃ changes, dict.getString (sectionName ++ ascii ":ACTION") = some changes ∧
        ∃ st st', loadMatch (newSingleRule apduDirection, []) text = .ok st ∧
          loadAction sectionName st.1 changes = .ok st' ∧ Q st.2 st'.2 := by
  have husage : (ascii ":USAGE").length = 6 := by decide
  have hapduin : (ascii ":APDUIN").length = 7 := by decide
  have hdelay : (ascii ":DELAY").length = 6 := by decide
  have hfirst : (ascii ":MATCH" ++ decimal 1).length = 7 := by decide
  rw [loadRule, if_pos hrule]
  constructor
  · rintro ⟨rule, hrun, hq⟩
    obtain ⟨usage, h1, hrun⟩ := Fault.of_bind_ok hrun
    obtain ⟨direction, h2, hrun⟩ := Fault.of_bind_ok hrun
    obtain ⟨msDelay, h3, hrun⟩ := Fault.of_bind_ok hrun
    obtain ⟨charValue, h4, hrun⟩ := Fault.of_bind_ok hrun
    obtain ⟨st, h5, hrun⟩ := Fault.of_bind_ok hrun
    obtain ⟨actionRules, h6, hrun⟩ := Fault.of_bind_ok hrun
    cases Except.ok.inj hrun
    obtain ⟨hroom₁, hset₁⟩ := (intValue_ok_iff _).mp ⟨usage, h1⟩
    obtain ⟨hroom₂, hset₂⟩ := (intValue_ok_iff _).mp ⟨direction, h2⟩
    obtain ⟨hroom₃, hset₃⟩ := (intValue_ok_iff _).mp ⟨msDelay, h3⟩
    have hshort : sectionName.length ≤ 248 := by omega
    have htext := (value_ok_iff.mp h4).2
    rw [hmatch] at htext
    cases htext
    obtain ⟨hsecond, hline⟩ := (loadMatches_ok_iff hsection hshort _).mp h5
    obtain ⟨changes, hchanges, st', hst', rfl⟩ := (loadActions_ok_iff hshort).mp h6
    refine ⟨⟨hshort, ?_⟩, hsecond, changes, hchanges, st, st', hline, hst', hq⟩
    simpa using ⟨hset₁, hset₂, hset₃⟩
  · rintro ⟨⟨hshort, hsettings⟩, hsecond, changes, hchanges, st, st', hline, hst', hq⟩
    simp only [List.forall_mem_cons] at hsettings
    obtain ⟨hset₁, hset₂, hset₃, -⟩ := hsettings
    obtain ⟨usage, h1⟩ := (intValue_ok_iff ApduRule.initial.usage).mpr ⟨by omega, hset₁⟩
    obtain ⟨direction, h2⟩ := (intValue_ok_iff ApduRule.initial.direction).mpr ⟨by omega, hset₂⟩
    obtain ⟨msDelay, h3⟩ := (intValue_ok_iff ApduRule.initial.msDelay).mpr ⟨by omega, hset₃⟩
    have h4 := value_ok_iff.mpr ⟨by omega, hmatch⟩
    have h5 := (loadMatches_ok_iff hsection hshort dict.entries.length).mpr ⟨hsecond, hline⟩
    have h6 := (loadActions_ok_iff hshort).mpr ⟨changes, hchanges, st', hst', rfl⟩
    refine ⟨⟨sectionName, usage, direction, st.2, st'.2, msDelay⟩, ?_, hq⟩
    refine (Fault.bind_ok h1).trans ((Fault.bind_ok h2).trans ((Fault.bind_ok h3).trans ?_))
    refine (Fault.bind_ok h4).trans ((Fault.bind_ok h5).trans ?_)
    exact Fault.bind_ok h6

/-- The dictionary of a file with one section. -/
def oneSection (sectionName : Text) (settings : List (Text × Text)) : Dictionary where
  entries := (sectionName, none) :: settings.map fun setting =>
    (sectionName ++ 58 :: setting.1, some setting.2)
  colon_of_value e he hvalue := by
    rcases List.mem_cons.mp he with rfl | he
    · exact absurd rfl hvalue
    · obtain ⟨setting, -, rfl⟩ := List.mem_map.mp he
      exact List.mem_append_right sectionName List.mem_cons_self

end ApduPlay.RuleSections
