import ApduPlay.MatchLines
import ApduPlay.RuleElements
import ApduPlay.RuleEvaluation

/-!
# Places of changes

What the parts of a line of changes do to an APDU. The expected length has a
number among those of the bytes, and data may be given any offset.
-/

namespace ApduPlay.ActionPlaces

open ApduRules MatchLines RuleElements RuleEvaluation RuleFile TextNumbers TextSearch

/-- The change can change the length of an APDU. -/
def ChangesLength (action : ApduSingleRule) : Prop :=
  ∃ w w', applyAction w action = .ok w' ∧ w'.pcbLength ≠ w.pcbLength

/-- The change is made in every APDU of the direction, and it leaves the length
alone and all bytes before the data. -/
def RewritesData (direction : ℤ) (action : ApduSingleRule) : Prop :=
  ∀ w, FullBuffer w → ∃ w', applyAction w action = .ok w' ∧ w'.pcbLength = w.pcbLength ∧
    ∀ i : ℕ, (i : ℤ) < dataBase direction → w'.newBuffer[i]? = w.newBuffer[i]?

/-- A part that gives the expected length. -/
def IsLength (rulePart : Text) : Prop := compareWithNoCase (elemNameOf rulePart) (ascii "LE") = true

/-- A part that gives data. -/
def IsData (rulePart : Text) : Prop := compareWithNoCase ((elemNameOf rulePart).take 4) (ascii "DATA") = true

instance (rulePart : Text) : Decidable (IsData rulePart) := inferInstanceAs (Decidable (_ = _))

/-- Its bytes. -/
def dataOf (rulePart : Text) : List UInt8 :=
  byteConvertFromHexString ((elemValueOf rulePart).filter (· != 44))

/-- The elementary rule in which the parts of a line are loaded. -/
def lineRule (singleRule : ApduSingleRule) (charValue : Text) : ApduSingleRule :=
  (readDirection singleRule.clear (charValue ++ [32])).1

/-- The changes that a part of a line makes. -/
def partActions (sectionName : Text) (singleRule : ApduSingleRule) (charValue rulePart : Text) :
    List ApduSingleRule :=
  match loadPart actionKeywords (actionOffset sectionName) (lineRule singleRule charValue, []) rulePart with
  | .error _ => []
  | .ok st => st.2

/-- The changes are those of the parts of the line. Only parts that give the
expected length make changes that change it, and parts that give data rewrite
nothing but data. -/
structure ActsAsWritten (sectionName : Text) (singleRule : ApduSingleRule) (charValue : Text)
    (direction : ℤ) : Prop where
  /-- The line is loaded part by part. -/
  parts : ∃ r, loadAction sectionName singleRule charValue =
    .ok (r, (actionParts charValue).flatMap (partActions sectionName singleRule charValue))
  /-- Changes of the length. -/
  length : ∀ rulePart ∈ actionParts charValue,
    ∀ action ∈ partActions sectionName singleRule charValue rulePart,
    ChangesLength action → IsLength rulePart
  /-- Changes of data. -/
  data : ∀ rulePart ∈ actionParts charValue, IsData rulePart →
    ∀ action ∈ partActions sectionName singleRule charValue rulePart, RewritesData direction action

/-- The data lie between the header and the number of the expected length. -/
def DataInPlace (sectionName : Text) (singleRule : ApduSingleRule) (charValue : Text) (direction : ℤ)
    (rulePart : Text) : Prop :=
  ∀ offset, actionOffset sectionName (elemNameOf rulePart) = .ok offset → dataOf rulePart = [] ∨
    dataBase direction ≤ offset + dataBase (lineRule singleRule charValue).apduDirection ∧
      offset + dataBase (lineRule singleRule charValue).apduDirection + (dataOf rulePart).length ≤ leElem

variable {sectionName charValue rulePart : Text} {singleRule action : ApduSingleRule} {direction : ℤ}
  {keywords : List (Text × ℤ)} {offsetOf : Text → Except Fault ℤ} {history apduDirection : ℤ} {st : Loading}

/-- The elementary rules of a part for bytes of the header. -/
def headerRules (keywords : List (Text × ℤ)) (history apduDirection : ℤ) (rulePart : Text) :
    List ApduSingleRule :=
  (keywords.filter fun keyword => compareWithNoCase (elemNameOf rulePart) keyword.1).map fun keyword =>
    ⟨true, history, apduDirection, keyword.2, byteConvertFromHexNumToByte ((elemValueOf rulePart).take 2)⟩

/-- The elementary rules of a part. -/
def partRules (keywords : List (Text × ℤ)) (offsetOf : Text → Except Fault ℤ) (history apduDirection : ℤ)
    (rulePart : Text) : List ApduSingleRule :=
  headerRules keywords history apduDirection rulePart ++
    if IsData rulePart then
      match offsetOf (elemNameOf rulePart) with
      | .error _ => []
      | .ok offset =>
        dataRules history apduDirection (fun i => wrapInt (offset + dataBase apduDirection + i))
        (dataOf rulePart)
    else []

theorem foldl_loadHeader_rules (keywords : List (Text × ℤ)) (rulePart : Text) (st : Loading) :
    ∃ r, keywords.foldl (loadHeader rulePart) st =
        (r, st.2 ++ headerRules keywords st.1.history st.1.apduDirection rulePart) ∧
      r.history = st.1.history ∧ r.apduDirection = st.1.apduDirection := by
  induction keywords generalizing st with
  | nil => exact ⟨st.1, by simp [headerRules], rfl, rfl⟩
  | cons keyword rest ih =>
    obtain ⟨r, hr, hhistory, hdirection⟩ := ih (loadHeader rulePart st keyword)
    rw [List.foldl_cons, hr]
    by_cases hname : compareWithNoCase (elemNameOf rulePart) keyword.1 = true
    · have hstep : loadHeader rulePart st keyword = pushRule st keyword.2
          (byteConvertFromHexNumToByte ((elemValueOf rulePart).take 2)) := if_pos hname
      rw [hstep] at hhistory hdirection ⊢
      refine ⟨r, ?_, hhistory, hdirection⟩
      simp [headerRules, pushRule, hname]
    · have hstep : loadHeader rulePart st keyword = st := if_neg hname
      rw [hstep] at hhistory hdirection ⊢
      refine ⟨r, ?_, hhistory, hdirection⟩
      simp [headerRules, hname]

/-- Offsets that are read are values of an `int`. -/
theorem isInt_actionOffset {name : Text} {offset : ℤ} (h : actionOffset sectionName name = .ok offset) :
    IsInt offset := by
  unfold actionOffset at h
  split at h
  · cases h
  · split_ifs at h
    cases h
    exact isInt_strtol 10 _

/-- A part that can be loaded adds its elementary rules. -/
theorem loadPart_rules (hints : ∀ name offset, offsetOf name = .ok offset → IsInt offset)
    (h : Loadable offsetOf rulePart) (st : Loading) :
    ∃ r, loadPart keywords offsetOf st rulePart =
        .ok (r, st.2 ++ partRules keywords offsetOf st.1.history st.1.apduDirection rulePart) ∧
      r.history = st.1.history ∧ r.apduDirection = st.1.apduDirection := by
  obtain ⟨r, hheader, hhistory, hdirection⟩ := foldl_loadHeader_rules keywords rulePart st
  unfold loadPart loadData partRules
  rw [hheader]
  by_cases hdata : IsData rulePart
  · obtain ⟨⟨offset, hoffset⟩, hroom⟩ := h hdata
    have hname : compareWithNoCase ((elemNameOf rulePart).take 4) (ascii "DATA") = true := hdata
    rw [if_pos hname, if_pos hdata, Fault.bind_ok hoffset, hoffset]
    dsimp only
    obtain ⟨r', hbytes, hhistory', hdirection'⟩ := loadBytes_eq (hints _ _ hoffset) (dataOf rulePart)
      (r, st.2 ++ headerRules keywords st.1.history st.1.apduDirection rulePart)
    refine ⟨r', ?_, hhistory'.trans hhistory, hdirection'.trans hdirection⟩
    rw [if_pos hroom, ← dataOf, hbytes, ← hhistory, ← hdirection, List.append_assoc]
    rfl
  · have hname : ¬ compareWithNoCase ((elemNameOf rulePart).take 4) (ascii "DATA") = true := hdata
    rw [if_neg hname, if_neg hdata, List.append_nil]
    exact ⟨r, rfl, hhistory, hdirection⟩

/-- All parts together. -/
theorem loadParts_rules (hints : ∀ name offset, offsetOf name = .ok offset → IsInt offset)
    (rules : List Text) (h : ∀ rulePart ∈ rules, Loadable offsetOf rulePart) (st : Loading) :
    ∃ r, rules.foldlM (loadPart keywords offsetOf) st =
      .ok (r, st.2 ++ rules.flatMap (partRules keywords offsetOf st.1.history st.1.apduDirection)) := by
  induction rules generalizing st with
  | nil => exact ⟨st.1, by simp [pure, Except.pure]⟩
  | cons rulePart rest ih =>
    obtain ⟨hpart, hrest⟩ := List.forall_mem_cons.mp h
    obtain ⟨r, hload, hhistory, hdirection⟩ := loadPart_rules hints hpart st
    obtain ⟨r', hloads⟩ := ih hrest
      (r, st.2 ++ partRules keywords offsetOf st.1.history st.1.apduDirection rulePart)
    refine ⟨r', ?_⟩
    rw [List.foldlM_cons, Fault.bind_ok hload, hloads, hhistory, hdirection, List.flatMap_cons,
      List.append_assoc]

theorem partActions_eq (h : Loadable (actionOffset sectionName) rulePart) :
    partActions sectionName singleRule charValue rulePart =
      partRules actionKeywords (actionOffset sectionName) (lineRule singleRule charValue).history
        (lineRule singleRule charValue).apduDirection rulePart := by
  obtain ⟨r, hload, -⟩ := loadPart_rules (fun _ _ => isInt_actionOffset) h
    (lineRule singleRule charValue, [])
  unfold partActions
  rw [hload]
  exact List.nil_append _

/-- Only changes of the pseudo element change the length. -/
theorem changesLength_iff (hvalid : action.valid = true) :
    ChangesLength action ↔ action.element = leElem := by
  constructor
  · rintro ⟨w, w', hact, hlength⟩
    by_contra hle
    rw [applyAction, if_pos hvalid, if_neg hle] at hact
    obtain ⟨buffer, -, hact⟩ := Fault.of_bind_ok hact
    cases hact
    exact hlength rfl
  · intro hle
    refine ⟨⟨[], 1000, false⟩, ⟨[], action.value.toUInt32, false⟩, ?_, ?_⟩
    · rw [applyAction, if_pos hvalid, if_pos hle]
    · intro hsame
      have hnat : action.value.toUInt32.toNat = 1000 := congrArg UInt32.toNat hsame
      have hbyte := action.value.toNat_lt
      rw [UInt8.toNat_toUInt32] at hnat
      omega

/-- Changes of data bytes are made between the header and the pseudo element. -/
theorem rewritesData_iff (hvalid : action.valid = true) :
    RewritesData direction action ↔ dataBase direction ≤ action.element ∧ action.element < leElem := by
  have hmax : maxApduLength = 300 := rfl
  have hbase : 0 ≤ dataBase direction := by
    unfold dataBase
    split_ifs <;> omega
  constructor
  · intro h
    obtain ⟨w', hact, hlength, hheader⟩ := h
      ⟨List.replicate maxApduLength (action.value + 1), 1000, false⟩ List.length_replicate
    have hle : action.element ≠ leElem := by
      intro hle
      rw [applyAction, if_pos hvalid, if_pos hle] at hact
      cases hact
      have hnat : action.value.toUInt32.toNat = 1000 := congrArg UInt32.toNat hlength
      have hbyte := action.value.toNat_lt
      rw [UInt8.toNat_toUInt32] at hnat
      omega
    rw [applyAction, if_pos hvalid, if_neg hle, setByte, List.length_replicate] at hact
    split_ifs at hact with hinside
    · cases hact
      refine ⟨?_, by unfold leElem at hle ⊢; omega⟩
      by_contra hlow
      have hsame := hheader action.element.toNat (by omega)
      have hroom : action.element.toNat < (List.replicate maxApduLength (action.value + 1)).length := by
        rw [List.length_replicate]
        omega
      rw [List.getElem?_set_self hroom, List.getElem?_replicate, if_pos (by omega),
        Option.some.injEq] at hsame
      have hnat := congrArg UInt8.toNat hsame
      rw [UInt8.toNat_add] at hnat
      have hone : (1 : UInt8).toNat = 1 := rfl
      omega
    · cases hact
  · rintro ⟨hlow, hhigh⟩ w hw
    unfold FullBuffer at hw
    unfold leElem at hhigh
    refine ⟨{ w with newBuffer := w.newBuffer.set action.element.toNat action.value }, ?_, rfl,
      fun i hi => ?_⟩
    · rw [applyAction, if_pos hvalid, if_neg (by unfold leElem; omega), setByte, if_pos (by omega)]
      rfl
    · exact List.getElem?_set_ne (by omega)

/-- No keyword is the name of a part that gives data. -/
theorem headerRules_data (hdata : IsData rulePart) :
    headerRules actionKeywords history apduDirection rulePart = [] := by
  unfold headerRules
  rw [List.map_eq_nil_iff, List.filter_eq_nil_iff]
  intro keyword hkeyword hname
  have hshort : ∀ keyword ∈ actionKeywords, keyword.1.length < 4 := by decide
  specialize hshort keyword hkeyword
  unfold compareWithNoCase at hname
  unfold IsData compareWithNoCase at hdata
  rw [beq_iff_eq] at hname hdata
  have hlen := congrArg List.length hname
  have hfour := congrArg List.length hdata
  rw [List.length_map, List.length_map] at hlen
  rw [List.length_map, List.length_take] at hfour
  have hword : ((ascii "DATA").map toUpper).length = 4 := by decide
  omega

/-- The pseudo element has one keyword. -/
theorem isLength_of_header (haction : action ∈ headerRules actionKeywords history apduDirection rulePart)
    (hle : action.element = leElem) : IsLength rulePart := by
  obtain ⟨keyword, hkeyword, rfl⟩ := List.mem_map.mp haction
  obtain ⟨hmem, hname⟩ := List.mem_filter.mp hkeyword
  have hkey : ∀ keyword ∈ actionKeywords, keyword.2 = leElem → keyword.1 = ascii "LE" := by decide
  rwa [hkey keyword hmem hle] at hname

/-- Consecutive places that do not leave a range. -/
theorem places_iff {base start : ℤ} (hbase : 0 ≤ base) (hstart : -2 ^ 31 ≤ start ∧ start < 2 ^ 31 + 5)
    (n : ℕ) :
    (∀ i < n, base ≤ wrapInt (start + i) ∧ wrapInt (start + i) < leElem) ↔
      n = 0 ∨ base ≤ start ∧ start + n ≤ leElem := by
  unfold leElem
  constructor
  · intro h
    refine n.eq_zero_or_pos.imp_right fun hpos => ?_
    have hfirst := h 0 hpos
    rw [Int.natCast_zero, Int.add_zero] at hfirst
    have hint : IsInt start := by
      refine ⟨hstart.1, ?_⟩
      by_contra hlarge
      have hwrap : wrapInt start = start - 2 ^ 32 := by
        rw [wrapInt, Int.bmod_def]
        split_ifs <;> omega
      omega
    rw [wrapInt_eq hint] at hfirst
    refine ⟨hfirst.1, ?_⟩
    by_contra hlong
    have hlast := h (299 - start).toNat (by omega)
    have hplace : start + ((299 - start).toNat : ℤ) = 299 := by omega
    rw [hplace, wrapInt_eq ⟨by decide, by decide⟩] at hlast
    omega
  · rintro (rfl | ⟨hlow, hhigh⟩) i hi
    · exact absurd hi (Nat.not_lt_zero i)
    · rw [wrapInt_eq ⟨by omega, by omega⟩]
      omega

/-- All changes that are loaded are valid. -/
theorem valid_of_mem (hload : Loadable (actionOffset sectionName) rulePart)
    (haction : action ∈ partActions sectionName singleRule charValue rulePart) : action.valid = true := by
  rw [partActions_eq hload, partRules, List.mem_append] at haction
  obtain hheader | hdata := haction
  · obtain ⟨keyword, -, rfl⟩ := List.mem_map.mp hheader
    rfl
  · split_ifs at hdata
    · cases hoffset : actionOffset sectionName (elemNameOf rulePart) with
      | error e =>
        rw [hoffset] at hdata
        exact absurd hdata List.not_mem_nil
      | ok offset =>
        rw [hoffset] at hdata
        obtain ⟨i, hi, rfl⟩ := List.mem_mapIdx.mp hdata
        rfl
    · exact absurd hdata List.not_mem_nil

/-- The changes of a part that gives data rewrite data exactly if it lies in its
place. -/
theorem rewritesData_part_iff (hload : Loadable (actionOffset sectionName) rulePart)
    (hdata : IsData rulePart) :
    (∀ action ∈ partActions sectionName singleRule charValue rulePart, RewritesData direction action) ↔
      DataInPlace sectionName singleRule charValue direction rulePart := by
  obtain ⟨⟨offset, hoffset⟩, -⟩ := hload hdata
  have hint := isInt_actionOffset hoffset
  have hbase (d : ℤ) : 0 ≤ dataBase d ∧ dataBase d ≤ 5 := by
    unfold dataBase
    split_ifs <;> omega
  rw [partActions_eq hload, partRules, headerRules_data hdata, if_pos hdata, hoffset, List.nil_append]
  dsimp only [dataRules]
  unfold DataInPlace
  rw [hoffset]
  simp only [Except.ok.injEq, forall_eq']
  have hstart : -2 ^ 31 ≤ offset + dataBase (lineRule singleRule charValue).apduDirection ∧
      offset + dataBase (lineRule singleRule charValue).apduDirection < 2 ^ 31 + 5 := by
    have hline := hbase (lineRule singleRule charValue).apduDirection
    unfold IsInt at hint
    omega
  have hplaces := places_iff (hbase direction).1 hstart (dataOf rulePart).length
  rw [List.length_eq_zero_iff] at hplaces
  rw [← hplaces]
  constructor
  · intro h i hi
    exact (rewritesData_iff rfl).mp (h _ (List.mem_mapIdx.mpr ⟨i, hi, rfl⟩))
  · intro h action haction
    obtain ⟨i, hi, rfl⟩ := List.mem_mapIdx.mp haction
    exact (rewritesData_iff rfl).mpr (h i hi)

/-- An accepted line acts as it is written exactly if all its data lie in place. -/
theorem actsAsWritten_iff (haccept : ∃ st, loadAction sectionName singleRule charValue = .ok st) :
    ActsAsWritten sectionName singleRule charValue direction ↔
      ∀ rulePart ∈ actionParts charValue, IsData rulePart →
        DataInPlace sectionName singleRule charValue direction rulePart := by
  have hloadable := (exists_loadAction_ok _ _ _).mp haccept
  constructor
  · intro h rulePart hpart hdata
    exact (rewritesData_part_iff (hloadable rulePart hpart) hdata).mp (h.data rulePart hpart hdata)
  · intro h
    have hrewrites : ∀ rulePart ∈ actionParts charValue, IsData rulePart →
        ∀ action ∈ partActions sectionName singleRule charValue rulePart, RewritesData direction action :=
      fun rulePart hpart hdata =>
        (rewritesData_part_iff (hloadable rulePart hpart) hdata).mpr (h rulePart hpart hdata)
    refine ⟨?_, fun rulePart hpart action haction hlength => ?_, hrewrites⟩
    · obtain ⟨r, hr⟩ := loadParts_rules (fun _ _ => isInt_actionOffset) (actionParts charValue) hloadable
        (lineRule singleRule charValue, [])
      refine ⟨r, ?_⟩
      rw [loadAction, loadParts, parts_actionParts]
      refine hr.trans ?_
      rw [List.nil_append, List.flatMap_congr fun rulePart hpart => partActions_eq (hloadable rulePart hpart)]
    · have hvalid := valid_of_mem (hloadable rulePart hpart) haction
      have hle := (changesLength_iff hvalid).mp hlength
      by_cases hdata : IsData rulePart
      · have hplace := (rewritesData_iff hvalid).mp (hrewrites rulePart hpart hdata action haction)
        omega
      · rw [partActions_eq (hloadable rulePart hpart), partRules, if_neg hdata, List.append_nil] at haction
        exact isLength_of_header haction hle

/-- One byte of data and an expected length. -/
theorem actsAsWritten_length :
    (∃ st, loadAction (ascii "rule1") (newSingleRule 0) (ascii "in=1,DATA0=AA,LE=10,") = .ok st) ∧
      ActsAsWritten (ascii "rule1") (newSingleRule 0) (ascii "in=1,DATA0=AA,LE=10,") inputApdu := by
  have haccept : ∃ st, loadAction (ascii "rule1") (newSingleRule 0) (ascii "in=1,DATA0=AA,LE=10,") = .ok st :=
    ⟨_, rfl⟩
  refine ⟨haccept, (actsAsWritten_iff haccept).mpr fun rulePart hpart hdata => ?_⟩
  have hparts : actionParts (ascii "in=1,DATA0=AA,LE=10,") = [ascii "DATA0=AA,", ascii "LE=10,"] := by
    decide +kernel
  rw [hparts] at hpart
  obtain rfl | hpart := List.mem_cons.mp hpart
  · intro offset hoffset
    have hzero : actionOffset (ascii "rule1") (elemNameOf (ascii "DATA0=AA,")) = .ok 0 := by decide +kernel
    rw [hzero] at hoffset
    cases hoffset
    exact Or.inr (by decide +kernel)
  · obtain rfl := List.mem_singleton.mp hpart
    exact absurd hdata (by decide +kernel)

/-- Behind the header, byte 294 of the data has the number of the expected length. -/
theorem not_actsAsWritten_data :
    (∃ st, loadAction (ascii "rule1") (newSingleRule 0) (ascii "in=1,DATA294=AA,") = .ok st) ∧
      ¬ ActsAsWritten (ascii "rule1") (newSingleRule 0) (ascii "in=1,DATA294=AA,") inputApdu := by
  refine ⟨⟨_, rfl⟩, fun h => ?_⟩
  have hpart : ascii "DATA294=AA," ∈ actionParts (ascii "in=1,DATA294=AA,") := by decide +kernel
  have haction : ⟨true, 0, inputApdu, leElem, 0xAA⟩ ∈ partActions (ascii "rule1") (newSingleRule 0)
      (ascii "in=1,DATA294=AA,") (ascii "DATA294=AA,") := by
    decide +kernel
  have hlength := h.length _ hpart _ haction ((changesLength_iff rfl).mpr rfl)
  exact absurd hlength (by unfold IsLength; decide +kernel)

end ApduPlay.ActionPlaces
