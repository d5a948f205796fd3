import ApduPlay.RuleLines

/-!
# Offsets of data

How the offset in the name of a data element is read in conditions and in
changes, and which lines are therefore loaded as they are written.
-/

namespace ApduPlay.RuleOffsets

open ApduRules TextNumbers TextSearch RuleFile RuleElements RuleLines

variable {sectionName : Text} {ws : List Written} {comma : Bool} {pos offset : ℕ} {bytes : List UInt8}

theorem isDecimal_of_mem {c : UInt8} (h : c ∈ decimal offset) : isDecimal c = true := by
  obtain ⟨hlow, hhigh⟩ := mem_decimal h
  simp only [isDecimal, Bool.and_eq_true, decide_eq_true_eq, UInt8.le_iff_toNat_le]
  exact ⟨hlow, hhigh⟩

/-- Conditions take no characters of the offset. -/
theorem readsOffsets_match : ReadsOffsets matchOffset readMatch := by
  intro name offset _
  obtain ⟨c, digits, hdigits⟩ := List.exists_cons_of_ne_nil (l := decimal offset) (by simp [decimal])
  have hc : isDecimal c = true := isDecimal_of_mem (hdigits ▸ List.mem_cons_self)
  cases hfind : (name ++ decimal offset).findIdx? isDecimal with
  | none =>
    have hnone := List.findIdx?_eq_none_iff.mp hfind c
      (List.mem_append_right name (hdigits ▸ List.mem_cons_self))
    rw [hc] at hnone
    cases hnone
  | some pos =>
    rw [matchOffset, hfind]
    rfl

/-- The name of a section of a rule begins with four letters. -/
theorem four_le_pos (hrule : isRuleSection sectionName = true)
    (hpos : sectionName.findIdx? isDecimal = some pos) : 4 ≤ pos := by
  obtain ⟨hlt, hdigit, -⟩ := List.findIdx?_eq_some_iff_getElem.mp hpos
  by_contra hsmall
  have hupper : (sectionName.take 4).map toUpper = ascii "RULE" := by
    have hcompare := eq_of_beq hrule
    exact hcompare.trans (by decide)
  have hletter : toUpper sectionName[pos] ∈ ascii "RULE" := by
    rw [← hupper]
    refine List.mem_map_of_mem (List.mem_take_iff_getElem.mpr ⟨pos, by omega, rfl⟩)
  have hsame : toUpper sectionName[pos] = sectionName[pos] := by
    simp only [isDecimal, Bool.and_eq_true, decide_eq_true_eq] at hdigit
    refine if_neg fun h => ?_
    have hlow := UInt8.le_iff_toNat_le.mp h.1
    have hhigh := UInt8.le_iff_toNat_le.mp hdigit.2
    exact absurd (Nat.le_trans hlow hhigh) (by decide)
  rw [hsame] at hletter
  have hnone : (ascii "RULE").any isDecimal = false := by decide
  rw [List.any_eq_true.mpr ⟨_, hletter, hdigit⟩] at hnone
  cases hnone

/-- Changes skip as many characters as stand before the digits in the name of
the section. -/
theorem readsOffsets_action (hrule : isRuleSection sectionName = true) :
    ReadsOffsets (actionOffset sectionName) (readAction sectionName) := by
  intro name offset hname
  cases hpos : sectionName.findIdx? isDecimal with
  | none => rw [actionOffset, readAction, hpos]
  | some pos =>
    have hfour := four_le_pos hrule hpos
    have hdrop : (name ++ decimal offset).drop pos = (decimal offset).drop (pos - 4) := by
      rw [List.drop_append, hname, List.drop_of_length_le (by omega), List.nil_append]
    rw [actionOffset, readAction, hpos]
    simp only [List.length_append, hname, hdrop]

theorem readsInts_match : ReadsInts readMatch := by
  intro offset start h
  cases h
  exact ⟨by decide, by decide⟩

theorem readsInts_action : ReadsInts (readAction sectionName) := by
  intro offset start h
  unfold readAction at h
  split at h
  · cases h
  · split_ifs at h
    cases h
    exact isInt_strtol 10 _

/-- A line of conditions. -/
theorem lineOutcome_loadMatch (st : Loading) (ws : List Written) (comma : Bool) :
    LineOutcome matchKeywords readMatch st.1 st.2 ws comma (loadMatch st (line ws comma)) := by
  have hloaded := lineOutcome_loadParts .ofMatch readsOffsets_match readsInts_match st.1 st.2 ws comma
  simp only [loadMatch, readHistory_line]
  exact hloaded

/-- A line of changes. -/
theorem lineOutcome_loadAction (hrule : isRuleSection sectionName = true) (r : ApduSingleRule)
    (ws : List Written) (comma : Bool) :
    LineOutcome actionKeywords (readAction sectionName) r.clear [] ws comma
      (loadAction sectionName r (line ws comma)) :=
  lineOutcome_loadParts .ofAction (readsOffsets_action hrule) readsInts_action r.clear [] ws comma

/-- Without its first digits a number is smaller. -/
theorem ofDigitChars_drop_lt {n k : ℕ} (hn : 0 < n) (hk : 0 < k) :
    Nat.ofDigitChars 10 ((Nat.toDigits 10 n).drop k) 0 < n := by
  have hbound : ∀ cs : List Char, (∀ c ∈ cs, c.isDigit = true) →
    Nat.ofDigitChars 10 cs 0 < 10 ^ cs.length := by
    intro cs hcs
    induction cs using List.reverseRecOn with
    | nil => simp
    | append_singleton cs c ih =>
      obtain ⟨hinit, hlast⟩ := List.forall_mem_append.mp hcs
      have hdigit := hlast c List.mem_cons_self
      simp only [Char.isDigit, Bool.and_eq_true, decide_eq_true_eq] at hdigit
      have hhigh : c.toNat ≤ 57 := UInt32.le_iff_toNat_le.mp hdigit.2
      have hinit := ih hinit
      rw [Nat.ofDigitChars_append, Nat.ofDigitChars_cons, Nat.ofDigitChars_nil, List.length_append,
        List.length_singleton, Nat.pow_succ]
      have hzero : '0'.toNat = 48 := rfl
      omega
  have hdigits : ∀ c ∈ (Nat.toDigits 10 n).drop k, c.isDigit = true := fun c hc =>
    Nat.isDigit_of_mem_toDigits (by decide) (by decide) (List.mem_of_mem_drop hc)
  refine Nat.lt_of_lt_of_le (hbound _ hdigits) ?_
  by_cases hone : (Nat.toDigits 10 n).length ≤ 1
  · rw [List.length_drop, Nat.sub_eq_zero_of_le (Nat.le_trans hone hk), Nat.pow_zero]
    exact hn
  · -- The number has more digits than are left.
    have hlong : ¬ n < 10 ^ ((Nat.toDigits 10 n).length - 1) := fun hlt => by
      have hle := (Nat.length_toDigits_le_iff (by decide) (by omega)).mpr hlt
      omega
    refine Nat.le_trans (Nat.pow_le_pow_right (by decide) ?_) (Nat.not_lt.mp hlong)
    rw [List.length_drop]
    omega

/-- An offset is read right if all its digits are read, or if it is zero. -/
theorem strtol_drop_eq_iff {k : ℕ} (hint : (offset : ℤ) < 2 ^ 31) :
    strtol 10 ((decimal offset).drop k) = offset ↔ k = 0 ∨ offset = 0 := by
  have hdigits : ∀ c ∈ (Nat.toDigits 10 offset).drop k, c.isDigit = true := fun c hc =>
    Nat.isDigit_of_mem_toDigits (by decide) (by decide) (List.mem_of_mem_drop hc)
  have hvalue : strtol 10 ((decimal offset).drop k) =
      min (Nat.ofDigitChars 10 ((Nat.toDigits 10 offset).drop k) 0 : ℤ) (2 ^ 31 - 1) := by
    rw [decimal, ← List.map_drop]
    by_cases hnil : (Nat.toDigits 10 offset).drop k = []
    · rw [hnil]
      rfl
    · have hend : ∀ c ∈ ([] : Text).head?, digitValue 10 c = none := by simp
      have hchars := strtol_chars hdigits hnil hend
      rwa [List.append_nil] at hchars
  rw [hvalue]
  rcases Nat.eq_zero_or_pos k with rfl | hk
  · rw [List.drop_zero, Nat.ofDigitChars_ten_toDigits]
    omega
  rcases Nat.eq_zero_or_pos offset with rfl | hpos
  · have hzero : Nat.ofDigitChars 10 ((Nat.toDigits 10 0).drop k) 0 = 0 := by
      rw [Nat.toDigits_zero, List.drop_of_length_le (Nat.succ_le_of_lt hk)]
      rfl
    rw [hzero]
    omega
  · have hlt := ofDigitChars_drop_lt hpos hk
    omega

/-- The lines of a section that are made of elements. -/
inductive LineKind
  /-- A line of conditions. -/
  | conditions
  /-- The line of changes. -/
  | changes
  deriving DecidableEq, Repr

/-- The names that stand for bytes of the header. -/
def LineKind.keywords : LineKind → List (Text × ℤ)
  | conditions => matchKeywords
  | changes => actionKeywords

/-- How offsets are read. -/
def LineKind.read (sectionName : Text) : LineKind → ℕ → Except Fault ℤ
  | conditions => readMatch
  | changes => readAction sectionName

/-- The first line of conditions, or the line of changes. -/
def LineKind.load (sectionName : Text) (apduDirection : ℤ) : LineKind → Text → Except Fault Loading
  | conditions, text => loadMatch (newSingleRule apduDirection, []) text
  | changes, text => loadAction sectionName (newSingleRule apduDirection) text

/-- An element does not stop the loader. There is room for its bytes, and in
changes the digits in the name of the section do not stand too far behind. -/
def Passes (sectionName : Text) : LineKind → Element → Prop
  | .conditions, .data _ bytes => bytes.length ≤ maxApduLength
  | .changes, .data offset bytes => bytes.length ≤ maxApduLength ∧
      ∃ pos, sectionName.findIdx? isDecimal = some pos ∧ pos ≤ 4 + (decimal offset).length
  | _, _ => True

/-- The bytes of an element are put where they belong. In conditions the offset
is zero, in changes it is zero or the first digit in the name of the section
is its fifth character. -/
def InPlace (sectionName : Text) (apduDirection : ℤ) : LineKind → Element → Prop
  | .conditions, .data offset bytes => bytes = [] ∨ offset = 0
  | .changes, .data offset bytes => bytes = [] ∨
      (sectionName.findIdx? isDecimal = some 4 ∨ offset = 0) ∧
        offset + dataBase apduDirection + bytes.length ≤ 2 ^ 31
  | _, _ => True

/-- An element is loaded as it is written. -/
def Faithful (keywords : List (Text × ℤ)) (read : ℕ → Except Fault ℤ) (history apduDirection : ℤ)
    (e : Element) : Prop :=
  Loads read e ∧ loaded keywords read history apduDirection e = meaning keywords history apduDirection e

variable {keywords : List (Text × ℤ)} {read : ℕ → Except Fault ℤ} {history apduDirection : ℤ} {e : Element}
  {kind : LineKind}

theorem lineOutcome_load (hrule : isRuleSection sectionName = true) (kind : LineKind) (apduDirection : ℤ)
    (ws : List Written) (comma : Bool) :
    LineOutcome kind.keywords (kind.read sectionName) (newSingleRule apduDirection) [] ws comma
      (kind.load sectionName apduDirection (line ws comma)) := by
  cases kind with
  | conditions => exact lineOutcome_loadMatch (newSingleRule apduDirection, []) ws comma
  | changes => exact lineOutcome_loadAction hrule (newSingleRule apduDirection) ws comma

theorem readsInts_read (kind : LineKind) : ReadsInts (kind.read sectionName) := by
  cases kind with
  | conditions => exact readsInts_match
  | changes => exact readsInts_action

/-- Offsets in changes, given where the first digit stands. -/
theorem readAction_ok (hpos : sectionName.findIdx? isDecimal = some pos) (start : ℤ) :
    readAction sectionName offset = .ok start ↔
      pos ≤ 4 + (decimal offset).length ∧ start = strtol 10 ((decimal offset).drop (pos - 4)) := by
  rw [readAction, hpos]
  dsimp only
  split_ifs with hfar
  · exact ⟨fun h => (nomatch h), fun h => absurd h.1 (Nat.not_le.mpr hfar)⟩
  · exact ⟨fun h => ⟨Nat.not_lt.mp hfar, (Except.ok.inj h).symm⟩, fun h => congrArg _ h.2.symm⟩

/-- Which elements do not stop the loader. -/
theorem loads_iff : Loads (kind.read sectionName) e ↔ Passes sectionName kind e := by
  cases e with
  | direction input => cases kind <;> exact ⟨fun _ => trivial, fun _ => trivial⟩
  | header field value => cases kind <;> exact ⟨fun _ => trivial, fun _ => trivial⟩
  | data offset bytes =>
    cases kind with
    | conditions => exact ⟨fun h => h.2, fun h => ⟨⟨0, rfl⟩, h⟩⟩
    | changes =>
      refine and_comm.trans (and_congr_right fun _ => ?_)
      cases hpos : sectionName.findIdx? isDecimal with
      | none =>
        simp only [LineKind.read, readAction, hpos]
        exact ⟨fun ⟨_, h⟩ => (nomatch h), fun ⟨_, h, _⟩ => (nomatch h)⟩
      | some pos =>
        simp only [LineKind.read, readAction_ok hpos, Option.some.injEq]
        exact ⟨fun ⟨_, hnear, _⟩ => ⟨pos, rfl, hnear⟩, fun ⟨_, hsame, hnear⟩ => ⟨_, hsame ▸ hnear, rfl⟩⟩

/-- Data is loaded as written exactly if its place does not wrap around. -/
theorem loaded_data_iff {start : ℤ} (hstart : kind.read sectionName offset = .ok start) :
    loaded keywords (kind.read sectionName) history apduDirection (.data offset bytes) =
        meaning keywords history apduDirection (.data offset bytes) ↔
      bytes = [] ∨ start = offset ∧ offset + dataBase apduDirection + bytes.length ≤ 2 ^ 31 := by
  simp only [loaded, hstart, meaning]
  exact dataRules_eq_iff (readsInts_read kind offset start hstart)

theorem dataBase_le (apduDirection : ℤ) : 0 ≤ dataBase apduDirection ∧ dataBase apduDirection ≤ 5 := by
  unfold dataBase
  split_ifs <;> decide

/-- Which elements are loaded as they are written. -/
theorem faithful_iff (hrule : isRuleSection sectionName = true) :
    Faithful kind.keywords (kind.read sectionName) history apduDirection e ↔
      Passes sectionName kind e ∧ InPlace sectionName apduDirection kind e := by
  rw [Faithful, loads_iff]
  refine and_congr_right fun hpasses => ?_
  have hbase := dataBase_le apduDirection
  cases e with
  | direction input => cases kind <;> exact ⟨fun _ => trivial, fun _ => rfl⟩
  | header field value => cases kind <;> exact ⟨fun _ => trivial, fun _ => rfl⟩
  | data offset bytes =>
    cases kind with
    | conditions =>
      have hread : LineKind.conditions.read sectionName offset = .ok 0 := rfl
      rw [loaded_data_iff hread]
      refine or_congr_right ⟨fun h => by omega, fun hzero => ⟨by omega, ?_⟩⟩
      simp only [Passes, maxApduLength] at hpasses
      omega
    | changes =>
      obtain ⟨-, pos, hpos, hnear⟩ := hpasses
      have hfour := four_le_pos hrule hpos
      have hread : LineKind.changes.read sectionName offset = .ok _ :=
        (readAction_ok hpos _).mpr ⟨hnear, rfl⟩
      rw [loaded_data_iff hread]
      simp only [InPlace, hpos, Option.some.injEq]
      by_cases hnil : bytes = []
      · exact ⟨fun _ => Or.inl hnil, fun _ => Or.inl hnil⟩
      have hsome := List.length_pos_of_ne_nil hnil
      refine or_congr_right (and_congr_left fun hmax => ?_)
      rw [strtol_drop_eq_iff (by omega)]
      omega

/-- An element that stands for no elementary rules. -/
def Idle (keywords : List (Text × ℤ)) : Element → Prop
  | .direction _ => True
  | .header field _ => field.keyword ∉ keywords
  | .data _ bytes => bytes = []

/-- Nothing is lost at the end of a line. -/
def Complete (keywords : List (Text × ℤ)) (ws : List Written) (comma : Bool) : Prop :=
  comma = true ∨ ∀ w ∈ ws.getLast?, Idle keywords w.element

/-- Only an idle element means nothing. -/
theorem meaning_eq_nil_iff : meaning keywords history apduDirection e = [] ↔ Idle keywords e := by
  cases e with
  | direction input => exact ⟨fun _ => trivial, fun _ => rfl⟩
  | header field value =>
    by_cases hfield : field.keyword ∈ keywords <;> simp [meaning, Idle, hfield]
  | data offset bytes => simp [meaning, dataRules, Idle]

/-- What is left of a line behind the elements with a comma. -/
theorem processed_append (keywords : List (Text × ℤ)) (ws : List Written) (comma : Bool) :
    ∃ rest, ws = processed ws comma ++ rest ∧
      (Complete keywords ws comma ↔ ∀ w ∈ rest, Idle keywords w.element) := by
  cases comma with
  | true => exact ⟨[], (List.append_nil ws).symm, ⟨fun _ => List.forall_mem_nil _, fun _ => Or.inl rfl⟩⟩
  | false =>
    cases ws using List.reverseRecOn with
    | nil => exact ⟨[], rfl, ⟨fun _ => List.forall_mem_nil _, fun _ => Or.inr fun w hw => nomatch hw⟩⟩
    | append_singleton ws w =>
      refine ⟨[w], by simp [processed], ?_⟩
      simp [Complete]

/-- As many rules are loaded as are written. -/
theorem length_loaded (h : Loads read e) :
    (loaded keywords read history apduDirection e).length =
      (meaning keywords history apduDirection e).length := by
  cases e with
  | direction input => rfl
  | header field value => rfl
  | data offset bytes =>
    obtain ⟨⟨start, hstart⟩, -⟩ := h
    simp [loaded, hstart, meaning, dataRules]

/-- Blocks of the same lengths are the same one by one if all of them
together are. -/
theorem rulesOf_eq_append_iff {f g : Element → List ApduSingleRule} (rest : List ApduSingleRule)
    (h : ∀ w ∈ ws, (f w.element).length = (g w.element).length) :
    rulesOf f ws = rulesOf g ws ++ rest ↔ rest = [] ∧ ∀ w ∈ ws, f w.element = g w.element := by
  induction ws with
  | nil => simp [rulesOf, eq_comm]
  | cons w ws ih =>
    obtain ⟨hw, hws⟩ := List.forall_mem_cons.mp h
    have hcons (f : Element → List ApduSingleRule) : rulesOf f (w :: ws) = f w.element ++ rulesOf f ws :=
      List.flatMap_cons
    rw [hcons, hcons, List.append_assoc, List.forall_mem_cons]
    constructor
    · intro heq
      obtain ⟨hhead, htail⟩ := List.append_inj heq hw
      obtain ⟨hnil, hall⟩ := (ih hws).mp htail
      exact ⟨hnil, hhead, hall⟩
    · rintro ⟨hnil, hhead, hall⟩
      rw [hhead, (ih hws).mpr ⟨hnil, hall⟩]

variable {r : ApduSingleRule} {rules : List ApduSingleRule} {result : Except Fault Loading}

/-- A line is loaded as it is written exactly if nothing is lost at its end and
all elements with a comma are. -/
theorem faithful_line_iff (h : LineOutcome keywords read r rules ws comma result) :
    (∃ st, result = .ok st ∧ st.2 = rules ++
      rulesOf (meaning keywords r.history (directionOf r.apduDirection ws)) ws) ↔
      Complete keywords ws comma ∧ ∀ w ∈ processed ws comma,
        Faithful keywords read r.history (directionOf r.apduDirection ws) w.element := by
  obtain ⟨rest, hws, hcomplete⟩ := processed_append keywords ws comma
  obtain ⟨direction, hdirection⟩ : ∃ direction, direction = directionOf r.apduDirection ws := ⟨_, rfl⟩
  rw [← hdirection, hcomplete]
  by_cases hloads : ∀ w ∈ processed ws comma, Loads read w.element
  · obtain ⟨r', hresult, -, -⟩ := h.ok hloads
    rw [← hdirection] at hresult
    have hrest : rulesOf (meaning keywords r.history direction) rest = [] ↔
        ∀ w ∈ rest, Idle keywords w.element := by
      rw [rulesOf, List.flatMap_eq_nil_iff]
      exact forall₂_congr fun w _ => meaning_eq_nil_iff
    have hall : rulesOf (meaning keywords r.history direction) ws =
        rulesOf (meaning keywords r.history direction) (processed ws comma) ++
          rulesOf (meaning keywords r.history direction) rest := by
      conv_lhs => rw [hws]
      exact List.flatMap_append
    have hlength : ∀ w ∈ processed ws comma, (loaded keywords read r.history direction w.element).length =
        (meaning keywords r.history direction w.element).length := fun w hw => length_loaded (hloads w hw)
    have hsame := rulesOf_eq_append_iff (rulesOf (meaning keywords r.history direction) rest) hlength
    rw [hrest, ← hall] at hsame
    constructor
    · rintro ⟨st, hst, hrules⟩
      rw [hresult] at hst
      cases hst
      obtain ⟨hidle, hloaded⟩ := hsame.mp (List.append_cancel_left hrules)
      exact ⟨hidle, fun w hw => ⟨hloads w hw, hloaded w hw⟩⟩
    · rintro ⟨hidle, hfaithful⟩
      exact ⟨_, hresult, congrArg (rules ++ ·) (hsame.mpr ⟨hidle, fun w hw => (hfaithful w hw).2⟩)⟩
  · obtain ⟨fault, hfault⟩ := h.fail hloads
    constructor
    · rintro ⟨st, hst, -⟩
      rw [hfault] at hst
      cases hst
    · rintro ⟨-, hfaithful⟩
      exact absurd (fun w hw => (hfaithful w hw).1) hloads

/-- The direction that a line leaves behind. -/
theorem apduDirection_line (h : LineOutcome keywords read r rules ws comma result) {st : Loading}
    (hst : result = .ok st) : st.1.apduDirection = directionOf r.apduDirection ws := by
  by_cases hloads : ∀ w ∈ processed ws comma, Loads read w.element
  · obtain ⟨r', hresult, -, hdirection⟩ := h.ok hloads
    rw [hresult] at hst
    cases hst
    exact hdirection
  · obtain ⟨fault, hfault⟩ := h.fail hloads
    rw [hfault] at hst
    cases hst

end ApduPlay.RuleOffsets
