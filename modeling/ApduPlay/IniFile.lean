import ApduPlay.IniLines
import ApduPlay.Library.LineReading

/-!
# Loading an ini file

Lines are read into one buffer. A line that ends with a backslash stays there, and
the next one is read behind it. What is loaded is told in three steps: the lines of
the file are joined, each of them sets a key, and the keys are set one after the
other.
-/

namespace ApduPlay.IniFile

open IniDictionary IniLines IniSections LineReading TextNumbers

/-- The variables of `iniparser_load`. -/
structure Loading where
  /-- The first `last` characters of `line`. -/
  line : Text
  /-- `section` -/
  sectionName : Text
  /-- `dict` -/
  dict : Dictionary
  /-- `errs` -/
  errs : ℤ

/-- `fgets` into a buffer of a size: what it reads, what remains, and whether the end was met. -/
def fgets (size : ℕ) (file : Text) : Option (Text × Text × Bool) :=
  match readLine 10 (size - 1) file with
  | ([], _, true) => none
  | read => some read

/-- The cases of a line. -/
def loadLine (st : Loading) : Line → Except Fault Loading
  | .empty => .ok st
  | .comment => .ok st
  | .header name => do
    let dict ← dictionarySet st.dict name none
    return { st with sectionName := name, dict := dict }
  | .value key val => do
    let dict ← dictionarySet st.dict (st.sectionName ++ 58 :: key) (some val)
    return { st with dict := dict }
  | .error => .ok { st with errs := wrapInt (st.errs + 1) }

/-- The loop of `iniparser_load` for what was read, nothing if the line is too long. -/
def loadRead (st : Loading) (read : Text) (eof : Bool) : Except Fault (Option Loading) :=
  let line := (st.line ++ read).takeWhile (· != 0)
  if line.length ≤ 1 then .ok (some st)
  else if line.getLast? ≠ some 10 ∧ eof = false then .ok none
  else
    let line := line.rdropWhile fun c => c == 10 || isSpace c
    if line.getLast? = some 92 then .ok (some { st with line := line.dropLast })
    else do
      let st ← loadLine st (iniparserLine st.sectionName line)
      return some { st with line := [] }

/-- The loop of `iniparser_load`, for a number of rounds. -/
def loadLoop : ℕ → Loading → Text → Except Fault (Option Dictionary)
  | 0, _, _ => .error .endlessLoop
  | rounds + 1, st, file =>
    match fgets (asciilinesz - st.line.length) file with
    | none => .ok (if st.errs ≠ 0 then none else some st.dict)
    | some (read, rest, eof) => do
      match ← loadRead st read eof with
      | none => return none
      | some st => loadLoop rounds st rest

/-- `iniparser_load`, of a file that may not open. -/
def iniparserLoad : Option Text → Except Fault (Option Dictionary)
  | none => .ok none
  | some file => loadLoop (file.length + 1) ⟨[], [], dictionaryNew 0, 0⟩ file

/-- Lines joined at backslashes, nothing if one of them is too long. A text behind the
last end of a line counts as a line if it has two characters. -/
def logicalLines (pending : Text) : List Text → Text → Option (List Text)
  | [], last =>
    let text := pending ++ last
    if last = [] ∨ text.length ≤ 1 then some []
    else if asciilinesz ≤ text.length + 1 then none
    else
      let line := text.rdropWhile isSpace
      some (if line.getLast? = some 92 then [] else [line])
  | first :: lines, last =>
    let text := pending ++ first
    if asciilinesz ≤ text.length + 1 then none
    else
      let line := text.rdropWhile isSpace
      if line.getLast? = some 92 then logicalLines line.dropLast lines last
      else (logicalLines [] lines last).map (line :: ·)

/-- The keys that lines set, nothing if one of them is an error. -/
def assignments (sectionName : Text) : List Text → Option (List (Text × Option Text))
  | [] => some []
  | line :: lines =>
    match lineMeaning sectionName line with
    | .empty => assignments sectionName lines
    | .comment => assignments sectionName lines
    | .header name => (assignments name lines).map ((name, none) :: ·)
    | .value key val => (assignments sectionName lines).map ((sectionName ++ 58 :: key, some val) :: ·)
    | .error => none

/-- The keys that a file sets. -/
def fileSets (file : Text) : Option (List (Text × Option Text)) :=
  let (lines, last) := splitLines 10 file
  (logicalLines [] lines last).bind (assignments [])

/-- A dictionary has the entries, and its places can be counted. -/
def Loaded (d : Dictionary) (entries : List (Text × Option Text)) : Prop :=
  Packed d entries ∧ d.slots.length < 2 ^ 31

/-- What is loaded when there were errors or more lines set keys. -/
def Outcome (errs : ℤ) (sectionName : Text) (entries : List (Text × Option Text))
    (result : Option Dictionary) (logical : Option (List Text)) : Prop :=
  Option.Rel Loaded result
    (if errs = 0 then
      (logical.bind (assignments sectionName)).map
        (List.foldl (fun entries e => setEntry entries e.1 e.2) entries)
    else none)

variable {st : Loading} {entries : List (Text × Option Text)} {result : Option Dictionary}
  {logical : Option (List Text)} {line read rest first last text : Text} {lines : List Text} {errs : ℤ}
  {rounds left : ℕ} {sectionName : Text}

/-- Errors and entries can be counted as long as there are no more of them than characters. -/
structure Counted (st : Loading) (entries : List (Text × Option Text)) (left : ℕ) : Prop where
  /-- Errors are counted from zero. -/
  errs_nonneg : 0 ≤ st.errs
  /-- There is room for the errors in what is left of the file. -/
  errs : st.errs + left < 2 ^ 31
  /-- There is room for the entries in it. -/
  entries : entries.length + left < 2 ^ 30

/-- There is room for less as well. -/
theorem Counted.of_le {left' : ℕ} (h : Counted st entries left) (hle : left' ≤ left) :
    Counted st entries left' :=
  ⟨h.errs_nonneg, by have := h.errs; omega, by have := h.entries; omega⟩

/-- A key was set. -/
theorem Counted.set {st' : Loading} (h : Counted st entries (left + 1)) (herrs : st'.errs = st.errs)
    (key : Text) (val : Option Text) : Counted st' (setEntry entries key val) left := by
  have hle := length_setEntry_le entries key val
  obtain ⟨hnonneg, herrors, hentries⟩ := h
  exact ⟨herrs ▸ hnonneg, by rw [herrs]; omega, by omega⟩

/-- One more entry can be counted. -/
theorem Counted.limit (h : Counted st entries (left + 1)) : entries.length + 1 < 2 ^ 31 := by
  have := h.entries
  omega

/-- A line that is too long leaves nothing. -/
theorem outcome_none (errs : ℤ) (sectionName : Text) (entries : List (Text × Option Text)) :
    Outcome errs sectionName entries none none := by
  unfold Outcome
  split_ifs <;> exact Option.Rel.none

/-- A line that sets nothing. -/
theorem Outcome.skip (hline : lineMeaning sectionName line = .empty ∨ lineMeaning sectionName line = .comment)
    (h : Outcome errs sectionName entries result logical) :
    Outcome errs sectionName entries result (logical.map (line :: ·)) := by
  have hskip (lines : List Text) :
    assignments sectionName (line :: lines) = assignments sectionName lines := by
    rw [assignments]
    rcases hline with h | h <;> rw [h]
  cases logical with
  | none => exact h
  | some lines =>
    rw [Outcome, Option.map_some, Option.bind_some, hskip]
    exact h

/-- A line that sets a key. -/
theorem Outcome.assign {name : Text} (e : Text × Option Text)
    (hline : ∀ lines, assignments sectionName (line :: lines) = (assignments name lines).map (e :: ·))
    (h : Outcome errs name (setEntry entries e.1 e.2) result logical) :
    Outcome errs sectionName entries result (logical.map (line :: ·)) := by
  cases logical with
  | none => exact h
  | some lines =>
    rw [Outcome, Option.map_some, Option.bind_some, hline, Option.map_map]
    exact h

/-- One line of the file, and what the following ones lead to. -/
theorem loadLine_outcome (hpacked : Packed st.dict entries) (hcounted : Counted st entries (left + 1))
    (line : Text) :
    ∃ st' entries', loadLine st (iniparserLine st.sectionName line) = .ok st' ∧ Packed st'.dict entries' ∧
      Counted st' entries' left ∧ ∀ result logical, Outcome st'.errs st'.sectionName entries' result logical →
        Outcome st.errs st.sectionName entries result (logical.map (line :: ·)) := by
  rw [iniparserLine_eq]
  cases hline : lineMeaning st.sectionName line with
  | empty =>
    exact ⟨st, entries, rfl, hpacked, hcounted.of_le (Nat.le_succ left), fun _ _ =>
      Outcome.skip (Or.inl hline)⟩
  | comment =>
    exact ⟨st, entries, rfl, hpacked, hcounted.of_le (Nat.le_succ left), fun _ _ =>
      Outcome.skip (Or.inr hline)⟩
  | header name =>
    obtain ⟨dict, hdict, hpacked'⟩ := hpacked.set hcounted.limit name none
    refine ⟨_, _, Fault.bind_ok hdict, hpacked', hcounted.set (by rfl) name none,
      fun _ _ => Outcome.assign (name, none) fun lines => ?_⟩
    rw [assignments, hline]
  | value key val =>
    obtain ⟨dict, hdict, hpacked'⟩ := hpacked.set hcounted.limit (st.sectionName ++ 58 :: key) (some val)
    refine ⟨_, _, Fault.bind_ok hdict, hpacked', hcounted.set (by rfl) _ (some val),
      fun _ _ => Outcome.assign (_, some val) fun lines => ?_⟩
    rw [assignments, hline]
  | error =>
    obtain ⟨hnonneg, herrors, hentries⟩ := hcounted
    have hsucc : wrapInt (st.errs + 1) = st.errs + 1 := wrapInt_eq ⟨by omega, by omega⟩
    refine ⟨_, entries, rfl, hpacked, ⟨?_, ?_, by omega⟩, fun result logical h => ?_⟩
    · dsimp only
      omega
    · dsimp only
      omega
    have hnone (lines : List Text) : assignments st.sectionName (line :: lines) = none := by
      rw [assignments, hline]
    have hbind : (logical.map (line :: ·)).bind (assignments st.sectionName) = none := by
      cases logical with
      | none => rfl
      | some lines => exact hnone lines
    rw [Outcome, hbind]
    rw [Outcome, hsucc, if_neg (show st.errs + 1 ≠ 0 by omega)] at h
    split_ifs <;> exact h

/-- The end of a line is a blank. -/
theorem rdropWhile_blank (text : Text) :
    text.rdropWhile (fun c => c == 10 || isSpace c) = text.rdropWhile isSpace := by
  refine congrArg (fun p => text.rdropWhile p) (funext fun c => ?_)
  by_cases hc : c = 10
  · rw [hc]
    rfl
  · simp [hc]

/-- What is done with a line is the same whether it ends with the file or before. -/
def loadText (st : Loading) (text : Text) : Except Fault (Option Loading) :=
  let line := text.rdropWhile isSpace
  if line.getLast? = some 92 then .ok (some { st with line := line.dropLast })
  else do
    let st ← loadLine st (iniparserLine st.sectionName line)
    return some { st with line := [] }

/-- A text without a null character is not cut. -/
theorem takeWhile_of_zero_not_mem (h : 0 ∉ line) : line.takeWhile (· != 0) = line := by
  rw [List.takeWhile_eq_self_iff]
  intro c hc
  simpa using fun h0 : c = 0 => h (h0 ▸ hc)

/-- The buffer before a line is read. -/
structure Buffered (line : Text) : Prop where
  /-- The line in it goes on. -/
  newline : 10 ∉ line
  /-- The text in it is not ended. -/
  zero : 0 ∉ line
  /-- There is room for an end of line and a null character. -/
  room : line.length + 1 < asciilinesz

/-- An empty buffer. -/
theorem buffered_nil : Buffered [] := ⟨List.not_mem_nil, List.not_mem_nil, by decide⟩

/-- A line that fits is used without its end. -/
theorem loadRead_line (h : Buffered (st.line ++ text)) (hne : st.line ++ text ≠ []) :
    loadRead st (text ++ [10]) false = loadText st (st.line ++ text) := by
  have hzero : 0 ∉ st.line ++ (text ++ [10]) := by
    rw [← List.append_assoc, List.mem_append, not_or]
    exact ⟨h.zero, by decide⟩
  have hlen : ¬ (st.line ++ (text ++ [10])).length ≤ 1 := by
    rw [← List.append_assoc, List.length_append]
    have := List.length_pos_iff.mpr hne
    simp only [List.length_singleton]
    omega
  have hlast : (st.line ++ (text ++ [10])).getLast? = some 10 := by
    rw [← List.append_assoc, List.getLast?_concat]
  have hblank : isSpace 10 = true := rfl
  simp only [loadRead, takeWhile_of_zero_not_mem hzero, hlen, if_false, hlast, ne_eq, not_true_eq_false,
    false_and, rdropWhile_blank]
  rw [← List.append_assoc, List.rdropWhile_concat_pos _ _ _ hblank]
  rfl

/-- So is the text behind the last end of a line. -/
theorem loadRead_end (h : Buffered (st.line ++ text)) (hlen : ¬ (st.line ++ text).length ≤ 1) :
    loadRead st text true = loadText st (st.line ++ text) := by
  simp only [loadRead, takeWhile_of_zero_not_mem h.zero, hlen, if_false, Bool.true_eq_false, and_false,
    rdropWhile_blank]
  rfl

/-- A buffer that is full has no end of line. -/
theorem loadRead_long (hline : 10 ∉ st.line ++ text) (hzero : 0 ∉ st.line ++ text)
    (hlen : 1 < (st.line ++ text).length) : loadRead st text false = .ok none := by
  have hlast : (st.line ++ text).getLast? ≠ some 10 := fun h => hline (List.mem_of_getLast? h)
  simp only [loadRead, takeWhile_of_zero_not_mem hzero, Nat.not_le.mpr hlen, if_false, hlast, ne_eq,
    not_false_eq_true, true_and, if_true]

/-- The beginning of what fits does so too. -/
theorem Buffered.of_prefix (h : Buffered text) (hline : line <+: text) : Buffered line :=
  ⟨fun hc => h.newline (hline.subset hc), fun hc => h.zero (hline.subset hc),
    Nat.lt_of_le_of_lt (Nat.succ_le_succ hline.length_le) h.room⟩

/-- The lines that follow from a joined one. -/
def joined (text : Text) (lines : List Text) (last : Text) : Option (List Text) :=
  let line := text.rdropWhile isSpace
  if line.getLast? = some 92 then logicalLines line.dropLast lines last
  else (logicalLines [] lines last).map (line :: ·)

/-- Nothing that is pending counts at the end of the file. -/
theorem logicalLines_nil (pending : Text) : logicalLines pending [] [] = some [] := by
  rw [logicalLines]
  exact if_pos (Or.inl rfl)

/-- The last line alone. -/
theorem joined_nil (text : Text) :
    joined text [] [] = some (if (text.rdropWhile isSpace).getLast? = some 92 then [] else
      [text.rdropWhile isSpace]) := by
  unfold joined
  dsimp only
  split_ifs <;> rw [logicalLines_nil]
  rfl

/-- A line that is complete is used, another one stays in the buffer. -/
theorem loadText_outcome (hpacked : Packed st.dict entries) (hcounted : Counted st entries (left + 1))
    (htext : Buffered text) :
    ∃ st' entries', loadText st text = .ok (some st') ∧ Packed st'.dict entries' ∧
      Counted st' entries' left ∧ Buffered st'.line ∧ ∀ result lines last,
        Outcome st'.errs st'.sectionName entries' result
        (logicalLines st'.line lines last) →
        Outcome st.errs st.sectionName entries result (joined text lines last) := by
  unfold loadText joined
  by_cases hbackslash : (text.rdropWhile isSpace).getLast? = some 92
  · simp only [if_pos hbackslash]
    obtain ⟨hnonneg, herrors, hentries⟩ := hcounted.of_le (Nat.le_succ left)
    refine ⟨_, entries, rfl, hpacked, ⟨hnonneg, herrors, hentries⟩, ?_, fun _ _ _ h => h⟩
    exact htext.of_prefix ((List.dropLast_prefix _).trans (List.rdropWhile_prefix _ _))
  · simp only [if_neg hbackslash]
    obtain ⟨st', entries', hst', hpacked', ⟨hnonneg, herrors, hentries⟩, houtcome⟩ :=
      loadLine_outcome hpacked hcounted (text.rdropWhile isSpace)
    exact ⟨_, entries', Fault.bind_ok hst', hpacked', ⟨hnonneg, herrors, hentries⟩, buffered_nil,
      fun _ _ _ h => houtcome _ _ h⟩

/-- What is read is returned unless it is the end of the file. -/
theorem fgets_some {size : ℕ} {file : Text} {eof : Bool} (h : readLine 10 (size - 1) file = (read, rest, eof))
    (hread : read ≠ [] ∨ eof = false) : fgets size file = some (read, rest, eof) := by
  rw [fgets, h]
  cases read with
  | nil =>
    rw [hread.resolve_left fun h => h rfl]
  | cons c read => rfl

/-- The loop goes on behind what was read. -/
theorem loadLoop_some {file : Text} {eof : Bool} {st' : Loading} (rounds : ℕ)
    (hfgets : fgets (asciilinesz - st.line.length) file = some (read, rest, eof))
    (hread : loadRead st read eof = .ok (some st')) :
    loadLoop (rounds + 1) st file = loadLoop rounds st' rest := by
  rw [loadLoop, hfgets]
  exact Fault.bind_ok hread

/-- A line that is too long ends it. -/
theorem loadLoop_none {file : Text} {eof : Bool} (rounds : ℕ)
    (hfgets : fgets (asciilinesz - st.line.length) file = some (read, rest, eof))
    (hread : loadRead st read eof = .ok none) : loadLoop (rounds + 1) st file = .ok none := by
  rw [loadLoop, hfgets]
  exact Fault.bind_ok hread

/-- At the end of the file what was set is returned unless there were errors. -/
theorem loadLoop_end (hpacked : Packed st.dict entries) (hcounted : Counted st entries left)
    (hline : st.line.length + 1 < asciilinesz) (rounds : ℕ) :
    ∃ result, loadLoop (rounds + 1) st [] = .ok result ∧
      Outcome st.errs st.sectionName entries result (some []) := by
  have hfgets : fgets (asciilinesz - st.line.length) [] = none := by
    have hsize : asciilinesz - st.line.length - 1 = (asciilinesz - st.line.length - 2) + 1 := by omega
    rw [fgets, hsize, readLine]
  rw [loadLoop, hfgets]
  refine ⟨_, rfl, ?_⟩
  unfold Outcome
  by_cases herrs : st.errs = 0
  · rw [if_pos herrs, if_neg (not_not.mpr herrs)]
    refine Option.Rel.some ⟨hpacked, hpacked.size_le.elim id fun hle => ?_⟩
    have hentries := hcounted.entries
    omega
  · rw [if_neg herrs, if_pos herrs]
    exact Option.Rel.none

/-- A line that does not fit is an error of the whole file. -/
theorem loadLoop_long (hline : 10 ∉ st.line ++ text) (hzero : 0 ∉ st.line ++ text)
    (hroom : st.line.length + 1 < asciilinesz) (hlong : asciilinesz ≤ (st.line ++ text).length + 1)
    (rounds : ℕ) (rest : Text) : loadLoop (rounds + 1) st (text ++ rest) = .ok none := by
  rw [List.length_append] at hlong
  have hsize : asciilinesz - st.line.length - 1 ≤ text.length := by omega
  have htext : 10 ∉ text := fun h => hline (List.mem_append_right _ h)
  have hbegins : st.line ++ text.take (asciilinesz - st.line.length - 1) <+: st.line ++ text :=
    (List.prefix_append_right_inj _).mpr (List.take_prefix _ _)
  refine loadLoop_none rounds (fgets_some (readLine_long htext hsize rest) (Or.inr rfl)) ?_
  refine loadRead_long (fun h => hline (hbegins.subset h)) (fun h => hzero (hbegins.subset h)) ?_
  rw [List.length_append, List.length_take]
  have hmin := Nat.min_eq_left hsize
  have hbound : asciilinesz = 1024 := rfl
  omega

/-- What is behind the last end of a line. -/
theorem loadLoop_last (hpacked : Packed st.dict entries) (hcounted : Counted st entries last.length)
    (hst : Buffered st.line) (hline : 10 ∉ last) (hzero : 0 ∉ last) (hrounds : last.length < rounds) :
    ∃ result, loadLoop rounds st last = .ok result ∧
      Outcome st.errs st.sectionName entries result (logicalLines st.line [] last) := by
  obtain ⟨rounds, rfl⟩ := Nat.exists_eq_succ_of_ne_zero
    (Nat.ne_of_gt (Nat.lt_of_le_of_lt (Nat.zero_le _) hrounds))
  by_cases hnil : last = []
  · rw [hnil, logicalLines, if_pos (Or.inl rfl)]
    exact loadLoop_end hpacked hcounted hst.room rounds
  have hpos := List.length_pos_iff.mpr hnil
  obtain ⟨rounds, rfl⟩ := Nat.exists_eq_succ_of_ne_zero
    (Nat.ne_of_gt (Nat.lt_of_lt_of_le hpos (Nat.le_of_lt_succ hrounds)))
  have htext : 10 ∉ st.line ++ last := by
    rw [List.mem_append, not_or]
    exact ⟨hst.newline, hline⟩
  have hzeros : 0 ∉ st.line ++ last := by
    rw [List.mem_append, not_or]
    exact ⟨hst.zero, hzero⟩
  rw [logicalLines]
  by_cases hlong : asciilinesz ≤ (st.line ++ last).length + 1
  · have hshort : ¬ (last = [] ∨ (st.line ++ last).length ≤ 1) := by
      have hbound : asciilinesz = 1024 := rfl
      refine not_or.mpr ⟨hnil, ?_⟩
      omega
    have hloop := loadLoop_long htext hzeros hst.room hlong (rounds + 1) []
    rw [List.append_nil] at hloop
    simp only [if_neg hshort, if_pos hlong]
    exact ⟨none, hloop, outcome_none _ _ _⟩
  have hbuffered : Buffered (st.line ++ last) := ⟨htext, hzeros, Nat.lt_of_not_le hlong⟩
  have hfgets : fgets (asciilinesz - st.line.length) last = some (last, [], true) := by
    refine fgets_some (readLine_end hline ?_) (Or.inl hnil)
    rw [List.length_append] at hlong
    omega
  by_cases hshort : (st.line ++ last).length ≤ 1
  · simp only [hshort, or_true, if_true]
    have hread : loadRead st last true = .ok (some st) := by
      rw [loadRead, takeWhile_of_zero_not_mem hzeros]
      exact if_pos hshort
    rw [loadLoop_some (rounds + 1) hfgets hread]
    exact loadLoop_end hpacked hcounted hst.room rounds
  · simp only [hnil, hshort, or_self, if_false, hlong]
    obtain ⟨st', entries', hst', hpacked', hcounted', hbuffered', houtcome⟩ :=
      loadText_outcome hpacked (hcounted.of_le hpos) hbuffered
    rw [loadLoop_some (rounds + 1) hfgets ((loadRead_end hbuffered hshort).trans hst')]
    obtain ⟨result, hresult, hend⟩ := loadLoop_end hpacked' hcounted' hbuffered'.room rounds
    refine ⟨result, hresult, ?_⟩
    rw [← joined_nil]
    exact houtcome result [] [] (by rwa [logicalLines_nil])

/-- The lines of a file, one after the other. -/
theorem loadLoop_lines (hpacked : Packed st.dict entries)
    (hcounted : Counted st entries (endLines 10 lines ++ last).length) (hst : Buffered st.line)
    (hlines : ∀ line ∈ lines, 10 ∉ line ∧ 0 ∉ line) (hlast : 10 ∉ last ∧ 0 ∉ last)
    (hrounds : (endLines 10 lines ++ last).length < rounds) :
    ∃ result, loadLoop rounds st (endLines 10 lines ++ last) = .ok result ∧
      Outcome st.errs st.sectionName entries result (logicalLines st.line lines last) := by
  induction lines generalizing st entries rounds with
  | nil => exact loadLoop_last hpacked hcounted hst hlast.1 hlast.2 hrounds
  | cons first lines ih =>
    obtain ⟨hfirst, hrest⟩ := List.forall_mem_cons.mp hlines
    obtain ⟨rounds, rfl⟩ := Nat.exists_eq_succ_of_ne_zero
      (Nat.ne_of_gt (Nat.lt_of_le_of_lt (Nat.zero_le _) hrounds))
    have hfile : endLines 10 (first :: lines) ++ last = first ++ 10 :: (endLines 10 lines ++ last) := by
      simp [endLines]
    rw [hfile] at hrounds hcounted ⊢
    have hle : (endLines 10 lines ++ last).length + 1 ≤
        (first ++ 10 :: (endLines 10 lines ++ last)).length := by
      rw [← List.length_cons (a := 10)]
      exact (List.suffix_append first _).length_le
    have hcounted := hcounted.of_le hle
    have htext : 10 ∉ st.line ++ first := by
      rw [List.mem_append, not_or]
      exact ⟨hst.newline, hfirst.1⟩
    have hzeros : 0 ∉ st.line ++ first := by
      rw [List.mem_append, not_or]
      exact ⟨hst.zero, hfirst.2⟩
    rw [logicalLines]
    by_cases hlong : asciilinesz ≤ (st.line ++ first).length + 1
    · simp only [if_pos hlong]
      exact ⟨none, loadLoop_long htext hzeros hst.room hlong rounds _, outcome_none _ _ _⟩
    simp only [if_neg hlong]
    have hbuffered : Buffered (st.line ++ first) := ⟨htext, hzeros, Nat.lt_of_not_le hlong⟩
    have hfgets : fgets (asciilinesz - st.line.length) (first ++ 10 :: (endLines 10 lines ++ last)) =
        some (first ++ [10], endLines 10 lines ++ last, false) := by
      refine fgets_some (readLine_line hfirst.1 ?_ _) (Or.inr rfl)
      rw [List.length_append] at hlong
      omega
    have hfuel : (endLines 10 lines ++ last).length < rounds := by
      rw [List.length_append, List.length_cons] at hrounds
      omega
    by_cases hnil : st.line ++ first = []
    · -- An end of line alone is passed over, and an empty line sets nothing.
      obtain ⟨hline, rfl⟩ := List.append_eq_nil_iff.mp hnil
      have hread : loadRead st [10] false = .ok (some st) := by
        rw [loadRead, hline]
        rfl
      obtain ⟨result, hresult, hrun⟩ := ih hpacked (hcounted.of_le (Nat.le_succ _)) hst hrest hfuel
      rw [loadLoop_some rounds hfgets hread]
      rw [hline] at hrun ⊢
      exact ⟨result, hresult, hrun.skip (Or.inl rfl)⟩
    · obtain ⟨st', entries', hst', hpacked', hcounted', hbuffered', houtcome⟩ :=
        loadText_outcome hpacked hcounted hbuffered
      rw [loadLoop_some rounds hfgets ((loadRead_line hbuffered hnil).trans hst')]
      obtain ⟨result, hresult, hrun⟩ := ih hpacked' hcounted' hbuffered' hrest hfuel
      exact ⟨result, hresult, houtcome _ _ _ hrun⟩

/-- A text file is loaded unless a line is too long or an error, and then the
dictionary has the keys that its lines set, in the order in which they come first. -/
theorem iniparserLoad_packed {file : Text} (hfile : 0 ∉ file) (hsize : file.length < 2 ^ 30) :
    ∃ result, iniparserLoad (some file) = .ok result ∧
      Option.Rel Loaded result ((fileSets file).map setEntries) := by
  obtain ⟨hlines, hlast⟩ := splitLines_not_mem 10 file
  have hsplit := endLines_splitLines 10 file
  unfold fileSets
  generalize splitLines 10 file = split at hlines hlast hsplit ⊢
  obtain ⟨lines, last⟩ := split
  subst hsplit
  rw [List.mem_append, not_or] at hfile
  dsimp only at hsize
  have hcounted : Counted ⟨[], [], dictionaryNew 0, 0⟩ [] (endLines 10 lines ++ last).length :=
    ⟨Int.le_refl 0, by dsimp only; omega, by rwa [List.length_nil, Nat.zero_add]⟩
  have hzero : ∀ line ∈ lines, 10 ∉ line ∧ 0 ∉ line := fun line hline =>
    ⟨hlines line hline, fun h0 => hfile.1 (List.mem_flatMap.mpr ⟨line, hline, List.mem_append_left _ h0⟩)⟩
  have hstart : Packed (⟨[], [], dictionaryNew 0, 0⟩ : Loading).dict [] := packed_dictionaryNew (by decide)
  exact loadLoop_lines hstart hcounted buffered_nil hzero ⟨hlast, hfile.2⟩ (Nat.lt_succ_self _)

/-- Loading a text file ends. It gives nothing exactly if a line is too long or an
error. Otherwise a key that fits into the buffer of a lookup has the value of the
last line that sets it, and the sections have numbers in the order in which they
come first. -/
theorem iniparserLoad_answers {file : Text} (hfile : 0 ∉ file) (hsize : file.length < 2 ^ 30) :
    ∃ result, iniparserLoad (some file) = .ok result ∧
      match fileSets file with
      | none => result = none
      | some sets => result ≠ none ∧
        (∀ key : Text, key.length ≤ asciilinesz → iniparserGetstring result key =
          (sets.reverse.find? fun e => e.1 = key.map toLower).map Prod.snd) ∧
        iniparserGetnsec result = .ok (sectionNames sets).length ∧
        ∀ n : ℕ, iniparserGetsecname result n = .ok (sectionNames sets)[n]? := by
  obtain ⟨result, hresult, hrel⟩ := iniparserLoad_packed hfile hsize
  refine ⟨result, hresult, ?_⟩
  cases hsets : fileSets file with
  | none =>
    rw [hsets] at hrel
    cases hrel
    rfl
  | some sets =>
    rw [hsets] at hrel
    obtain ⟨hpacked, hslots⟩ := hrel
    rename_i d
    have hsections : (slotKeys d.slots).filter isSecname = sectionNames sets := by
      rw [hpacked.slotKeys_slots, map_setEntries, sectionNames]
    refine ⟨Option.some_ne_none d, fun key hkey => ?_, ?_, fun n => ?_⟩
    · rw [iniparserGetstring, strlwc, Nat.add_sub_cancel, List.take_of_length_le hkey, hpacked.get]
      simp only [beq_eq_decide]
      rw [find?_setEntries]
    · rw [iniparserGetnsec_eq hslots, hsections]
    · rw [iniparserGetsecname_eq hslots, hsections]

/-- A section with one key. -/
theorem iniparserLoad_answers_section : ∃ result, iniparserLoad (some (ascii "[A]\nB=1\n")) = .ok result ∧
    result ≠ none ∧
    (∀ key : Text, key.length ≤ asciilinesz → iniparserGetstring result key =
      ([(ascii "a:b", some (ascii "1")), (ascii "a", none)].find? fun e =>
        e.1 = key.map toLower).map Prod.snd) ∧
    iniparserGetnsec result = .ok 1 ∧ ∀ n : ℕ, iniparserGetsecname result n = .ok [ascii "a"][n]? := by
  have hsets : fileSets (ascii "[A]\nB=1\n") = some
    [(ascii "a", none), (ascii "a:b", some (ascii "1"))] := by decide
  have h := @iniparserLoad_answers (ascii "[A]\nB=1\n") (by decide) (by decide)
  rw [hsets] at h
  exact h

/-- A lower-case character stays. -/
theorem toLower_toLower (c : UInt8) : toLower (toLower c) = toLower c := by
  unfold toLower
  simp only [UInt8.le_iff_toNat_le, ← UInt8.toNat_inj]
  split_ifs
  · simp_all
    omega
  all_goals rfl

/-- So does a lower-case text. -/
theorem map_toLower_map (text : Text) : (text.map toLower).map toLower = text.map toLower := by
  rw [List.map_map]
  exact List.map_congr_left fun c _ => toLower_toLower c

/-- Names and keys are in lower case. -/
def Lower : Line → Prop
  | .header name => name.map toLower = name
  | .value key _ => key.map toLower = key
  | _ => True

/-- What a line stores is in lower case. -/
theorem lower_lineMeaning (sectionName line : Text) : Lower (lineMeaning sectionName line) := by
  have hvalue (line : Text) : Lower (valueLine line) := by
    unfold valueLine
    cases line.takeWhile (· != 61) with
    | nil => trivial
    | cons c key =>
      cases line.dropWhile (· != 61) with
      | nil => trivial
      | cons d text => exact map_toLower_map _
  unfold lineMeaning
  cases strstrip line with
  | nil => trivial
  | cons c rest =>
    dsimp only
    split_ifs
    · trivial
    · exact map_toLower_map _
    · exact map_toLower_map _
    · exact hvalue _

/-- What lines set is in lower case, and a value belongs to a section that a line names. -/
theorem assignments_keys {sets : List (Text × Option Text)} (hname : sectionName.map toLower = sectionName)
    (h : assignments sectionName lines = some sets) :
    ∀ e ∈ sets, e.1.map toLower = e.1 ∧
      (e.2 ≠ none → ∃ name key, e.1 = name ++ 58 :: key ∧ (name = sectionName ∨ (name, none) ∈ sets)) := by
  induction lines generalizing sectionName sets with
  | nil =>
    cases h
    exact fun e he => absurd he List.not_mem_nil
  | cons line lines ih =>
    have hlower := lower_lineMeaning sectionName line
    rw [assignments] at h
    cases hline : lineMeaning sectionName line with
    | empty => exact ih hname (by simpa only [hline] using h)
    | comment => exact ih hname (by simpa only [hline] using h)
    | error => simp [hline] at h
    | header name =>
      rw [hline] at h hlower
      obtain ⟨rest, hrest, rfl⟩ := Option.map_eq_some_iff.mp h
      refine List.forall_mem_cons.mpr ⟨⟨hlower, fun hnone => absurd rfl hnone⟩, fun e he => ?_⟩
      obtain ⟨hkey, hvalue⟩ := ih hlower hrest e he
      refine ⟨hkey, fun hsome => ?_⟩
      obtain ⟨s, key, heq, hs⟩ := hvalue hsome
      exact ⟨s, key, heq, Or.inr (hs.elim (fun hs => hs ▸ List.mem_cons_self) (List.mem_cons_of_mem _))⟩
    | value key val =>
      rw [hline] at h hlower
      obtain ⟨rest, hrest, rfl⟩ := Option.map_eq_some_iff.mp h
      refine List.forall_mem_cons.mpr ⟨⟨?_, fun _ => ⟨sectionName, key, rfl, Or.inl rfl⟩⟩, fun e he => ?_⟩
      · rw [List.map_append, List.map_cons, hname, hlower]
        rfl
      · obtain ⟨hkey, hvalue⟩ := ih hname hrest e he
        refine ⟨hkey, fun hsome => ?_⟩
        obtain ⟨s, key, heq, hs⟩ := hvalue hsome
        exact ⟨s, key, heq, hs.imp_right (List.mem_cons_of_mem _)⟩

/-- The keys of a file are in lower case, and values belong to sections. -/
theorem fileSets_keys {file : Text} {sets : List (Text × Option Text)} (h : fileSets file = some sets) :
    ∀ e ∈ sets, e.1.map toLower = e.1 ∧
      (e.2 ≠ none → ∃ name key, e.1 = name ++ 58 :: key ∧ (name = [] ∨ (name, none) ∈ sets)) := by
  obtain ⟨lines, -, hlines⟩ := Option.bind_eq_some_iff.mp h
  exact assignments_keys rfl hlines

/-- Joined lines fit into the buffer. -/
theorem logicalLines_short {pending : Text} {joinedLines : List Text}
    (h : logicalLines pending lines last = some joinedLines) :
    ∀ line ∈ joinedLines, line.length < asciilinesz := by
  have hshort {text : Text} (hlong : ¬ asciilinesz ≤ text.length + 1) :
      (text.rdropWhile isSpace).length < asciilinesz := by
    have hle := (List.rdropWhile_prefix isSpace text).length_le
    omega
  induction lines generalizing pending joinedLines with
  | nil =>
    rw [logicalLines] at h
    dsimp only at h
    split_ifs at h with hnone hlong hbackslash
    · cases h
      exact fun line hline => absurd hline List.not_mem_nil
    · cases h
      exact fun line hline => absurd hline List.not_mem_nil
    · cases h
      exact List.forall_mem_singleton.mpr (hshort hlong)
  | cons first lines ih =>
    rw [logicalLines] at h
    dsimp only at h
    split_ifs at h with hlong hbackslash
    · exact ih h
    · obtain ⟨rest, hrest, rfl⟩ := Option.map_eq_some_iff.mp h
      exact List.forall_mem_cons.mpr ⟨hshort hlong, ih hrest⟩

/-- Values are no longer than lines. -/
theorem assignments_short {sets : List (Text × Option Text)}
    (hlines : ∀ line ∈ lines, line.length < asciilinesz)
    (h : assignments sectionName lines = some sets) :
    ∀ e ∈ sets, ∀ val ∈ e.2, val.length < asciilinesz := by
  induction lines generalizing sectionName sets with
  | nil =>
    cases h
    exact fun e he => absurd he List.not_mem_nil
  | cons line lines ih =>
    obtain ⟨hline, hlines⟩ := List.forall_mem_cons.mp hlines
    rw [assignments] at h
    cases hmeaning : lineMeaning sectionName line with
    | empty => exact ih hlines (by simpa only [hmeaning] using h)
    | comment => exact ih hlines (by simpa only [hmeaning] using h)
    | error => simp [hmeaning] at h
    | header name =>
      rw [hmeaning] at h
      obtain ⟨rest, hrest, rfl⟩ := Option.map_eq_some_iff.mp h
      exact List.forall_mem_cons.mpr ⟨fun val hval => (by cases hval), ih hlines hrest⟩
    | value key value =>
      rw [hmeaning] at h
      obtain ⟨rest, hrest, rfl⟩ := Option.map_eq_some_iff.mp h
      refine List.forall_mem_cons.mpr ⟨fun val hval => ?_, ih hlines hrest⟩
      cases hval
      exact (length_value_le hmeaning).trans_lt hline

/-- The values of a file fit into a line. -/
theorem fileSets_short {file : Text} {sets : List (Text × Option Text)} (h : fileSets file = some sets) :
    ∀ e ∈ sets, ∀ val ∈ e.2, val.length < asciilinesz := by
  obtain ⟨lines, hjoined, hlines⟩ := Option.bind_eq_some_iff.mp h
  exact assignments_short (logicalLines_short hjoined) hlines

end ApduPlay.IniFile
