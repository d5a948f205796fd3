import ApduPlay.IniDictionary
import ApduPlay.RuleFile

/-!
# Sections of the dictionary

The names of sections are the keys without a colon, and they are told by going
through the arrays again for each number; places and names are counted by `int`s.
When keys are only set the entries lie
one after the other in the order in which they were set first, which is how the
loader of rules sees the dictionary.
-/

namespace ApduPlay.IniSections

open IniDictionary KeyedLists SlotTables TextNumbers

/-- The name of a section has no colon. -/
def isSecname (key : Text) : Bool := !key.contains 58

/-- The loop of `iniparser_getnsec` over the places from `i` on. A place below zero is
below the size as well, and is read. -/
def nsecLoop (i nsec : ℤ) : List Slot → Except Fault ℤ
  | [] => if i < 0 then .error .outOfBounds else .ok nsec
  | slot :: slots =>
    if i < 0 then .error .outOfBounds
    else
      match slot.key with
      | none => nsecLoop (wrapInt (i + 1)) nsec slots
      | some key => nsecLoop (wrapInt (i + 1)) (if isSecname key then wrapInt (nsec + 1) else nsec) slots

/-- `iniparser_getnsec` -/
def iniparserGetnsec : Option Dictionary → Except Fault ℤ
  | none => .ok (-1)
  | some d => nsecLoop 0 0 d.slots

/-- The loop of `iniparser_getsecname` over the places from `i` on. -/
def secnameLoop (n i foundsec : ℤ) : List Slot → Except Fault (Option Text)
  | [] => if i < 0 then .error .outOfBounds else .ok none
  | slot :: slots =>
    if i < 0 then .error .outOfBounds
    else
      match slot.key with
      | none => secnameLoop n (wrapInt (i + 1)) foundsec slots
      | some key =>
        if isSecname key then
          if wrapInt (foundsec + 1) > n then .ok (some key)
          else secnameLoop n (wrapInt (i + 1)) (wrapInt (foundsec + 1)) slots
        else secnameLoop n (wrapInt (i + 1)) foundsec slots

/-- `iniparser_getsecname` -/
def iniparserGetsecname (d : Option Dictionary) (n : ℤ) : Except Fault (Option Text) :=
  match d with
  | none => .ok none
  | some d => if n < 0 then .ok none else secnameLoop n 0 0 d.slots

/-- `ASCIILINESZ` -/
def asciilinesz : ℕ := 1024

/-- `strlwc` for a buffer that is not empty. -/
def strlwc (text : Text) (len : ℕ) : Text := (text.take (len - 1)).map toLower

/-- `iniparser_getstring`, which returns its default if there is no such key. -/
def iniparserGetstring (d : Option Dictionary) (key : Text) : Option (Option Text) :=
  match d with
  | none => none
  | some d => dictionaryGet d (strlwc key (asciilinesz + 1))

/-- The keys of all places in the order of the arrays. -/
def slotKeys (slots : List Slot) : List Text := slots.filterMap Slot.key

variable {d d' : Dictionary} {m : Text → Option (Option Text)} {key : Text} {val : Option Text}
  {entries : List (Text × Option Text)}

/-- The next place of arrays that are not too long. -/
theorem wrapInt_succ {i : ℕ} (h : i + 1 < 2 ^ 31) : wrapInt ((i : ℤ) + 1) = (i + 1 : ℕ) :=
  wrapInt_eq ⟨by omega, by omega⟩

/-- The loop counts the names that are left. -/
theorem nsecLoop_eq (slots : List Slot) {i nsec : ℕ} (hle : nsec ≤ i) (hsize : i + slots.length < 2 ^ 31) :
    nsecLoop i nsec slots = .ok (nsec + ((slotKeys slots).filter isSecname).length : ℕ) := by
  induction slots generalizing i nsec with
  | nil => exact if_neg (Int.not_lt.mpr (Int.natCast_nonneg i))
  | cons slot slots ih =>
    rw [List.length_cons] at hsize
    rw [nsecLoop, if_neg (Int.not_lt.mpr (Int.natCast_nonneg i)), slotKeys, wrapInt_succ (by omega)]
    cases hkey : slot.key with
    | none =>
      rw [List.filterMap_cons_none hkey]
      exact ih (by omega) (by omega)
    | some key =>
      rw [List.filterMap_cons_some hkey, List.filter_cons]
      by_cases hname : isSecname key = true
      · simp only [if_pos hname, wrapInt_succ (show nsec + 1 < 2 ^ 31 by omega), List.length_cons]
        rw [ih (Nat.add_le_add_right hle 1) (by omega), slotKeys, Nat.add_assoc, Nat.add_comm 1]
      · simp only [if_neg hname]
        exact ih (by omega) (by omega)

/-- It finds the name with a number among those that are left. -/
theorem secnameLoop_eq (slots : List Slot) {i foundsec : ℕ} (n : ℕ) (hle : foundsec ≤ i)
    (hsize : i + slots.length < 2 ^ 31) :
    secnameLoop ((foundsec + n : ℕ) : ℤ) i foundsec slots =
      .ok ((slotKeys slots).filter isSecname)[n]? := by
  induction slots generalizing i foundsec n with
  | nil => exact if_neg (Int.not_lt.mpr (Int.natCast_nonneg i))
  | cons slot slots ih =>
    rw [List.length_cons] at hsize
    rw [secnameLoop, if_neg (Int.not_lt.mpr (Int.natCast_nonneg i)), slotKeys, wrapInt_succ (by omega),
      wrapInt_succ (show foundsec + 1 < 2 ^ 31 by omega)]
    cases hkey : slot.key with
    | none =>
      rw [List.filterMap_cons_none hkey]
      exact ih n (by omega) (by omega)
    | some key =>
      rw [List.filterMap_cons_some hkey, List.filter_cons]
      dsimp only
      by_cases hname : isSecname key = true
      · rw [if_pos hname, if_pos hname]
        cases n with
        | zero => exact if_pos (by omega)
        | succ n =>
          rw [if_neg (by omega), List.getElem?_cons_succ]
          have hnext := ih n (Nat.add_le_add_right hle 1) (by omega)
          rwa [Nat.add_right_comm] at hnext
      · rw [if_neg hname, if_neg hname]
        exact ih n (by omega) (by omega)

/-- The number of names. -/
theorem iniparserGetnsec_eq {d : Dictionary} (hsize : d.slots.length < 2 ^ 31) :
    iniparserGetnsec (some d) = .ok ((slotKeys d.slots).filter isSecname).length := by
  have hloop := nsecLoop_eq d.slots (Nat.le_refl 0) (by rwa [Nat.zero_add])
  rwa [Nat.zero_add] at hloop

/-- The names by their numbers. -/
theorem iniparserGetsecname_eq {d : Dictionary} (hsize : d.slots.length < 2 ^ 31) (n : ℕ) :
    iniparserGetsecname (some d) n = .ok ((slotKeys d.slots).filter isSecname)[n]? := by
  have hloop := secnameLoop_eq d.slots n (Nat.le_refl 0) (by rwa [Nat.zero_add])
  rw [Nat.zero_add] at hloop
  rw [iniparserGetsecname, if_neg (Int.not_lt.mpr (Int.natCast_nonneg n))]
  exact hloop

/-- The keys are those of the entries. -/
theorem slotKeys_eq (slots : List Slot) : slotKeys slots = keys (slots.map Slot.entry) := by
  rw [slotKeys, keys, List.filterMap_map]
  refine congrArg (fun f => slots.filterMap f) (funext fun slot => ?_)
  cases hkey : slot.key <;> simp [Slot.entry, hkey]

/-- The place of an entry. -/
def Slot.ofEntry (e : Text × Option Text) : Slot := ⟨some e.1, e.2, dictionaryHash e.1⟩

/-- The entries lie one after the other, and free places follow. -/
structure Packed (d : Dictionary) (entries : List (Text × Option Text)) : Prop where
  /-- What the places hold. -/
  slots : ∃ free, d.slots = entries.map Slot.ofEntry ++ List.replicate free Slot.free
  /-- The entries are counted. -/
  count : d.n = entries.length
  /-- The arrays are not empty. -/
  size_pos : 0 < d.slots.length
  /-- They are as they were at first, or doubled when they were full. -/
  size_le : d.slots.length < 2 ^ 31 ∨ d.slots.length ≤ 2 * entries.length

/-- The entry of a key has a new value, or a new entry comes last. -/
def setEntry (entries : List (Text × Option Text)) (key : Text) (val : Option Text) :
    List (Text × Option Text) :=
  put Prod.fst key (key, val) (fun e => (e.1, val)) entries

/-- A new dictionary is as large as it should be. -/
theorem length_dictionaryNew {size : ℕ} (hsize : size < 2 ^ 31) :
    (dictionaryNew size).slots.length < 2 ^ 31 := by
  rw [dictionaryNew, List.length_replicate]
  split_ifs
  · decide
  · exact hsize

/-- A new dictionary has no entries. -/
theorem packed_dictionaryNew {size : ℕ} (hsize : size < 2 ^ 31) : Packed (dictionaryNew size) [] :=
  ⟨⟨_, rfl⟩, rfl, (stores_dictionaryNew size).size_pos, Or.inl (length_dictionaryNew hsize)⟩

/-- There is at most one more entry. -/
theorem length_setEntry_le (entries : List (Text × Option Text)) (key : Text) (val : Option Text) :
    (setEntry entries key val).length ≤ entries.length + 1 := by
  unfold setEntry put
  split
  · rw [List.length_modify]
    exact Nat.le_succ _
  · rw [List.length_append]
    rfl

/-- An entry is found by its key. -/
theorem holds_ofEntry (e : Text × Option Text) (key : Text) :
    (Slot.ofEntry e).holds key = decide (e.1 = key) := by
  by_cases hkey : e.1 = key
  · rw [Slot.holds, Slot.ofEntry, hkey]
    simp
  · rw [Slot.holds, Slot.ofEntry]
    simp [hkey, Ne.symm hkey]

/-- The place of a key is that of its entry. -/
theorem Packed.findIdx? (h : Packed d entries) (key : Text) :
    d.slots.findIdx? (·.holds key) = entries.findIdx? fun e => e.1 = key := by
  obtain ⟨free, hslots⟩ := h.slots
  have hfree : (List.replicate free Slot.free).findIdx? (·.holds key) = none :=
    List.findIdx?_eq_none_iff.mpr fun slot hslot => by rw [List.eq_of_mem_replicate hslot]; rfl
  have hcomp : (fun slot : Slot => slot.holds key) ∘ Slot.ofEntry = fun e => decide (e.1 = key) :=
    funext fun e => by rw [Function.comp_apply, holds_ofEntry]
  rw [hslots, List.findIdx?_append, hfree, List.findIdx?_map, hcomp]
  cases List.findIdx? (fun e => decide (e.1 = key)) entries <;> rfl

/-- A new key comes behind all others. -/
theorem Packed.insert (h : Packed d entries) (hn : d.n ≠ d.slots.length)
    (hlimit : entries.length + 1 < 2 ^ 31) (key : Text) (val : Option Text) :
    freeSlot d.slots d.slots.length entries.length = .ok entries.length ∧
      Packed ⟨wrapInt (d.n + 1), d.slots.set entries.length ⟨some key, val, dictionaryHash key⟩⟩
        (entries ++ [(key, val)]) := by
  obtain ⟨free, hslots⟩ := h.slots
  have hlen : (entries.map Slot.ofEntry).length = entries.length := List.length_map _
  cases free with
  | zero =>
    rw [List.replicate_zero, List.append_nil] at hslots
    exact absurd (by rw [hslots, hlen, h.count]) hn
  | succ free =>
    have hplace : d.slots[entries.length]? = some Slot.free := by
      rw [hslots, List.getElem?_append_right hlen.le, hlen, Nat.sub_self]
      rfl
    obtain ⟨size, hsize⟩ := Nat.exists_eq_succ_of_ne_zero h.size_pos.ne'
    refine ⟨?_, ⟨⟨free, ?_⟩, ?_, ?_, ?_⟩⟩
    · rw [hsize, freeSlot, hplace]
      rfl
    · dsimp only
      rw [hslots, List.set_append_right _ _ hlen.le, hlen, Nat.sub_self, List.replicate_succ,
        List.set_cons_zero,
        List.map_append, List.append_assoc]
      rfl
    · dsimp only
      rw [h.count, wrapInt_succ hlimit, List.length_append]
      rfl
    · dsimp only
      rw [List.length_set]
      exact h.size_pos
    · dsimp only
      rw [List.length_set, List.length_append]
      exact h.size_le.imp_right fun hle => hle.trans (Nat.mul_le_mul_left 2 (Nat.le_add_right _ _))

/-- Doubled arrays have the same entries. -/
theorem Packed.grow (h : Packed d entries) (hfull : d.n = d.slots.length) :
    Packed (dictionaryGrow d) entries := by
  obtain ⟨free, hslots⟩ := h.slots
  have hcount := h.count
  refine ⟨⟨free + d.slots.length, ?_⟩, h.count, ?_, Or.inr ?_⟩
  · rw [List.replicate_add, ← List.append_assoc, ← hslots]
    rfl
  · rw [dictionaryGrow, List.length_append]
    exact Nat.lt_of_lt_of_le h.size_pos (Nat.le_add_right _ _)
  · rw [dictionaryGrow, List.length_append, List.length_replicate]
    omega

/-- Setting a key keeps the entries together. -/
theorem Packed.set (h : Packed d entries) (hlimit : entries.length + 1 < 2 ^ 31) (key : Text)
    (val : Option Text) :
    ∃ d', dictionarySet d key val = .ok d' ∧ Packed d' (setEntry entries key val) := by
  have hfound : (if d.n > 0 then d.slots.findIdx? (·.holds key) else none) =
      entries.findIdx? fun e => e.1 = key := by
    rw [h.findIdx?]
    split_ifs with hpos
    · rfl
    · rw [h.count] at hpos
      rw [List.length_eq_zero_iff.mp (show entries.length = 0 by omega)]
      rfl
  rw [dictionarySet, hfound, setEntry, put]
  cases hi : entries.findIdx? fun e => e.1 = key with
  | some i =>
    obtain ⟨free, hslots⟩ := h.slots
    obtain ⟨hlt, -, -⟩ := List.findIdx?_eq_some_iff_getElem.mp hi
    refine ⟨_, rfl, ⟨⟨free, ?_⟩, ?_, ?_, ?_⟩⟩
    · have hplace : d.slots[i]? = some (Slot.ofEntry entries[i]) := by
        rw [hslots, List.getElem?_append_left (by rwa [List.length_map]), List.getElem?_map,
          List.getElem?_eq_getElem hlt]
        rfl
      dsimp only
      rw [modify_slot hplace, hslots, List.set_append_left _ _ (by rwa [List.length_map]), List.modify_eq_set,
        List.getElem?_eq_getElem hlt, List.map_set]
      rfl
    · dsimp only
      rw [List.length_modify, h.count]
    · dsimp only
      rw [List.length_modify]
      exact h.size_pos
    · dsimp only
      rw [List.length_modify, List.length_modify]
      exact h.size_le
  | none =>
    have hcount : d.n.toNat = entries.length := by rw [h.count, Int.toNat_natCast]
    have hnot : ¬ d.n < 0 := by rw [h.count]; exact Int.not_lt.mpr (Int.natCast_nonneg _)
    by_cases hfull : d.n = d.slots.length
    · have hroom : (dictionaryGrow d).n ≠ (dictionaryGrow d).slots.length := by
        rw [dictionaryGrow, List.length_append, List.length_replicate]
        have hpos := h.size_pos
        dsimp only
        omega
      obtain ⟨hp, hpacked⟩ := (h.grow hfull).insert hroom hlimit key val
      rw [← hcount] at hp hpacked
      refine ⟨_, ?_, hpacked⟩
      simp only [if_pos hfull]
      exact (if_neg hnot).trans (Fault.bind_ok hp)
    · obtain ⟨hp, hpacked⟩ := h.insert hfull hlimit key val
      rw [← hcount] at hp hpacked
      refine ⟨_, ?_, hpacked⟩
      simp only [if_neg hfull]
      exact (if_neg hnot).trans (Fault.bind_ok hp)

/-- Changes that set keys. -/
def setChanges (sets : List (Text × Option Text)) : List Change := sets.map fun e => .set e.1 e.2

/-- The entries after keys were set. -/
def setEntries (sets : List (Text × Option Text)) : List (Text × Option Text) :=
  sets.foldl (fun entries e => setEntry entries e.1 e.2) []

/-- Setting keys one after the other keeps the entries together. -/
theorem Packed.sets (h : Packed d entries) (sets : List (Text × Option Text))
    (hlimit : entries.length + sets.length < 2 ^ 31) :
    ∃ d', (setChanges sets).foldlM Change.run d = .ok d' ∧
      Packed d' (sets.foldl (fun entries e => setEntry entries e.1 e.2) entries) := by
  induction sets generalizing d entries with
  | nil => exact ⟨d, rfl, h⟩
  | cons e sets ih =>
    rw [List.length_cons] at hlimit
    have hle := length_setEntry_le entries e.1 e.2
    obtain ⟨d₁, hd₁, hpacked₁⟩ := h.set (by omega) e.1 e.2
    obtain ⟨d', hd', hpacked'⟩ := ih hpacked₁ (by omega)
    exact ⟨d', (Fault.bind_ok hd₁).trans hd', hpacked'⟩

/-- The keys come in the order in which they were set first. -/
theorem map_setEntries (sets : List (Text × Option Text)) :
    (setEntries sets).map Prod.fst = (sets.map Prod.fst).eraseDups := by
  induction sets using List.reverseRecOn with
  | nil => rfl
  | append_singleton sets e ih =>
    rw [setEntries, List.foldl_append, List.map_append]
    exact map_put_of_eraseDups rfl (fun _ => rfl) ih

/-- The keys lie in the order of the entries. -/
theorem Packed.slotKeys_slots (h : Packed d entries) : slotKeys d.slots = entries.map Prod.fst := by
  obtain ⟨free, hslots⟩ := h.slots
  have hfree : slotKeys (List.replicate free Slot.free) = [] :=
    List.filterMap_eq_nil_iff.mpr fun slot hslot => by rw [List.eq_of_mem_replicate hslot]; rfl
  have hentries : (entries.map Slot.ofEntry).filterMap Slot.key = entries.map Prod.fst := by
    rw [List.filterMap_map]
    exact congrFun List.filterMap_eq_map entries
  rw [hslots, slotKeys, List.filterMap_append, hentries]
  rw [slotKeys] at hfree
  rw [hfree, List.append_nil]

/-- The names of the sections in the order in which they come first. -/
def sectionNames (sets : List (Text × Option Text)) : List Text :=
  (sets.map Prod.fst).eraseDups.filter isSecname

/-- The entry of a key is the last one that was set. -/
theorem find?_setEntries (sets : List (Text × Option Text)) (key : Text) :
    (setEntries sets).find? (fun e => e.1 = key) = sets.reverse.find? fun e => e.1 = key := by
  induction sets using List.reverseRecOn with
  | nil => rfl
  | append_singleton sets e ih =>
    rw [List.reverse_append, List.reverse_singleton, List.singleton_append, List.find?_cons, setEntries,
      List.foldl_append]
    refine (find?_put e.1 e.2 key).trans ?_
    by_cases he : e.1 = key
    · rw [if_pos he, decide_eq_true he, ← he]
    · rw [if_neg he, decide_eq_false he]
      exact ih

/-- Whatever keys are set and unset, the numbers from zero on name each section that
the dictionary has, once. If keys are only set, the sections come in the order in
which they were set first. -/
theorem sections_run (size : ℕ) (changes : List Change) (hsize : size < 2 ^ 31)
    (hlimit : changes.length ≤ 2 ^ 30) :
    ∃ d names, changes.foldlM Change.run (dictionaryNew size) = .ok d ∧ names.Nodup ∧
      (∀ name, name ∈ names ↔ isSecname name = true ∧ contents changes name ≠ none) ∧
      iniparserGetnsec (some d) = .ok names.length ∧
      (∀ n : ℕ, iniparserGetsecname (some d) n = .ok names[n]?) ∧
      ∀ sets, changes = setChanges sets → names = sectionNames sets := by
  have hn : (dictionaryNew size).n = 0 := rfl
  obtain ⟨d, hd, hstores, hlength⟩ := (stores_dictionaryNew size).changes changes
    (by omega)
  have hnew := length_dictionaryNew hsize
  have hslots : d.slots.length < 2 ^ 31 := by omega
  refine ⟨d, (slotKeys d.slots).filter isSecname, hd, ?_, ?_, iniparserGetnsec_eq hslots,
    iniparserGetsecname_eq hslots, ?_⟩
  · rw [slotKeys_eq]
    exact hstores.represents.nodup_keys.filter _
  · intro name
    rw [List.mem_filter, slotKeys_eq, hstores.represents.mem_keys_iff, and_comm]
    rfl
  · rintro sets rfl
    rw [setChanges, List.length_map] at hlimit
    obtain ⟨d', hd', hpacked⟩ := (packed_dictionaryNew hsize).sets sets
      (by rw [List.length_nil]; omega)
    rw [hd] at hd'
    cases hd'
    rw [hpacked.slotKeys_slots, sectionNames, ← map_setEntries]
    rfl

/-- Two sections, the first of them twice. -/
theorem sections_run_headers :
    ∃ d, (setChanges [([98], none), ([97], none), ([98], none)]).foldlM Change.run (dictionaryNew 0) = .ok d ∧
      iniparserGetnsec (some d) = .ok 2 ∧ ∀ n : ℕ, iniparserGetsecname (some d) n = .ok [[98], [97]][n]? := by
  obtain ⟨d, names, hd, -, -, hnsec, hsecname, hsets⟩ :=
    sections_run 0 (setChanges [([98], none), ([97], none), ([98], none)]) (by decide) (by decide)
  have hnames : names = [[98], [97]] := (hsets _ rfl).trans (by decide)
  rw [hnames] at hnsec hsecname
  exact ⟨d, hd, hnsec, hsecname⟩

/-- What is looked up is the value of the entry. -/
theorem Packed.get (h : Packed d entries) (key : Text) :
    dictionaryGet d key = (entries.find? fun e => e.1 == key).map Prod.snd := by
  obtain ⟨free, hslots⟩ := h.slots
  have hfree : (List.replicate free Slot.free).find? (·.holds key) = none :=
    List.find?_eq_none.mpr fun slot hslot => by
      rw [List.eq_of_mem_replicate hslot]
      exact Bool.false_ne_true
  have hcomp : (fun slot : Slot => slot.holds key) ∘ Slot.ofEntry = fun e => e.1 == key :=
    funext fun e => by rw [Function.comp_apply, holds_ofEntry, beq_eq_decide]
  rw [dictionaryGet, hslots, List.find?_append, hfree, Option.or_none, List.find?_map, hcomp, Option.map_map]
  rfl

/-- The dictionary as the loader of rules sees it. -/
theorem Packed.loaderSees (h : Packed d entries) {dict : RuleFile.Dictionary}
    (hdict : dict.entries = entries) :
    dict.sections = (slotKeys d.slots).filter isSecname ∧
      ∀ key : Text, key.length ≤ asciilinesz →
        dict.getString key = (iniparserGetstring (some d) key).getD (some []) := by
  constructor
  · rw [h.slotKeys_slots, RuleFile.Dictionary.sections, hdict]
    refine List.filter_congr fun name _ => ?_
    simp [isSecname]
  · intro key hkey
    rw [iniparserGetstring, strlwc, Nat.add_sub_cancel, List.take_of_length_le hkey, h.get,
      RuleFile.Dictionary.getString, hdict]
    cases (entries.find? fun e => e.1 == key.map toLower) <;> rfl

end ApduPlay.IniSections
