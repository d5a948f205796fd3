import ApduPlay.Basic
import ApduPlay.Library.KeyedLists
import ApduPlay.Library.SlotTables

/-!
# The dictionary of the ini file parser

Keys and values lie in arrays that are searched from their beginning. A new key
goes into the first free place from the number of entries on, and the arrays
double when no place is free. The number of entries is an `int`. The hash of a
key is compared before the key. Allocations succeed.
-/

namespace ApduPlay.IniDictionary

open KeyedLists SlotTables

/-- `DICTMINSZ` -/
def dictminsz : ℕ := 128

/-- One place of the arrays `key`, `val` and `hash`. -/
structure Slot where
  /-- Key, or a null pointer. -/
  key : Option Text
  /-- Value, or a null pointer. -/
  val : Option Text
  /-- Hash of the key. -/
  hash : UInt32
  deriving DecidableEq, Repr

/-- A place as `calloc` leaves it. -/
def Slot.free : Slot := ⟨none, none, 0⟩

/-- `dictionary` -/
structure Dictionary where
  /-- Number of entries. -/
  n : ℤ
  /-- The arrays, of the storage size. -/
  slots : List Slot
  deriving DecidableEq, Repr

/-- A `char` is signed, and its sign is kept when it becomes an `unsigned`. -/
def unsignedOfChar (c : UInt8) : UInt32 := if c < 128 then c.toUInt32 else c.toUInt32 + 0xFFFFFF00

/-- `dictionary_hash` -/
def dictionaryHash (key : Text) : UInt32 :=
  let hash := key.foldl (fun hash c =>
    let hash := hash + unsignedOfChar c
    let hash := hash + (hash <<< 10)
    hash ^^^ (hash >>> 6)) 0
  let hash := hash + (hash <<< 3)
  let hash := hash ^^^ (hash >>> 11)
  hash + (hash <<< 15)

/-- `dictionary_new` -/
def dictionaryNew (size : ℕ) : Dictionary :=
  ⟨0, List.replicate (if size < dictminsz then dictminsz else size) Slot.free⟩

/-- Compare the hash, and the string to avoid hash collisions. -/
def Slot.holds (slot : Slot) (key : Text) : Bool :=
  match slot.key with
  | none => false
  | some k => dictionaryHash key == slot.hash && key == k

/-- `dictionary_get`, which returns its default if there is no such key. -/
def dictionaryGet (d : Dictionary) (key : Text) : Option (Option Text) :=
  (d.slots.find? (·.holds key)).map Slot.val

/-- `dictionary_grow` -/
def dictionaryGrow (d : Dictionary) : Dictionary :=
  { d with slots := d.slots ++ List.replicate d.slots.length Slot.free }

/-- The loop that looks for a free place and starts again behind the last one,
for a number of rounds. -/
def freeSlot (slots : List Slot) : ℕ → ℕ → Except Fault ℕ
  | 0, _ => .error .endlessLoop
  | rounds + 1, i =>
    match slots[i]? with
    | none => .error .outOfBounds
    | some slot =>
      if slot.key = none then .ok i
      else freeSlot slots rounds (if i + 1 = slots.length then 0 else i + 1)

/-- `dictionary_set` -/
def dictionarySet (d : Dictionary) (key : Text) (val : Option Text) : Except Fault Dictionary :=
  let found := if d.n > 0 then d.slots.findIdx? (·.holds key) else none
  match found with
  | some i => .ok { d with slots := d.slots.modify i fun slot => { slot with val := val } }
  | none =>
    let d := if d.n = d.slots.length then dictionaryGrow d else d
    -- A number that has wrapped around is no place of the arrays.
    if d.n < 0 then .error .outOfBounds
    else do
      let i ← freeSlot d.slots d.slots.length d.n.toNat
      return ⟨wrapInt (d.n + 1), d.slots.set i ⟨some key, val, dictionaryHash key⟩⟩

/-- `dictionary_unset` -/
def dictionaryUnset (d : Dictionary) (key : Text) : Dictionary :=
  match d.slots.findIdx? (·.holds key) with
  | none => d
  | some i => ⟨wrapInt (d.n - 1), d.slots.set i Slot.free⟩

/-- A change of the dictionary. -/
inductive Change
  /-- `dictionary_set` -/
  | set (key : Text) (val : Option Text)
  /-- `dictionary_unset` -/
  | unset (key : Text)
  deriving DecidableEq, Repr

/-- Make one change. -/
def Change.run (d : Dictionary) : Change → Except Fault Dictionary
  | .set key val => dictionarySet d key val
  | .unset key => .ok (dictionaryUnset d key)

/-- The same change of a partial function. -/
def Change.update (m : Text → Option (Option Text)) : Change → Text → Option (Option Text)
  | .set key val => Function.update m key (some val)
  | .unset key => Function.update m key none

/-- The partial function after a run of changes. -/
def contents (changes : List Change) : Text → Option (Option Text) :=
  changes.foldl Change.update fun _ => none

/-- Key and value of a place that is not free. -/
def Slot.entry (slot : Slot) : Option (Text × Option Text) := slot.key.map (·, slot.val)

/-- The dictionary stands for a partial function, counts its entries and keeps
the hashes of their keys. -/
structure Stores (d : Dictionary) (m : Text → Option (Option Text)) : Prop where
  /-- The places hold the entries. -/
  represents : Represents (d.slots.map Slot.entry) m
  /-- As many places are taken. -/
  count : d.n = (d.slots.countP fun slot => slot.key.isSome : ℕ)
  /-- The hash belongs to the key. -/
  hash : ∀ slot ∈ d.slots, ∀ key, slot.key = some key → slot.hash = dictionaryHash key
  /-- The arrays are not empty. -/
  size_pos : 0 < d.slots.length

variable {d : Dictionary} {m : Text → Option (Option Text)} {key : Text} {val : Option Text} {i : ℕ}

theorem stores_dictionaryNew (size : ℕ) : Stores (dictionaryNew size) fun _ => none := by
  have hfree (slot : Slot) (h : slot ∈ (dictionaryNew size).slots) : slot = Slot.free :=
    List.eq_of_mem_replicate h
  constructor
  · rw [dictionaryNew, List.map_replicate]
    exact represents_replicate _
  · rw [List.countP_eq_zero.mpr fun slot hslot => by rw [hfree slot hslot]; decide]
    rfl
  · intro slot hslot key hkey
    rw [hfree slot hslot] at hkey
    cases hkey
  · rw [dictionaryNew, List.length_replicate]
    split_ifs
    · decide
    · rename_i hsize
      exact Nat.lt_of_lt_of_le (by decide) (Nat.le_of_not_lt hsize)

/-- Since hashes belong to their keys, only the keys are compared. -/
theorem Stores.holds_iff (h : Stores d m) {slot : Slot} (hslot : slot ∈ d.slots) :
    slot.holds key = true ↔ slot.key = some key := by
  unfold Slot.holds
  cases hkey : slot.key with
  | none => simp
  | some k =>
    have hhash := h.hash slot hslot k hkey
    simp only [Bool.and_eq_true, beq_iff_eq, Option.some.injEq]
    constructor
    · exact fun hsame => hsame.2.symm
    · rintro rfl
      exact ⟨hhash.symm, rfl⟩

theorem getElem?_entry (slots : List Slot) (i : ℕ) (key : Text) (val : Option Text) :
    (slots.map Slot.entry)[i]? = some (some (key, val)) ↔
      ∃ slot, slots[i]? = some slot ∧ slot.key = some key ∧ slot.val = val := by
  rw [List.getElem?_map, Option.map_eq_some_iff]
  refine exists_congr fun slot => and_congr_right fun _ => ?_
  rw [Slot.entry, Option.map_eq_some_iff]
  constructor
  · rintro ⟨k, hk, hpair⟩
    cases hpair
    exact ⟨hk, rfl⟩
  · rintro ⟨hk, rfl⟩
    exact ⟨key, hk, rfl⟩

/-- The place of a key is found if the key is there. -/
theorem Stores.findIdx?_eq_some (h : Stores d m) (hi : d.slots.findIdx? (·.holds key) = some i) :
    ∃ slot, d.slots[i]? = some slot ∧ slot.key = some key := by
  obtain ⟨hlt, hholds, -⟩ := List.findIdx?_eq_some_iff_getElem.mp hi
  exact ⟨_, List.getElem?_eq_getElem hlt, (h.holds_iff (List.getElem_mem hlt)).mp hholds⟩

theorem Stores.findIdx?_eq_none_iff (h : Stores d m) :
    d.slots.findIdx? (·.holds key) = none ↔ m key = none := by
  rw [List.findIdx?_eq_none_iff]
  constructor
  · intro hnone
    by_contra hsome
    obtain ⟨v, hv⟩ := Option.ne_none_iff_exists'.mp hsome
    obtain ⟨i, hi⟩ := (h.represents.value_iff key v).mp hv
    obtain ⟨slot, hslot, hkey, -⟩ := (getElem?_entry _ _ _ _).mp hi
    have hmem := List.mem_of_getElem? hslot
    exact absurd (hnone slot hmem) (by simp [(h.holds_iff hmem).mpr hkey])
  · intro hnone slot hmem
    by_contra hholds
    have hkey := (h.holds_iff hmem).mp (by simpa using hholds)
    obtain ⟨i, hi⟩ := List.mem_iff_getElem?.mp hmem
    have hentry := (getElem?_entry d.slots i key slot.val).mpr ⟨slot, hi, hkey, rfl⟩
    have hsome := (h.represents.value_iff key slot.val).mpr ⟨i, hentry⟩
    rw [hnone] at hsome
    cases hsome

/-- One place was written. -/
theorem Stores.of_set (h : Stores d m) {old new : Slot} {n : ℤ} {m' : Text → Option (Option Text)}
    (hold : d.slots[i]? = some old) (hhash : ∀ key, new.key = some key → new.hash = dictionaryHash key)
    (hrepresents : Represents ((d.slots.map Slot.entry).set i new.entry) m')
    (hcount : n + (if old.key.isSome then 1 else 0) = d.n + if new.key.isSome then 1 else 0) :
    Stores ⟨n, d.slots.set i new⟩ m' := by
  obtain ⟨hi, hold⟩ := List.getElem?_eq_some_iff.mp hold
  constructor
  · rwa [List.map_set]
  · have hpos : (if old.key.isSome then 1 else 0) ≤ d.slots.countP fun slot => slot.key.isSome := by
      split_ifs with hsome
      · exact List.countP_pos_iff.mpr ⟨old, hold ▸ List.getElem_mem hi, hsome⟩
      · exact Nat.zero_le _
    have hnew := List.countP_set (p := fun slot : Slot => slot.key.isSome) (a := new) hi
    have hn := h.count
    rw [hold] at hnew
    dsimp only at hnew hpos ⊢
    split_ifs at hcount hnew hpos ⊢ <;> omega
  · intro slot hslot key hkey
    rcases List.mem_or_eq_of_mem_set hslot with hmem | rfl
    · exact h.hash slot hmem key hkey
    · exact hhash key hkey
  · rw [List.length_set]
    exact h.size_pos

/-- Doubled arrays hold the same. -/
theorem Stores.grow (h : Stores d m) : Stores (dictionaryGrow d) m := by
  have hfree (slot : Slot) (hslot : slot ∈ List.replicate d.slots.length Slot.free) : slot = Slot.free :=
    List.eq_of_mem_replicate hslot
  constructor
  · rw [dictionaryGrow, List.map_append, List.map_replicate]
    exact h.represents.append_free _
  · have hnone : (List.replicate d.slots.length Slot.free).countP (fun slot => slot.key.isSome) = 0 :=
      List.countP_eq_zero.mpr fun slot hslot => by rw [hfree slot hslot]; decide
    rw [dictionaryGrow, List.countP_append, hnone, Nat.add_zero]
    exact h.count
  · intro slot hslot key hkey
    rcases List.mem_append.mp hslot with hmem | hmem
    · exact h.hash slot hmem key hkey
    · rw [hfree slot hmem] at hkey
      cases hkey
  · rw [dictionaryGrow, List.length_append]
    exact Nat.lt_of_lt_of_le h.size_pos (Nat.le_add_right _ _)

/-- Rounds from one place to another, when the search starts again behind the last one. -/
def distance (size i j : ℕ) : ℕ := if i ≤ j then j - i else j + size - i

/-- The search for a free place comes to one. -/
theorem freeSlot_ok {slots : List Slot} {j : ℕ} {free : Slot} (hj : slots[j]? = some free)
    (hfree : free.key = none) (rounds : ℕ) (hi : i < slots.length)
    (hrounds : distance slots.length i j < rounds) :
    ∃ p slot, freeSlot slots rounds i = .ok p ∧ slots[p]? = some slot ∧ slot.key = none := by
  induction rounds generalizing i with
  | zero => exact absurd hrounds (Nat.not_lt_zero _)
  | succ rounds ih =>
    have hlt := (List.getElem?_eq_some_iff.mp hj).1
    rw [freeSlot, List.getElem?_eq_getElem hi]
    by_cases hkey : (slots[i]).key = none
    · refine ⟨i, slots[i], ?_, List.getElem?_eq_getElem hi, hkey⟩
      dsimp only
      rw [if_pos hkey]
    · have hne : i ≠ j := by
        rintro rfl
        rw [List.getElem?_eq_getElem hi] at hj
        exact hkey (Option.some.inj hj ▸ hfree)
      dsimp only
      rw [if_neg hkey]
      unfold distance at hrounds ih
      split_ifs with hlast
      · refine ih (by omega) ?_
        split_ifs at hrounds ⊢ <;> omega
      · refine ih (by omega) ?_
        split_ifs at hrounds ⊢ <;> omega

/-- While not all places are taken one of them is free. -/
theorem Stores.exists_free (h : Stores d m) (hn : d.n ≠ d.slots.length) :
    ∃ (j : ℕ) (free : Slot), d.slots[j]? = some free ∧ free.key = none := by
  by_contra hnone
  push Not at hnone
  have hall : (d.slots.countP fun slot => slot.key.isSome) = d.slots.length :=
    List.countP_eq_length.mpr fun slot hslot => by
      obtain ⟨j, hj⟩ := List.mem_iff_getElem?.mp hslot
      exact Option.isSome_iff_ne_none.mpr (hnone j slot hj)
  exact hn (h.count.trans (congrArg Nat.cast hall))

theorem Stores.n_nonneg (h : Stores d m) : 0 ≤ d.n := h.count ▸ Int.natCast_nonneg _

theorem Stores.n_le (h : Stores d m) : d.n ≤ d.slots.length := by
  rw [h.count]
  exact Int.ofNat_le.mpr List.countP_le_length

/-- A new key goes into a free place. -/
theorem Stores.insert (h : Stores d m) (hn : d.n ≠ d.slots.length) (hlimit : d.n + 1 < 2 ^ 31)
    (hkey : m key = none) (val : Option Text) :
    ∃ p, freeSlot d.slots d.slots.length d.n.toNat = .ok p ∧
      Stores ⟨wrapInt (d.n + 1), d.slots.set p ⟨some key, val, dictionaryHash key⟩⟩
        (Function.update m key (some val)) := by
  have hpos := h.n_nonneg
  have hlt : d.n.toNat < d.slots.length := by
    have hle := h.n_le
    omega
  obtain ⟨j, free, hj, hfree⟩ := h.exists_free hn
  have hjlt := (List.getElem?_eq_some_iff.mp hj).1
  have hdistance : distance d.slots.length d.n.toNat j < d.slots.length := by
    unfold distance
    split_ifs <;> omega
  obtain ⟨p, slot, hp, hslot, hnone⟩ := freeSlot_ok hj hfree _ hlt hdistance
  refine ⟨p, hp, h.of_set hslot ?_ ?_ ?_⟩
  · intro k hk
    cases hk
    rfl
  · refine h.represents.write ?_ ?_ ?_ val
    · rw [List.length_map]
      exact (List.getElem?_eq_some_iff.mp hslot).1
    · intro e he
      obtain ⟨slot', hslot', hkey', -⟩ := (getElem?_entry _ _ _ _).mp he
      rw [hslot] at hslot'
      cases hslot'
      rw [hnone] at hkey'
      cases hkey'
    · intro j w hw
      have hsome := (h.represents.value_iff key w).mpr ⟨j, hw⟩
      rw [hkey] at hsome
      cases hsome
  · rw [wrapInt_eq ⟨by omega, hlimit⟩]
    simp [hnone]

theorem modify_slot {slots : List Slot} {slot : Slot} (h : slots[i]? = some slot) (f : Slot → Slot) :
    slots.modify i f = slots.set i (f slot) := by
  let _ : Inhabited Slot := ⟨slot⟩
  rw [List.modify_eq_set, h]
  rfl

/-- What a change does to the number of entries and to the arrays. -/
structure Grows (d d' : Dictionary) : Prop where
  /-- There is at most one more entry. -/
  n_le : d'.n ≤ d.n + 1
  /-- The arrays stay as long as they are, or double when they are full. -/
  length : d'.slots.length = d.slots.length ∨ (d'.slots.length : ℤ) = 2 * d.n

/-- Setting a key changes the function there, and ends. -/
theorem Stores.set (h : Stores d m) (hlimit : d.n + 1 < 2 ^ 31) (key : Text) (val : Option Text) :
    ∃ d', dictionarySet d key val = .ok d' ∧ Stores d' (Function.update m key (some val)) ∧
      Grows d d' := by
  have hfound : (if d.n > 0 then d.slots.findIdx? (·.holds key) else none) = d.slots.findIdx?
    (·.holds key) := by
    split_ifs with hpos
    · rfl
    · have hzero : (d.slots.countP fun slot => slot.key.isSome) = 0 := by
        have hcount := h.count
        omega
      refine (List.findIdx?_eq_none_iff.mpr fun slot hslot => ?_).symm
      have hnone := List.countP_eq_zero.mp hzero slot hslot
      simp only [Slot.holds]
      split
      · rfl
      · rename_i k hk
        simp [hk] at hnone
  rw [dictionarySet, hfound]
  cases hi : d.slots.findIdx? (·.holds key) with
  | some i =>
    obtain ⟨slot, hslot, hkey⟩ := h.findIdx?_eq_some hi
    refine ⟨_, rfl, ?_, Int.le_add_one le_rfl, Or.inl (List.length_modify ..)⟩
    rw [modify_slot hslot]
    have hentry := (getElem?_entry d.slots i key slot.val).mpr ⟨slot, hslot, hkey, rfl⟩
    refine h.of_set hslot (fun k hk => ?_) ?_ rfl
    · exact h.hash slot (List.mem_of_getElem? hslot) k hk
    · have hnew : Slot.entry { slot with val := val } = some (key, val) := by rw [Slot.entry, hkey]; rfl
      rw [hnew]
      refine h.represents.write ?_ (fun e he => ?_) (fun j w hw => ?_) val
      · exact (List.getElem?_eq_some_iff.mp hentry).1
      · rw [hentry] at he
        cases he
        rfl
      · exact h.represents.distinct j i key w slot.val hw hentry
  | none =>
    have hnone := h.findIdx?_eq_none_iff.mp hi
    have hnot : ¬ d.n < 0 := Int.not_lt.mpr h.n_nonneg
    have hmore : wrapInt (d.n + 1) ≤ d.n + 1 := le_of_eq (wrapInt_eq ⟨by omega, hlimit⟩)
    by_cases hfull : d.n = d.slots.length
    · have hlength : ((dictionaryGrow d).slots.length : ℤ) = 2 * d.n := by
        rw [dictionaryGrow, List.length_append, List.length_replicate]
        omega
      have hroom : (dictionaryGrow d).n ≠ (dictionaryGrow d).slots.length := by
        have hpos := h.size_pos
        rw [hlength]
        show d.n ≠ 2 * d.n
        omega
      obtain ⟨p, hp, hstores⟩ := h.grow.insert hroom hlimit hnone val
      refine ⟨_, ?_, hstores, hmore, Or.inr ?_⟩
      · simp only [if_pos hfull]
        exact (if_neg hnot).trans (Fault.bind_ok hp)
      · rwa [List.length_set]
    · obtain ⟨p, hp, hstores⟩ := h.insert hfull hlimit hnone val
      refine ⟨_, ?_, hstores, hmore, Or.inl (List.length_set)⟩
      simp only [if_neg hfull]
      rw [if_neg hnot]
      exact Fault.bind_ok hp

/-- Unsetting a key changes the function there. -/
theorem Stores.unset (h : Stores d m) (hlimit : d.n < 2 ^ 31) (key : Text) :
    Stores (dictionaryUnset d key) (Function.update m key none) ∧ Grows d (dictionaryUnset d key) := by
  unfold dictionaryUnset
  cases hi : d.slots.findIdx? (·.holds key) with
  | none =>
    have hnone := h.findIdx?_eq_none_iff.mp hi
    have hsame : Function.update m key none = m := by rw [← hnone, Function.update_eq_self]
    rw [hsame]
    exact ⟨h, Int.le_add_one le_rfl, Or.inl rfl⟩
  | some i =>
    obtain ⟨slot, hslot, hkey⟩ := h.findIdx?_eq_some hi
    have hentry := (getElem?_entry d.slots i key slot.val).mpr ⟨slot, hslot, hkey, rfl⟩
    have hpos := h.n_nonneg
    have hless : wrapInt (d.n - 1) = d.n - 1 := wrapInt_eq ⟨by omega, by omega⟩
    dsimp only
    rw [hless]
    refine ⟨h.of_set hslot (fun k hk => nomatch hk) (h.represents.clear hentry) ?_, ?_⟩
    · simp only [hkey, Slot.free, Option.isSome_some, Option.isSome_none, if_true,
        Bool.false_eq_true, if_false]
      omega
    · exact ⟨by dsimp only; omega, Or.inl List.length_set⟩

/-- What is looked up is what the function says. -/
theorem Stores.get (h : Stores d m) (key : Text) : dictionaryGet d key = m key := by
  unfold dictionaryGet
  cases hfind : d.slots.find? (·.holds key) with
  | none =>
    have hnone : d.slots.findIdx? (·.holds key) = none := by
      rw [List.findIdx?_eq_none_iff]
      intro slot hslot
      simpa using List.find?_eq_none.mp hfind slot hslot
    exact (h.findIdx?_eq_none_iff.mp hnone).symm
  | some slot =>
    have hmem := List.mem_of_find?_eq_some hfind
    have hholds : slot.holds key = true := by simpa using List.find?_some hfind
    obtain ⟨i, hi⟩ := List.mem_iff_getElem?.mp hmem
    have hentry := (getElem?_entry d.slots i key slot.val).mpr ⟨slot, hi, (h.holds_iff hmem).mp hholds, rfl⟩
    exact ((h.represents.value_iff key slot.val).mpr ⟨i, hentry⟩).symm

/-- One change of the dictionary is that change of the function. -/
theorem Stores.change (h : Stores d m) (hlimit : d.n + 1 < 2 ^ 31) (change : Change) :
    ∃ d', change.run d = .ok d' ∧ Stores d' (change.update m) ∧ Grows d d' := by
  cases change with
  | set key val => exact h.set hlimit key val
  | unset key => exact ⟨_, rfl, h.unset (by omega) key⟩

/-- So are fewer changes than an `int` can count. The arrays do not become longer than
twice what was changed, or stay as long as they are. -/
theorem Stores.changes (h : Stores d m) (changes : List Change) (hlimit : d.n + changes.length < 2 ^ 31) :
    ∃ d', changes.foldlM Change.run d = .ok d' ∧ Stores d' (changes.foldl Change.update m) ∧
      (d'.slots.length = d.slots.length ∨ (d'.slots.length : ℤ) < 2 * (d.n + changes.length)) := by
  induction changes generalizing d m with
  | nil => exact ⟨d, rfl, h, Or.inl rfl⟩
  | cons change changes ih =>
    rw [List.length_cons, Nat.cast_succ] at hlimit ⊢
    obtain ⟨d₁, hd₁, hstores₁, hgrows⟩ := h.change (by omega) change
    have hn := hgrows.n_le
    obtain ⟨d', hd', hstores', hlength'⟩ := ih hstores₁ (by omega)
    refine ⟨d', ?_, hstores', ?_⟩
    · rw [List.foldlM_cons]
      exact (Fault.bind_ok hd₁).trans hd'
    · have hlength := hgrows.length
      omega

/-- Whatever keys are set and unset, in whatever order, every change ends, and what
is looked up in the arrays afterwards is what was set last. The number of entries
is the number of keys that have a value, and there is room for them. -/
theorem dictionary_run (size : ℕ) (changes : List Change) (hlimit : changes.length < 2 ^ 31) :
    ∃ d, changes.foldlM Change.run (dictionaryNew size) = .ok d ∧
      (∀ key, dictionaryGet d key = contents changes key) ∧
      (∃ keys : List Text, keys.Nodup ∧ (∀ key, key ∈ keys ↔ contents changes key ≠ none) ∧
        d.n = keys.length) ∧
      d.n ≤ d.slots.length := by
  obtain ⟨d, hd, hstores, -⟩ := (stores_dictionaryNew size).changes changes
    (by rw [dictionaryNew, Int.zero_add]; exact_mod_cast hlimit)
  refine ⟨d, hd, hstores.get, ⟨keys (d.slots.map Slot.entry), hstores.represents.nodup_keys,
    hstores.represents.mem_keys_iff, ?_⟩, hstores.n_le⟩
  rw [length_keys, List.countP_map, hstores.count]
  refine congrArg Nat.cast (List.countP_congr fun slot _ => ?_)
  cases hkey : slot.key <;> simp [Slot.entry, hkey]

/-- A key that is set twice and unset. -/
theorem dictionary_run_twice :
    ∃ d, ([.set [97] (some [49]), .set [97] none, .unset [97]] : List Change).foldlM Change.run
        (dictionaryNew 0) = .ok d ∧ dictionaryGet d [97] = none ∧ d.n ≤ d.slots.length := by
  obtain ⟨d, hd, hget, -, hroom⟩ :=
    dictionary_run 0 [.set [97] (some [49]), .set [97] none, .unset [97]] (by decide)
  exact ⟨d, hd, hget [97], hroom⟩

end ApduPlay.IniDictionary
