import Mathlib.Data.List.Nodup
import ApduPlay.Library.OwnedMemory
import ApduPlay.ListReaders

/-!
# Memory allocated for the application

Lists of readers that are allocated for the application are noted by address until
the application frees them, and what is left is deleted with the library. Nothing is
deleted twice, under a wrong type or on behalf of somebody else, and only an array
of the narrow function is ever forgotten.
-/

namespace ApduPlay.AllocatedMemory

open ListReaders OwnedMemory

/-- Element types of the arrays. -/
inductive CharKind
  /-- `char` -/
  | char
  /-- `WCHAR` -/
  | wchar
  deriving DecidableEq, Repr

/-- What can go wrong. -/
inductive MemoryFault
  /-- Something else than memory management. -/
  | list (fault : Fault)
  /-- An array is deleted that is not live, or has another type. -/
  | notAllocated
  deriving DecidableEq, Repr

/-- The allocated memory. -/
structure Memory (π : Type) where
  /-- The live arrays. -/
  heap : Heap π CharKind
  /-- `m_charAllocatedMemoryList` -/
  charAllocatedMemoryList : List π
  /-- `m_wcharAllocatedMemoryList` -/
  wcharAllocatedMemoryList : List π

variable {π : Type}

/-- The arrays that are noted, and their types. -/
def Memory.noted (m : Memory π) : List (π × CharKind) :=
  m.charAllocatedMemoryList.map (fun p => (p, .char)) ++ m.wcharAllocatedMemoryList.map (fun p => (p, .wchar))

/-- As the library is loaded. -/
def Memory.initial : Memory π := ⟨[], [], []⟩

/-- What lies outside the library. -/
structure Surroundings (π : Type) where
  /-- `new` -/
  allocator : Allocator π
  /-- The characters of an address in memory. -/
  narrowAddress : π → List UInt8
  /-- The wide characters of an address in memory. -/
  wideAddress : π → List UInt16

/-- A call of the application. A null pointer is no address. -/
inductive Call (π : Type)
  /-- `SCardListReaders` -/
  | listReaders (cfg : ListConfig UInt8) (original : OriginalListReaders UInt8)
    (mszReaders : Option (List UInt8))
    (pcchReaders : UInt32)
  /-- `SCardListReadersW` -/
  | listReadersW (cfg : ListConfig UInt16) (original : OriginalListReaders UInt16)
    (mszReaders : Option (List UInt16)) (pcchReaders : UInt32)
  /-- `SCardFreeMemory` -/
  | freeMemory (pvMem : Option π)

/-- Whether a call allocates an array for the list. -/
def allocates {χ : Type} (cfg : ListConfig χ) (original : OriginalListReaders χ)
    (pcchReaders : UInt32) : Bool :=
  decide (pcchReaders = scardAutoallocate ∧ (suppressError cfg (original.query 0)).1 = scardSSuccess)

/-- The array of a call: noted in the list, forgotten, or never allocated. -/
def transferOf (allocated noted : Bool) (p : π) (kind : CharKind) : Transfer π CharKind :=
  if noted then .handedOut p kind else if allocated then .lost p kind else .none

/-- Calls whose array is forgotten: the original library refuses to fill it. -/
def losesArray : Call π → Bool
  | .listReaders cfg original _ pcchReaders =>
    allocates cfg original pcchReaders &&
      decide ((allocateReaders SeparatedArray.narrow cfg original
        (suppressError cfg (original.query 0)).2).1 ≠
        scardSSuccess)
  | _ => false

/-- `SCardListReaders`, with the array it allocates. -/
def Memory.listReaders (env : Surroundings π) (m : Memory π) (cfg : ListConfig UInt8)
    (original : OriginalListReaders UInt8) (mszReaders : Option (List UInt8)) (pcchReaders : UInt32) :
    Except MemoryFault (Transfer π CharKind × Memory π) :=
  let p := env.allocator.new (m.heap.map Prod.fst)
  match scardListReaders { cfg with address := env.narrowAddress p } original mszReaders pcchReaders with
  | .error fault => .error (.list fault)
  | .ok r =>
    let allocated := allocates cfg original pcchReaders
    .ok (transferOf allocated r.allocated.isSome p .char,
      { m with
        heap := if allocated then (p, .char) :: m.heap else m.heap
        charAllocatedMemoryList :=
          if r.allocated.isSome then m.charAllocatedMemoryList ++ [p] else m.charAllocatedMemoryList })

/-- `SCardListReadersW`, with the array it allocates. -/
def Memory.listReadersW (env : Surroundings π) (m : Memory π) (cfg : ListConfig UInt16)
    (original : OriginalListReaders UInt16) (mszReaders : Option (List UInt16)) (pcchReaders : UInt32) :
    Except MemoryFault (Transfer π CharKind × Memory π) :=
  let p := env.allocator.new (m.heap.map Prod.fst)
  match scardListReadersW { cfg with address := env.wideAddress p } original mszReaders pcchReaders with
  | .error fault => .error (.list fault)
  | .ok r =>
    let allocated := allocates cfg original pcchReaders
    .ok (transferOf allocated r.allocated.isSome p .wchar,
      { m with
        heap := if allocated then (p, .wchar) :: m.heap else m.heap
        wcharAllocatedMemoryList :=
          if r.allocated.isSome then m.wcharAllocatedMemoryList ++ [p] else m.wcharAllocatedMemoryList })

variable [DecidableEq π]

/-- Look for an address in a list; the first one is deleted and erased. -/
def freeLoop (kind : CharKind) (pvMem : π) (heap : Heap π CharKind) :
    List π → Except MemoryFault (Bool × Heap π CharKind × List π)
  | [] => .ok (false, heap, [])
  | ptr :: iter =>
    if ptr = pvMem then
      match deleteArray MemoryFault.notAllocated heap kind ptr with
      | .error fault => .error fault
      | .ok heap => .ok (true, heap, iter)
    else
      match freeLoop kind pvMem heap iter with
      | .error fault => .error fault
      | .ok (bFound, heap, rest) => .ok (bFound, heap, ptr :: rest)

/-- `SCardFreeMemory`: both lists are searched, and an address that is in none of
them is passed to the original library. -/
def Memory.freeMemory (m : Memory π) (pvMem : Option π) :
    Except MemoryFault (Transfer π CharKind × Memory π) :=
  match pvMem with
  | none => .ok (.foreign none, m)
  | some p =>
    match freeLoop .char p m.heap m.charAllocatedMemoryList with
    | .error fault => .error fault
    | .ok (inChars, heap, chars) =>
      match freeLoop .wchar p heap m.wcharAllocatedMemoryList with
      | .error fault => .error fault
      | .ok (inWChars, heap, wchars) =>
        .ok (if inWChars then .freed p .wchar else if inChars then .freed p .char else .foreign (some p),
          ⟨heap, chars, wchars⟩)

/-- One call. -/
def Memory.step (env : Surroundings π) (m : Memory π) :
    Call π → Except MemoryFault (Transfer π CharKind × Memory π)
  | .listReaders cfg original mszReaders pcchReaders => m.listReaders env cfg original mszReaders pcchReaders
  | .listReadersW cfg original mszReaders pcchReaders =>
    m.listReadersW env cfg original mszReaders pcchReaders
  | .freeMemory pvMem => m.freeMemory pvMem

/-- The calls of an application. -/
def Memory.run (env : Surroundings π) (m : Memory π) :
    List (Call π) → Except MemoryFault (List (Transfer π CharKind) × Memory π)
  | [] => .ok ([], m)
  | call :: calls =>
    match m.step env call with
    | .error fault => .error fault
    | .ok (t, m) =>
      match m.run env calls with
      | .error fault => .error fault
      | .ok (ts, m) => .ok (t :: ts, m)

/-- The destructor deletes what is left in the lists. -/
def Memory.unload (m : Memory π) : Except MemoryFault (Heap π CharKind) :=
  match deleteArrays MemoryFault.notAllocated .char m.heap m.charAllocatedMemoryList with
  | .error fault => .error fault
  | .ok heap => deleteArrays MemoryFault.notAllocated .wchar heap m.wcharAllocatedMemoryList

/-- Reordering allocates nothing that stays. -/
theorem allocated_reorderResult {χ : Type} {f : Flavour χ} {cfg : ListConfig χ} {r r' : ListResult χ}
    (h : reorderResult f cfg r = .ok r') : r'.allocated = r.allocated := by
  unfold reorderResult at h
  split at h
  · cases h
    rfl
  · split_ifs at h
    · obtain ⟨buf, -, h⟩ := Fault.of_bind_ok h
      cases h
      rfl
    · cases h
      rfl

theorem allocated_appendVirtual {χ : Type} [DecidableEq χ] {f : Flavour χ} {cfg : ListConfig χ}
    {realLen : UInt32}
    {buf : List χ} {r : ListResult χ} (h : appendVirtual f cfg realLen buf = .ok r) : r.allocated = none := by
  unfold appendVirtual at h
  split_ifs at h
  · obtain ⟨serialized, -, h⟩ := Fault.of_bind_ok h
    obtain ⟨written, -, h⟩ := Fault.of_bind_ok h
    obtain ⟨names, -, h⟩ := Fault.of_bind_ok h
    cases h
    rfl
  · obtain ⟨names, -, h⟩ := Fault.of_bind_ok h
    cases h
    rfl

/-- A supplied buffer is filled without an array. -/
theorem allocated_listSupplied {χ : Type} [DecidableEq χ] {f : Flavour χ} {cfg : ListConfig χ}
    {original : OriginalListReaders χ} {mszReaders : Option (List χ)} {pcchReaders : UInt32}
      {r : ListResult χ}
    (h : listSupplied f cfg original mszReaders pcchReaders = .ok r) : r.allocated = none := by
  unfold listSupplied at h
  cases mszReaders with
  | none =>
    dsimp only at h
    split_ifs at h <;> cases h <;> rfl
  | some buf =>
    dsimp only at h
    split_ifs at h with hstatus hsmall
    · cases h
      rfl
    · cases h
      rfl
    · obtain ⟨cleared, -, h⟩ := Fault.of_bind_ok h
      split_ifs at h with hfill
      · cases h
        rfl
      · exact allocated_appendVirtual h

/-- `SCardListReaders` hands its array out unless the original library refuses to fill it. -/
theorem allocated_listReaders {cfg : ListConfig UInt8} {original : OriginalListReaders UInt8}
    {mszReaders : Option (List UInt8)} {pcchReaders : UInt32} {r : ListResult UInt8}
    (h : scardListReaders cfg original mszReaders pcchReaders = .ok r) :
    r.allocated.isSome = (allocates cfg original pcchReaders &&
      decide ((allocateReaders SeparatedArray.narrow cfg original
        (suppressError cfg (original.query 0)).2).1 =
        scardSSuccess)) := by
  unfold scardListReaders at h
  unfold allocates
  split_ifs at h with hauto
  · obtain ⟨listed, hlisted, hreorder⟩ := Fault.of_bind_ok h
    rw [allocated_reorderResult hreorder]
    unfold listAllocating at hlisted
    dsimp only at hlisted
    split_ifs at hlisted with hquery hfill
    · cases hlisted
      simp [hquery]
    · cases hlisted
      simp [hfill]
    · obtain ⟨serialized, -, hlisted⟩ := Fault.of_bind_ok hlisted
      obtain ⟨readers, -, hlisted⟩ := Fault.of_bind_ok hlisted
      obtain ⟨pointer, -, hlisted⟩ := Fault.of_bind_ok hlisted
      obtain ⟨names, -, hlisted⟩ := Fault.of_bind_ok hlisted
      cases hlisted
      simp [hauto, not_not.mp hquery, not_not.mp hfill]
  · obtain ⟨listed, hlisted, hreorder⟩ := Fault.of_bind_ok h
    rw [allocated_reorderResult hreorder, allocated_listSupplied hlisted]
    simp [hauto]

/-- `SCardListReadersW` hands its array out in any case. -/
theorem allocated_listReadersW {cfg : ListConfig UInt16} {original : OriginalListReaders UInt16}
    {mszReaders : Option (List UInt16)} {pcchReaders : UInt32} {r : ListResult UInt16}
    (h : scardListReadersW cfg original mszReaders pcchReaders = .ok r) :
    r.allocated.isSome = allocates cfg original pcchReaders := by
  unfold scardListReadersW at h
  unfold allocates
  split_ifs at h with hauto
  · obtain ⟨listed, hlisted, hreorder⟩ := Fault.of_bind_ok h
    rw [allocated_reorderResult hreorder]
    unfold listAllocatingW at hlisted
    dsimp only at hlisted
    split_ifs at hlisted with hquery hfill
    · cases hlisted
      simp [hquery]
    · obtain ⟨pointer, -, hlisted⟩ := Fault.of_bind_ok hlisted
      obtain ⟨names, -, hlisted⟩ := Fault.of_bind_ok hlisted
      cases hlisted
      simp [hauto, not_not.mp hquery]
    · obtain ⟨serialized, -, hlisted⟩ := Fault.of_bind_ok hlisted
      obtain ⟨terminated, -, hlisted⟩ := Fault.of_bind_ok hlisted
      obtain ⟨pointer, -, hlisted⟩ := Fault.of_bind_ok hlisted
      obtain ⟨names, -, hlisted⟩ := Fault.of_bind_ok hlisted
      cases hlisted
      simp [hauto, not_not.mp hquery]
  · obtain ⟨listed, hlisted, hreorder⟩ := Fault.of_bind_ok h
    rw [allocated_reorderResult hreorder, allocated_listSupplied hlisted]
    simp [hauto]

section Ledgers

omit [DecidableEq π]

/-- The lists and the heap agree with a ledger. -/
structure Holds (l : Ledger π CharKind) (m : Memory π) : Prop where
  /-- What is live was handed out or lost. -/
  heap : m.heap.Perm (l.owned ++ l.lost)
  /-- No two arrays are at one address. -/
  distinct : l.addresses.Nodup
  /-- What was handed out is noted in the list of its type. -/
  noted : l.owned.Perm m.noted

variable {l : Ledger π CharKind} {m m' : Memory π} {env : Surroundings π}

/-- At first nothing is allocated. -/
theorem holds_initial : Holds ⟨[], []⟩ (Memory.initial : Memory π) := ⟨.refl _, .nil, .refl _⟩

/-- A new array is at a new address. -/
theorem new_notMem_addresses (h : Holds l m) :
    env.allocator.new (m.heap.map Prod.fst) ∉ l.addresses := fun hmem =>
  env.allocator.new_notMem _ ((h.heap.map Prod.fst).mem_iff.mpr hmem)

/-- A pointer is noted in the list of its kind. -/
theorem mem_noted {p : π} {kind : CharKind} : (p, kind) ∈ m.noted ↔
    (kind = .char ∧ p ∈ m.charAllocatedMemoryList) ∨ (kind = .wchar ∧ p ∈ m.wcharAllocatedMemoryList) := by
  simp only [Memory.noted, List.mem_append, List.mem_map, Prod.mk.injEq]
  constructor
  · rintro (⟨q, hq, rfl, rfl⟩ | ⟨q, hq, rfl, rfl⟩)
    · exact Or.inl ⟨rfl, hq⟩
    · exact Or.inr ⟨rfl, hq⟩
  · rintro (⟨rfl, hp⟩ | ⟨rfl, hp⟩)
    · exact Or.inl ⟨p, hp, rfl, rfl⟩
    · exact Or.inr ⟨p, hp, rfl, rfl⟩

/-- One address belongs to one array. -/
theorem kind_unique (h : Holds l m) {p : π} {kind kind' : CharKind} (hp : (p, kind) ∈ l.owned)
    (hp' : (p, kind') ∈ l.owned) : kind = kind' := by
  have hdistinct : ((l.owned ++ l.lost).map Prod.fst).Nodup := h.distinct
  have hinj := List.inj_on_of_nodup_map hdistinct
  exact congrArg Prod.snd (hinj (List.mem_append_left _ hp) (List.mem_append_left _ hp') rfl)

theorem noted_append_char (p : π) (heap : Heap π CharKind) :
    (Memory.noted ⟨heap, m.charAllocatedMemoryList ++ [p], m.wcharAllocatedMemoryList⟩).Perm
      ((p, .char) :: m.noted) := by
  simp only [Memory.noted, List.map_append, List.map_cons, List.map_nil, List.append_assoc]
  exact List.perm_middle

theorem noted_append_wchar (p : π) (heap : Heap π CharKind) :
    (Memory.noted ⟨heap, m.charAllocatedMemoryList, m.wcharAllocatedMemoryList ++ [p]⟩).Perm
      ((p, .wchar) :: m.noted) := by
  simp only [Memory.noted, List.map_append, List.map_cons, List.map_nil, ← List.append_assoc]
  exact List.perm_append_singleton _ _

end Ledgers

variable {l : Ledger π CharKind} {m m' : Memory π} {env : Surroundings π} {t : Transfer π CharKind}

/-- An array is handed out and noted, or lost. -/
theorem holds_transferOf (h : Holds l m) {p : π} (hp : p ∉ l.addresses) {kind : CharKind}
    {allocated noted : Bool}
    (hallocated : noted = true → allocated = true)
    (hheap : m'.heap = if allocated then (p, kind) :: m.heap else m.heap)
    (hnoted : m'.noted.Perm (if noted then (p, kind) :: m.noted else m.noted)) :
    ∃ l', l.record (transferOf allocated noted p kind) = some l' ∧ Holds l' m' ∧
      l'.lost.length = l.lost.length + (if allocated && !noted then 1 else 0) := by
  cases noted with
  | true =>
    rw [hallocated rfl, if_pos rfl] at hheap
    rw [if_pos rfl] at hnoted
    refine ⟨{ l with owned := (p, kind) :: l.owned }, if_neg hp, ⟨?_, ?_, ?_⟩, by simp⟩
    · rw [hheap]
      exact h.heap.cons _
    · exact List.nodup_cons.mpr ⟨hp, h.distinct⟩
    · exact (h.noted.cons _).trans hnoted.symm
  | false =>
    rw [if_neg Bool.false_ne_true] at hnoted
    cases allocated with
    | true =>
      rw [if_pos rfl] at hheap
      refine ⟨{ l with lost := (p, kind) :: l.lost }, if_neg hp, ⟨?_, ?_, h.noted.trans hnoted.symm⟩, by simp⟩
      · rw [hheap]
        exact (h.heap.cons _).trans List.perm_middle.symm
      · have hperm : (Ledger.addresses { l with lost := (p, kind) :: l.lost }).Perm (p :: l.addresses) :=
          List.perm_middle.map Prod.fst
        exact hperm.nodup_iff.mpr (List.nodup_cons.mpr ⟨hp, h.distinct⟩)
    | false =>
      rw [if_neg Bool.false_ne_true] at hheap
      exact ⟨l, rfl, ⟨by rw [hheap]; exact h.heap, h.distinct, h.noted.trans hnoted.symm⟩, by simp⟩

/-- The first array at the address is deleted and erased. -/
theorem freeLoop_eq {kind : CharKind} {p : π} {heap : Heap π CharKind} {ptrs : List π}
    (h : p ∈ ptrs → (p, kind) ∈ heap) : freeLoop kind p heap ptrs =
      .ok (decide (p ∈ ptrs), if p ∈ ptrs then heap.erase (p, kind) else heap, ptrs.erase p) := by
  induction ptrs with
  | nil => rfl
  | cons ptr ptrs ih =>
    rw [freeLoop]
    split_ifs with hfirst hmem hmem
    · obtain rfl := hfirst
      rw [deleteArray, if_pos (h List.mem_cons_self)]
      simp
    · exact absurd (hfirst ▸ List.mem_cons_self) hmem
    · have hrest : p ∈ ptrs := (List.mem_cons.mp hmem).resolve_left fun heq => hfirst heq.symm
      rw [ih fun _ => h hmem]
      simp [hrest, List.erase_cons_tail, hfirst]
    · have hrest : p ∉ ptrs := fun hmem' => hmem (List.mem_cons_of_mem _ hmem')
      rw [ih fun hmem' => absurd hmem' hrest]
      simp [hrest, List.erase_cons_tail, hfirst, hmem]

theorem noted_erase_char (p : π) (heap : Heap π CharKind) :
    Memory.noted ⟨heap, m.charAllocatedMemoryList.erase p, m.wcharAllocatedMemoryList⟩ =
      m.noted.erase (p, .char) := by
  have hinj : Function.Injective fun p : π => (p, CharKind.char) := fun _ _ h => congrArg Prod.fst h
  by_cases hp : p ∈ m.charAllocatedMemoryList
  · rw [Memory.noted, Memory.noted, List.erase_append_left _ (List.mem_map_of_mem hp)]
    rw [List.map_erase hinj]
  · have hnone : (p, CharKind.char) ∉ m.noted := fun hmem => by simp [mem_noted, hp] at hmem
    rw [List.erase_of_not_mem hnone, Memory.noted, List.erase_of_not_mem hp]
    rfl

theorem noted_erase_wchar (p : π) (heap : Heap π CharKind) :
    Memory.noted ⟨heap, m.charAllocatedMemoryList, m.wcharAllocatedMemoryList.erase p⟩ =
      m.noted.erase (p, .wchar) := by
  have hinj : Function.Injective fun p : π => (p, CharKind.wchar) := fun _ _ h => congrArg Prod.fst h
  have hchars : (p, CharKind.wchar) ∉ m.charAllocatedMemoryList.map fun p => (p, CharKind.char) := by simp
  rw [Memory.noted, Memory.noted, List.erase_append_right _ hchars]
  rw [List.map_erase hinj]

/-- An array is taken back. -/
theorem holds_erase (h : Holds l m) {p : π} {kind : CharKind} (hp : (p, kind) ∈ l.owned)
    (hheap : m'.heap = m.heap.erase (p, kind)) (hnoted : m'.noted = m.noted.erase (p, kind)) :
    Holds { l with owned := l.owned.erase (p, kind) } m' := by
  refine ⟨?_, ?_, ?_⟩
  · rw [hheap]
    refine (h.heap.erase (p, kind)).trans ?_
    rw [List.erase_append_left _ hp]
  · refine h.distinct.sublist (List.Sublist.map Prod.fst ?_)
    exact List.erase_sublist.append_right _
  · rw [hnoted]
    exact h.noted.erase _

/-- `SCardFreeMemory` deletes what was handed out, and passes on any other address. -/
theorem freeMemory_holds (h : Holds l m) (pvMem : Option π) :
    ∃ t m', m.freeMemory pvMem = .ok (t, m') ∧
      ∃ l', l.record t = some l' ∧ Holds l' m' ∧ l'.lost.length = l.lost.length := by
  cases pvMem with
  | none => exact ⟨_, _, rfl, l, rfl, h, rfl⟩
  | some p =>
    have howned (kind : CharKind) : (p, kind) ∈ l.owned ↔ (p, kind) ∈ m.noted := h.noted.mem_iff
    have hlive {kind : CharKind} (hp : (p, kind) ∈ l.owned) : (p, kind) ∈ m.heap :=
      h.heap.mem_iff.mpr (List.mem_append_left _ hp)
    have hchar : p ∈ m.charAllocatedMemoryList ↔ (p, CharKind.char) ∈ l.owned := by
      simp [howned, mem_noted]
    have hwchar : p ∈ m.wcharAllocatedMemoryList ↔ (p, CharKind.wchar) ∈ l.owned := by
      simp [howned, mem_noted]
    unfold Memory.freeMemory
    dsimp only
    rw [freeLoop_eq fun hp => hlive (hchar.mp hp)]
    dsimp only
    by_cases hc : p ∈ m.charAllocatedMemoryList
    · have hw : p ∉ m.wcharAllocatedMemoryList := fun hw =>
        absurd (kind_unique h (hchar.mp hc) (hwchar.mp hw)) (by decide)
      rw [freeLoop_eq fun hp => absurd hp hw]
      refine ⟨_, _, rfl, { l with owned := l.owned.erase (p, .char) }, ?_, ?_, rfl⟩
      · simp [hc, hw, Ledger.record, hchar.mp hc]
      · refine holds_erase h (hchar.mp hc) (by simp [hc, hw]) ?_
        rw [List.erase_of_not_mem hw]
        exact noted_erase_char _ _
    · rw [List.erase_of_not_mem hc, if_neg hc]
      rw [freeLoop_eq fun hp => hlive (hwchar.mp hp)]
      by_cases hw : p ∈ m.wcharAllocatedMemoryList
      · refine ⟨_, _, rfl, { l with owned := l.owned.erase (p, .wchar) }, ?_, ?_, rfl⟩
        · simp [hw, Ledger.record, hwchar.mp hw]
        · exact holds_erase h (hwchar.mp hw) (by simp [hw]) (noted_erase_wchar _ _)
      · refine ⟨_, _, rfl, l, ?_, ?_, rfl⟩
        · have hforeign : p ∉ l.owned.map Prod.fst := by
            intro hmem
            obtain ⟨⟨q, kind⟩, hq, rfl⟩ := List.mem_map.mp hmem
            cases kind with
            | char => exact hc (hchar.mpr hq)
            | wchar => exact hw (hwchar.mpr hq)
          simp only [hw, hc, decide_false, Bool.false_eq_true, if_false]
          exact if_neg hforeign
        · rw [List.erase_of_not_mem hw, if_neg hw]
          exact h

/-- One call keeps the lists and the ledger together. -/
theorem step_holds (env : Surroundings π) (h : Holds l m) (call : Call π) :
    (∃ fault, m.step env call = .error (.list fault)) ∨
      ∃ t m', m.step env call = .ok (t, m') ∧ ∃ l', l.record t = some l' ∧ Holds l' m' ∧
        l'.lost.length = l.lost.length + (if losesArray call then 1 else 0) := by
  cases call with
  | freeMemory pvMem =>
    obtain ⟨t, m', hstep, l', hrecord, hholds, hlost⟩ := freeMemory_holds h pvMem
    exact Or.inr ⟨t, m', hstep, l', hrecord, hholds, by simp [losesArray, hlost]⟩
  | listReaders cfg original mszReaders pcchReaders =>
    rw [Memory.step, Memory.listReaders]
    dsimp only
    cases hlist : scardListReaders { cfg with
        address := env.narrowAddress (env.allocator.new (m.heap.map Prod.fst)) } original mszReaders
          pcchReaders with
    | error fault => exact Or.inl ⟨fault, rfl⟩
    | ok r =>
      have hnoted : r.allocated.isSome = (allocates cfg original pcchReaders && decide ((allocateReaders
          SeparatedArray.narrow cfg original (suppressError cfg (original.query 0)).2).1 =
            scardSSuccess)) := by
        have hlisted := allocated_listReaders hlist
        exact hlisted
      have hloses : losesArray (.listReaders cfg original mszReaders pcchReaders : Call π) =
          (allocates cfg original pcchReaders && !r.allocated.isSome) := by
        rw [hnoted, losesArray]
        cases allocates cfg original pcchReaders <;> simp
      refine Or.inr ⟨_, _, rfl, ?_⟩
      rw [hloses]
      refine holds_transferOf h (new_notMem_addresses h) (fun hsome => ?_) rfl ?_
      · rw [hnoted, Bool.and_eq_true] at hsome
        exact hsome.1
      · cases r.allocated.isSome with
        | true => exact noted_append_char _ _
        | false => exact .refl _
  | listReadersW cfg original mszReaders pcchReaders =>
    rw [Memory.step, Memory.listReadersW]
    dsimp only
    cases hlist : scardListReadersW { cfg with
        address := env.wideAddress (env.allocator.new (m.heap.map Prod.fst)) } original mszReaders
          pcchReaders with
    | error fault => exact Or.inl ⟨fault, rfl⟩
    | ok r =>
      have hnoted : r.allocated.isSome = allocates cfg original pcchReaders := by
        have hlisted := allocated_listReadersW hlist
        exact hlisted
      have hloses : losesArray (.listReadersW cfg original mszReaders pcchReaders : Call π) =
          (allocates cfg original pcchReaders && !r.allocated.isSome) := by
        rw [hnoted, Bool.and_not_self]
        rfl
      refine Or.inr ⟨_, _, rfl, ?_⟩
      rw [hloses]
      refine holds_transferOf h (new_notMem_addresses h) (fun hsome => hnoted ▸ hsome) rfl ?_
      cases r.allocated.isSome with
      | true => exact noted_append_wchar _ _
      | false => exact .refl _

/-- Every run is sound. -/
theorem run_holds (h : Holds l m) (calls : List (Call π)) :
    (∃ fault, m.run env calls = .error (.list fault)) ∨
      ∃ ts m', m.run env calls = .ok (ts, m') ∧ ∃ l', l.recordAll ts = some l' ∧ Holds l' m' ∧
        l'.lost.length = l.lost.length + calls.countP losesArray := by
  induction calls generalizing l m with
  | nil => exact Or.inr ⟨[], m, rfl, l, rfl, h, rfl⟩
  | cons call calls ih =>
    rw [Memory.run]
    obtain ⟨fault, hstep⟩ | ⟨t, m₁, hstep, l₁, hrecord, hm₁, hlost₁⟩ := step_holds env h call
    · exact Or.inl ⟨fault, by rw [hstep]⟩
    · rw [hstep]
      dsimp only
      obtain ⟨fault, hrest⟩ | ⟨ts, m', hrest, l', hrecords, hm', hlost'⟩ := ih hm₁
      · exact Or.inl ⟨fault, by rw [hrest]⟩
      · refine Or.inr ⟨t :: ts, m', by rw [hrest], l', ?_, hm', ?_⟩
        · rw [Ledger.recordAll, hrecord]
          exact hrecords
        · rw [hlost', hlost₁, List.countP_cons]
          omega

/-- The destructor leaves what was lost. -/
theorem unload_holds (h : Holds l m) : ∃ heap, m.unload = .ok heap ∧ heap.Perm l.lost := by
  have hheap : m.heap.Perm (m.charAllocatedMemoryList.map (fun p => (p, CharKind.char)) ++
      (m.wcharAllocatedMemoryList.map (fun p => (p, CharKind.wchar)) ++ l.lost)) := by
    rw [← List.append_assoc]
    exact h.heap.trans (h.noted.append_right _)
  obtain ⟨heap₁, hchars, hheap₁⟩ := deleteArrays_ok (e := MemoryFault.notAllocated) hheap
  obtain ⟨heap₂, hwchars, hheap₂⟩ := deleteArrays_ok (e := MemoryFault.notAllocated) hheap₁
  refine ⟨heap₂, ?_, hheap₂⟩
  rw [Memory.unload, hchars]
  exact hwchars

/-- Whatever the application calls, only listing readers can go wrong. What is handed
out, taken back and passed on is sound, the destructor can delete all that is left, and
then an array stays behind for every call of `SCardListReaders` that was refused. -/
theorem memory_run (env : Surroundings π) (calls : List (Call π)) :
    (∃ fault, Memory.initial.run env calls = .error (.list fault)) ∨
      ∃ ts m, Memory.initial.run env calls = .ok (ts, m) ∧
        ∃ l heap, Ledger.recordAll ⟨[], []⟩ ts = some l ∧ m.heap.Perm (l.owned ++ l.lost) ∧
          m.unload = .ok heap ∧ heap.Perm l.lost ∧ l.lost.length = calls.countP losesArray := by
  obtain herror | ⟨ts, m, hrun, l, hrecord, hholds, hlost⟩ := run_holds holds_initial calls
  · exact Or.inl herror
  · obtain ⟨heap, hunload, hheap⟩ := unload_holds hholds
    exact Or.inr ⟨ts, m, hrun, l, heap, hrecord, hholds.heap, hunload, hheap, by simpa using hlost⟩

end ApduPlay.AllocatedMemory
