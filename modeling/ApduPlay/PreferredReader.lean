import Mathlib.Algebra.Order.BigOperators.Group.List
import Mathlib.Algebra.Order.Ring.Nat
import Mathlib.Data.Nat.Find
import ApduPlay.ReaderListCharacters

/-!
# Moving the preferred reader to the front

The reordering after both functions works on the caller's memory. That is the
list only in a supplied buffer; in the other mode it is the cell that received
the pointer. The wide function compares the bytes of the narrow name with wide
characters and terminates the list in the caller's cell.
-/

namespace ApduPlay.PreferredReader

open SeparatedArray ListReaders ReaderListSizes ReaderListCharacters

variable {χ : Type}

/-- The name is found at this place of the memory, byte by byte as `memcmp`
compares it. -/
def FoundAt (f : Flavour χ) (cfg : ListConfig χ) (mem : List χ) (i : ℕ) : Prop :=
  let bytes := ((mem.drop i).take cfg.readerOrderedFirst.length).flatMap f.width.bytes
  bytes = (List.range bytes.length).map (nameMemory cfg)

/-- The name is found nowhere before the end of the memory, or right at its
start with a zero behind. -/
def StandsFirst (f : Flavour χ) (cfg : ListConfig χ) (mem : List χ) : Prop :=
  (∀ i, i + cfg.readerOrderedFirst.length < mem.length → ¬ FoundAt f cfg mem i) ∨
    FoundAt f cfg mem 0 ∧ mem[cfg.readerOrderedFirst.length]? = some f.width.nul

variable {f : Flavour χ} {cfg : ListConfig χ} {buf : List χ} {n : UInt32}

/-- Inside its first part the memory is compared as that part alone. -/
theorem foundAt_take {m i : ℕ} (hi : i + cfg.readerOrderedFirst.length ≤ m) :
    FoundAt f cfg (buf.take m) i ↔ FoundAt f cfg buf i := by
  have hwindow : ((buf.take m).drop i).take cfg.readerOrderedFirst.length =
      (buf.drop i).take cfg.readerOrderedFirst.length := by
    rw [List.drop_take, List.take_take, Nat.min_eq_left (by omega)]
  rw [FoundAt, FoundAt, hwindow]

/-- The loop that never finds the name leaves the memory alone. -/
theorem reorderLoop_unfound {pcchReaders : ℕ} (hlen : pcchReaders ≤ buf.length) (rounds i : ℕ)
    (hi : i + rounds + cfg.readerOrderedFirst.length = pcchReaders)
    (hnone : ∀ j, i ≤ j → j < i + rounds → ¬ FoundAt f cfg buf j) :
    reorderLoop f cfg buf pcchReaders rounds i = .ok buf := by
  induction rounds generalizing i with
  | zero => rfl
  | succ rounds ih =>
    have hhere := hnone i (Nat.le_refl i) (by omega)
    rw [reorderLoop, Fault.bind_ok (Buffer.read_ok (by omega))]
    refine (if_neg hhere).trans ?_
    exact ih (i + 1) (by omega) fun j hij hj => hnone j (by omega) (by omega)

/-- The loop moves the first place where the name is found. -/
theorem reorderLoop_found {pcchReaders : ℕ} (hlen : pcchReaders ≤ buf.length) (rounds i : ℕ) {j : ℕ}
    (hi : i + rounds + cfg.readerOrderedFirst.length = pcchReaders) (hij : i ≤ j) (hj : j < i + rounds)
    (hfound : FoundAt f cfg buf j) (hmin : ∀ k, k < j → ¬ FoundAt f cfg buf k) :
    reorderLoop f cfg buf pcchReaders rounds i = moveToFront f cfg buf pcchReaders j := by
  induction rounds generalizing i with
  | zero => omega
  | succ rounds ih =>
    rw [reorderLoop, Fault.bind_ok (Buffer.read_ok (by omega))]
    rcases Nat.eq_or_lt_of_le hij with rfl | hlt
    · exact if_pos hfound
    · refine (if_neg (hmin i hlt)).trans ?_
      exact ih (i + 1) (by omega) (by omega) (by omega)

/-- What is moved leaves the memory as it is only where the name stands at the
start with a zero behind. -/
theorem moveToFront_self_iff {pcchReaders i : ℕ} (hi : i + cfg.readerOrderedFirst.length < pcchReaders)
    (hlen : pcchReaders ≤ buf.length) (hfound : FoundAt f cfg buf i)
    (hmin : ∀ k, k < i → ¬ FoundAt f cfg buf k) :
    moveToFront f cfg buf pcchReaders i = .ok buf ↔
      FoundAt f cfg buf 0 ∧ buf[cfg.readerOrderedFirst.length]? = some f.width.nul := by
  let first := (buf.drop i).take cfg.readerOrderedFirst.length
  have hfirst : first.length = cfg.readerOrderedFirst.length := by
    rw [List.length_take, List.length_drop]
    omega
  rw [moveToFront_eq hi hlen, Except.ok.injEq]
  constructor
  · intro hsame
    have hstart : buf.take cfg.readerOrderedFirst.length = first := by
      rw [← hsame, List.take_left' hfirst]
    have hzero : buf[cfg.readerOrderedFirst.length]? = some f.width.nul := by
      rw [← hsame, List.getElem?_append_right (Nat.le_of_eq hfirst)]
      exact (congrArg _ (Nat.sub_eq_zero_of_le (Nat.le_of_eq hfirst.symm))).trans rfl
    refine ⟨?_, hzero⟩
    have hwindow : (buf.drop 0).take cfg.readerOrderedFirst.length = first := by
      rw [List.drop_zero, hstart]
    rw [FoundAt, hwindow]
    exact hfound
  · rintro ⟨hstart, hzero⟩
    have hizero : i = 0 := by
      by_contra hne
      exact hmin 0 (Nat.pos_of_ne_zero hne) hstart
    subst hizero
    have hcons : f.width.nul :: buf.drop (cfg.readerOrderedFirst.length + 1) =
        buf.drop cfg.readerOrderedFirst.length := by
      have hdrop : buf.drop cfg.readerOrderedFirst.length = buf[cfg.readerOrderedFirst.length]?.toList ++
          buf.drop (cfg.readerOrderedFirst.length + 1) := List.drop_eq_getElem?_toList_append
      rw [hdrop, hzero]
      rfl
    rw [List.drop_zero, List.take_zero, List.nil_append, Nat.zero_add, hcons, List.take_append_drop]

/-- Reordering leaves the memory alone or moves the first place where the name
is found. -/
theorem reorder_cases (buf : List χ) (hfirst : cfg.readerOrderedFirst ≠ [])
    (hle : cfg.readerOrderedFirst.length ≤ n.toNat) (hlen : n.toNat ≤ buf.length) :
    (∀ i, i + cfg.readerOrderedFirst.length < n.toNat → ¬ FoundAt f cfg buf i) ∧
      reorder f cfg buf n = .ok buf ∨
    ∃ i, i + cfg.readerOrderedFirst.length < n.toNat ∧ FoundAt f cfg buf i ∧
      (∀ k, k < i → ¬ FoundAt f cfg buf k) ∧ reorder f cfg buf n = moveToFront f cfg buf n.toNat i := by
  rw [reorder, if_neg hfirst, rounds_of_le hle]
  by_cases hnone : ∀ i, i + cfg.readerOrderedFirst.length < n.toNat → ¬ FoundAt f cfg buf i
  · exact Or.inl ⟨hnone, reorderLoop_unfound hlen _ 0 (by omega) fun j _ hj => hnone j (by omega)⟩
  · have hex : ∃ i, i + cfg.readerOrderedFirst.length < n.toNat ∧ FoundAt f cfg buf i := by
      simpa using hnone
    classical
    obtain ⟨hi, hfound⟩ := Nat.find_spec hex
    have hmin : ∀ k, k < Nat.find hex → ¬ FoundAt f cfg buf k := fun k hk hk' =>
      Nat.find_min hex hk ⟨by omega, hk'⟩
    exact Or.inr ⟨Nat.find hex, hi, hfound, hmin,
      reorderLoop_found hlen _ 0 (by omega) (Nat.zero_le _) (by omega) hfound hmin⟩

/-- Reordering keeps the memory exactly if the name stands first in it or is not
found. -/
theorem reorder_self_iff (hfirst : cfg.readerOrderedFirst ≠ [])
    (hle : cfg.readerOrderedFirst.length ≤ n.toNat)
    (hlen : n.toNat ≤ buf.length) :
    reorder f cfg buf n = .ok buf ↔ StandsFirst f cfg (buf.take n.toNat) := by
  have htake : (buf.take n.toNat).length = n.toNat := List.length_take_of_le hlen
  unfold StandsFirst
  rw [htake]
  rcases reorder_cases buf (f := f) hfirst hle hlen with ⟨hnone, hsame⟩ | ⟨i, hi, hfound, hmin, hmoved⟩
  · refine iff_of_true hsame (Or.inl fun i hi => ?_)
    rw [foundAt_take (by omega)]
    exact hnone i hi
  · rw [hmoved, moveToFront_self_iff hi hlen hfound hmin, foundAt_take (by omega),
      List.getElem?_take_of_lt (by omega), or_iff_right]
    intro hall
    exact hall i hi ((foundAt_take (by omega)).mpr hfound)

/-- Reordering does not touch what stands behind the list. -/
theorem reorder_drop {moved : List χ} (hfirst : cfg.readerOrderedFirst ≠ [])
    (hle : cfg.readerOrderedFirst.length ≤ n.toNat) (hlen : n.toNat ≤ buf.length)
    (h : reorder f cfg buf n = .ok moved) : moved.drop n.toNat = buf.drop n.toNat := by
  rcases reorder_cases buf (f := f) hfirst hle hlen with ⟨hnone, hsame⟩ | ⟨i, hi, hfound, hmin, hmoved⟩
  · cases hsame.symm.trans h
    rfl
  · rw [hmoved, moveToFront_eq hi hlen] at h
    cases h
    let front := (buf.drop i).take cfg.readerOrderedFirst.length ++ f.width.nul :: buf.take i
    have hfront : front.length = i + cfg.readerOrderedFirst.length + 1 := by
      simp only [front, List.length_append, List.length_take, List.length_drop, List.length_cons]
      omega
    have hsplit : (buf.drop i).take cfg.readerOrderedFirst.length ++
        f.width.nul :: (buf.take i ++ buf.drop (i + cfg.readerOrderedFirst.length + 1)) =
          front ++ buf.drop (i + cfg.readerOrderedFirst.length + 1) := by
      simp [front]
    rw [hsplit, List.drop_append, List.drop_eq_nil_of_le (by omega), List.nil_append, List.drop_drop, hfront]
    congr 1
    omega

/-- A result whose caller's memory is this one is kept exactly if the preferred
reader stands first in it. -/
theorem reorderResult_self_iff (hfirst : cfg.readerOrderedFirst ≠ [])
    (hle : cfg.readerOrderedFirst.length ≤ n.toNat) (hlen : n.toNat ≤ buf.length)
    (allocated : Option (List χ)) (readersList : List (List χ)) :
    (∃ r, reorderResult f cfg ⟨scardSSuccess, n, some buf, allocated, readersList⟩ = .ok r ∧
      r.mszReaders = some buf) ↔ StandsFirst f cfg (buf.take n.toNat) := by
  rw [← reorder_self_iff hfirst hle hlen, reorderResult_some]
  constructor
  · rintro ⟨r, hr, hmem⟩
    obtain ⟨moved, hmoved, hreturn⟩ := Fault.of_bind_ok hr
    cases hreturn
    cases hmem
    exact hmoved
  · intro hself
    exact ⟨_, Fault.bind_ok hself, rfl⟩

/-- What a result lists is determined by it. -/
theorem lists_unique {chars chars' : List χ} {r : ListResult χ} {result : Option (List χ)}
    (h : Lists chars r result) (h' : Lists chars' r result) : chars = chars' := by
  have hlen : chars.length = chars'.length := h.length.symm.trans h'.length
  have hsame := h.characters
  rw [hlen, h'.characters] at hsame
  exact (Option.some.inj hsame).symm

variable {original : OriginalListReaders χ} {names : List (List χ)}
  {call : Option (List χ) → UInt32 → Except Fault (ListResult χ)}

/-- The length that is returned in either mode. -/
theorem toNat_finalLength (w : CharWidth χ) (hsome : ¬ (names = [] ∧ cfg.listVirtualReaders = []))
    (hlt : realLength w names + requiredLength cfg.listVirtualReaders + 2 < 2 ^ 32) :
    (UInt32.ofNat (finalLength w names cfg)).toNat = finalLength w names cfg := by
  have hreal := length_terminatedNames_le w names
  have hfinal := length_wholeList w hsome
  exact UInt32.toNat_ofNat_of_lt' (show _ < 2 ^ 32 by omega)

/-- In an allocated buffer the names keep their order. The call gives them
exactly if the reordering leaves the pointer alone. -/
theorem listsAllocated_iff (hsome : ¬ (names = [] ∧ cfg.listVirtualReaders = []))
    (hlt : realLength f.width names + requiredLength cfg.listVirtualReaders + 2 < 2 ^ 32)
    (hfirst : cfg.readerOrderedFirst ≠ [])
    (hle : cfg.readerOrderedFirst.length ≤ finalLength f.width names cfg)
    (hcell : finalLength f.width names cfg ≤ cfg.address.length)
    (hcall : ∀ cell : List χ, cell.length = cfg.address.length → ∃ readersList,
      call (some cell) scardAutoallocate = reorderResult f cfg ⟨scardSSuccess,
        UInt32.ofNat (finalLength f.width names cfg), some cfg.address, some (listedBuffer f.width names cfg
          (realLength f.width names + requiredLength cfg.listVirtualReaders + 2)), readersList⟩)
    (chars : List χ) :
    ListsAllocated cfg call chars ↔ chars = multiString f.width (allReaders f.width names cfg) ∧
      StandsFirst f cfg (cfg.address.take (finalLength f.width names cfg)) := by
  have hn := toNat_finalLength f.width hsome hlt
  rw [← hn] at hle hcell
  have hstays := reorderResult_self_iff (f := f) hfirst hle hcell
  rw [hn] at hstays
  have hlists := lists_listedBuffer f.width hsome (Nat.le_refl _) hlt
  constructor
  · intro hall
    obtain ⟨r, hr, hmem, hchars⟩ := hall cfg.address rfl
    obtain ⟨readersList, hres⟩ := hcall cfg.address rfl
    rw [hres] at hr
    refine ⟨?_, (hstays _ _).mp ⟨r, hr, hmem⟩⟩
    rw [reorderResult_some] at hr
    obtain ⟨moved, -, hreturn⟩ := Fault.of_bind_ok hr
    cases hreturn
    exact lists_unique hchars (hlists _ _ _ _ rfl)
  · rintro ⟨rfl, hstands⟩ cell hcell'
    obtain ⟨readersList, hres⟩ := hcall cell hcell'
    obtain ⟨r, hr, hmem⟩ := (hstays (some (listedBuffer f.width names cfg _)) readersList).mpr hstands
    refine ⟨r, hres.trans hr, hmem, ?_⟩
    rw [reorderResult_some] at hr
    obtain ⟨moved, -, hreturn⟩ := Fault.of_bind_ok hr
    cases hreturn
    exact hlists _ _ _ _ rfl

variable [DecidableEq χ]

/-- In a supplied buffer the names keep their order exactly if the preferred
reader stands first in it. -/
theorem listsSupplied_iff (hcall : Supplies f cfg original call) (h : Reports f.width original names)
    (hsome : ¬ (names = [] ∧ cfg.listVirtualReaders = []))
    (hlt : realLength f.width names + requiredLength cfg.listVirtualReaders + 2 < 2 ^ 32 - 1)
    (hreserved : f.reserved.toNat ≤ 1) (hfirst : cfg.readerOrderedFirst ≠ [])
    (hle : cfg.readerOrderedFirst.length ≤ finalLength f.width names cfg) :
    ListsSupplied f.width names cfg call (multiString f.width (allReaders f.width names cfg)) ↔
      StandsFirst f cfg (multiString f.width (allReaders f.width names cfg)) := by
  have hn := toNat_finalLength f.width hsome (by omega)
  have hfinal := length_multiString_allReaders f.width hsome
  rw [← hn] at hle
  have hbuffer {n : UInt32} (hlarge : LargeEnough f.width names cfg n) :
      (listedBuffer f.width names cfg n.toNat).take (finalLength f.width names cfg) =
        multiString f.width (allReaders f.width names cfg) ∧
      (UInt32.ofNat (finalLength f.width names cfg)).toNat ≤
        (listedBuffer f.width names cfg n.toNat).length := by
    obtain ⟨j, hj⟩ := listedBuffer_eq f.width hlarge
    rw [hn, hj, ← hfinal]
    exact ⟨List.take_left' rfl, by rw [List.length_append]; omega⟩
  constructor
  · intro hall
    let n := UInt32.ofNat (realLength f.width names + requiredLength cfg.listVirtualReaders + 2)
    have hsize : n.toNat = realLength f.width names + requiredLength cfg.listVirtualReaders + 2 :=
      UInt32.toNat_ofNat_of_lt' (show _ < 2 ^ 32 by omega)
    have hlarge : LargeEnough f.width names cfg n := Nat.le_of_eq hsize.symm
    have hauto : n ≠ scardAutoallocate := by
      intro he
      rw [he, show scardAutoallocate.toNat = 2 ^ 32 - 1 from rfl] at hsize
      omega
    obtain ⟨r, hr, hlists⟩ := hall n (List.replicate n.toNat f.width.nul) hauto hlarge List.length_replicate
    obtain ⟨readersList, hlist⟩ := listSupplied_ok (f := f) h hsome hlarge List.length_replicate hreserved
    rw [hcall _ n hauto, Fault.bind_ok hlist, reorderResult_some] at hr
    obtain ⟨moved, hmoved, hreturn⟩ := Fault.of_bind_ok hr
    cases hreturn
    obtain ⟨htake, hlen⟩ := hbuffer hlarge
    have hdrop := reorder_drop hfirst hle hlen hmoved
    have hchars := hlists.characters
    rw [Option.map_some, hfinal] at hchars
    have hsame : moved = listedBuffer f.width names cfg n.toNat := by
      rw [← List.take_append_drop (finalLength f.width names cfg) moved, Option.some.inj hchars,
        ← htake, ← hn,
        hdrop, List.take_append_drop]
    rw [hsame, reorder_self_iff hfirst hle hlen, hn, htake] at hmoved
    exact hmoved
  · intro hstands n buf hauto hlarge hbuf
    obtain ⟨readersList, hlist⟩ := listSupplied_ok (f := f) h hsome hlarge hbuf hreserved
    obtain ⟨htake, hlen⟩ := hbuffer hlarge
    rw [← htake, ← hn] at hstands
    have hself := (reorder_self_iff (f := f) hfirst hle hlen).mpr hstands
    have hres := (hcall (some buf) n hauto).trans ((Fault.bind_ok hlist).trans
      ((reorderResult_some _ _ _ _ _ _).trans (Fault.bind_ok hself)))
    exact ⟨_, hres, lists_listedBuffer f.width hsome hlarge n.toNat_lt _ _ _ _ rfl⟩

/-- The names of the readers as wide characters. -/
def widened (names : List Text) : List (List UInt16) := names.map fun name => name.map wide.widen

/-- The same readers seen by both functions, one of them preferred. Pointers
have eight bytes. -/
structure Readers where
  /-- Names of the real readers. -/
  names : List Text
  /-- Surroundings of the narrow call. -/
  cfg : ListConfig UInt8
  /-- Surroundings of the wide call. -/
  cfgW : ListConfig UInt16
  /-- The original narrow function. -/
  original : OriginalListReaders UInt8
  /-- The original wide function. -/
  originalW : OriginalListReaders UInt16
  names_ne : ∀ name ∈ names, name ≠ []
  reports : Reports narrow original names
  reportsW : Reports wide originalW (widened names)
  sameVirtual : cfgW.listVirtualReaders = cfg.listVirtualReaders
  sameFirst : cfgW.readerOrderedFirst = cfg.readerOrderedFirst
  /-- The preferred reader is one that is listed. -/
  listed : cfg.readerOrderedFirst ∈ allReaders narrow names cfg
  pointer : cfg.address.length = 8
  pointerW : cfgW.address.length = 4

/-- All four ways of asking give the same names in the same order, and stay
inside the buffer and the pointer cell that they were given. -/
def Readers.Agree (q : Readers) : Prop :=
  ∃ readers : List Text,
    ListsAllocated q.cfg (scardListReaders q.cfg q.original) (multiString narrow readers) ∧
    ListsSupplied narrow q.names q.cfg (scardListReaders q.cfg q.original) (multiString narrow readers) ∧
    ListsAllocated q.cfgW (scardListReadersW q.cfgW q.originalW) (multiString wide (widened readers)) ∧
    ListsSupplied wide (widened q.names) q.cfgW (scardListReadersW q.cfgW q.originalW)
      (multiString wide (widened readers))

/-- The preferred reader is the only one, its name has at most two characters,
and in the pointers and the wide list its bytes are not found except at the
start with a zero behind. -/
def Readers.Undisturbed (q : Readers) : Prop :=
  allReaders narrow q.names q.cfg = [q.cfg.readerOrderedFirst] ∧ q.cfg.readerOrderedFirst.length ≤ 2 ∧
    StandsFirst narrowFlavour q.cfg (q.cfg.address.take (q.cfg.readerOrderedFirst.length + 2)) ∧
    StandsFirst wideFlavour q.cfgW (q.cfgW.address.take (q.cfg.readerOrderedFirst.length + 2)) ∧
    StandsFirst wideFlavour q.cfgW (multiString wide (widened [q.cfg.readerOrderedFirst]))

omit [DecidableEq χ] in
/-- The length of a list of names. -/
theorem length_multiString (w : CharWidth χ) (names : List (List χ)) :
    (multiString w names).length = (names.map fun name => name.length + 1).sum + 1 := by
  simp [multiString, List.length_flatMap]

omit [DecidableEq χ] in
/-- A list of four characters has one short name. -/
theorem eq_singleton_of_length {w : CharWidth χ} {names : List (List χ)} {name : List χ}
    (hne : ∀ name ∈ names, name ≠ []) (hmem : name ∈ names) (hlen : (multiString w names).length ≤ 4) :
    names = [name] ∧ name.length ≤ 2 := by
  rw [length_multiString] at hlen
  match names, hmem with
  | [one], hmem =>
    rw [List.mem_singleton] at hmem
    subst hmem
    simp only [List.map_cons, List.map_nil, List.sum_cons, List.sum_nil] at hlen
    exact ⟨rfl, by omega⟩
  | one :: two :: rest, _ =>
    have hone := List.length_pos_of_ne_nil (hne one (by simp))
    have htwo := List.length_pos_of_ne_nil (hne two (by simp))
    simp only [List.map_cons, List.sum_cons] at hlen
    omega

/-- Wide lists have as many characters. -/
theorem length_multiString_widened (names : List Text) :
    (multiString wide (widened names)).length = (multiString narrow names).length := by
  simp only [length_multiString, widened, List.map_map, Function.comp_def, List.length_map]

variable (q : Readers)

/-- Both functions list the same readers. -/
theorem Readers.allReaders_wide :
    allReaders wide (widened q.names) q.cfgW = widened (allReaders narrow q.names q.cfg) := by
  simp only [allReaders, q.sameVirtual, widened, List.map_append, narrow, List.map_id_fun', List.map_id,
    id_eq]

theorem Readers.allReaders_ne : ∀ name ∈ allReaders narrow q.names q.cfg, name ≠ [] := by
  intro name hname
  rw [allReaders, List.mem_append, List.mem_map] at hname
  rcases hname with hreal | ⟨v, hv, rfl⟩
  · exact q.names_ne name hreal
  · have hpos : v.length > 0 := by simpa using (List.mem_filter.mp hv).2
    simpa [narrow] using List.ne_nil_of_length_pos hpos

theorem Readers.first_ne : q.cfg.readerOrderedFirst ≠ [] := q.allReaders_ne _ q.listed

/-- Some reader is listed. -/
theorem Readers.some_reader : ¬ (q.names = [] ∧ q.cfg.listVirtualReaders = []) := by
  rintro ⟨hnames, hv⟩
  have hlisted := q.listed
  rw [allReaders, hnames, hv] at hlisted
  exact List.not_mem_nil hlisted

theorem Readers.some_reader_wide : ¬ (widened q.names = [] ∧ q.cfgW.listVirtualReaders = []) := by
  rw [q.sameVirtual]
  rintro ⟨hnames, hv⟩
  exact q.some_reader ⟨List.map_eq_nil_iff.mp hnames, hv⟩

theorem realLength_widened (names : List Text) :
    realLength wide (widened names) = realLength narrow names := by
  have hnil : widened names = [] ↔ names = [] := List.map_eq_nil_iff
  simp only [realLength, hnil, length_multiString_widened]

/-- The length of the list is the same for both. -/
theorem Readers.finalLength_wide :
    finalLength wide (widened q.names) q.cfgW = finalLength narrow q.names q.cfg := by
  rw [← length_multiString_allReaders wide q.some_reader_wide, q.allReaders_wide, length_multiString_widened,
    length_multiString_allReaders narrow q.some_reader]

omit [DecidableEq χ] in
/-- The real and virtual parts are no longer than the list. -/
theorem length_le_finalLength (w : CharWidth χ) (hsome : ¬ (names = [] ∧ cfg.listVirtualReaders = [])) :
    realLength w names + requiredLength cfg.listVirtualReaders ≤ finalLength w names cfg := by
  rw [length_wholeList w hsome, realLength_eq]
  split_ifs <;> omega

/-- The name is shorter than the list it stands in. -/
theorem Readers.first_length : q.cfg.readerOrderedFirst.length ≤ finalLength narrow q.names q.cfg := by
  rw [← length_multiString_allReaders narrow q.some_reader, length_multiString]
  have hmem : q.cfg.readerOrderedFirst.length + 1 ∈
      (allReaders narrow q.names q.cfg).map fun name => name.length + 1 :=
    List.mem_map.mpr ⟨_, q.listed, rfl⟩
  have hle := List.le_sum_of_mem hmem
  omega

/-- What the wide function still does once the list stands in the allocated
buffer. -/
theorem listAllocatingW_listed {cfg : ListConfig UInt16} {original : OriginalListReaders UInt16}
    {names : List (List UInt16)} (h : Reports wide original names)
    (hsome : ¬ (names = [] ∧ cfg.listVirtualReaders = []))
    (hlt : realLength wide names + requiredLength cfg.listVirtualReaders + 2 < 2 ^ 32)
    (mszReaders : Option (List UInt16)) {n : UInt32} (hn : n = UInt32.ofNat (finalLength wide names cfg))
    {listed : List UInt16} (hlisted : listed = listedBuffer wide names cfg
      (realLength wide names + requiredLength cfg.listVirtualReaders + 2)) :
    listAllocatingW cfg original mszReaders = (do
      let mszReaders ← terminate wideFlavour mszReaders n
      let mszReaders ← storePointer cfg mszReaders
      let readersList ← stringParseSeparatedArray 0 listed n.toNat
      return ⟨scardSSuccess, n, mszReaders, some listed, readersList⟩) := by
  have hreal := realLength_lt (f := wideFlavour) h
  have hw : wideFlavour.width = wide := rfl
  have htotal : totalLength (UInt32.ofNat (realLength wide names)) (requiredLength cfg.listVirtualReaders) =
      n := by
    rw [totalLength_realLength wide names cfg hreal, hn, ← length_wholeList wide hsome]
  rw [listAllocatingW, suppressError_query (f := wideFlavour) h hsome, query_length h]
  dsimp only
  rw [if_neg (fun hne => hne rfl), hw, allocateReaders_fits h hsome hlt]
  dsimp only
  rw [if_neg (fun hne => hne rfl)]
  refine (Fault.bind_ok (serialize_behind wide (Nat.le_refl _) hreal)).trans ?_
  dsimp only
  rw [htotal, hlisted]

/-- The wide function fills the cell from its terminator on: the whole list has
to fit into it. -/
theorem listAllocatingW_eq {cfg : ListConfig UInt16} {original : OriginalListReaders UInt16}
    {names : List (List UInt16)} (h : Reports wide original names)
    (hsome : ¬ (names = [] ∧ cfg.listVirtualReaders = []))
    (hlt : realLength wide names + requiredLength cfg.listVirtualReaders + 2 < 2 ^ 32)
    {cell : List UInt16} (hcell : cell.length = cfg.address.length) :
    (cfg.address.length < finalLength wide names cfg →
      listAllocatingW cfg original (some cell) = .error .outOfBounds) ∧
    (finalLength wide names cfg ≤ cfg.address.length →
      ∃ readersList, listAllocatingW cfg original (some cell) =
        .ok ⟨scardSSuccess, UInt32.ofNat (finalLength wide names cfg), some cfg.address,
          some (listedBuffer wide names cfg
            (realLength wide names + requiredLength cfg.listVirtualReaders + 2)), readersList⟩) := by
  have hfinal := length_wholeList wide hsome
  have hterminated := length_terminatedNames_le wide names
  let n := UInt32.ofNat (finalLength wide names cfg)
  have hindex : (n - 1).toNat = finalLength wide names cfg - 1 := toNat_ofNat_sub_one (by omega) (by omega)
  rw [listAllocatingW_listed h hsome hlt (some cell) rfl rfl]
  constructor
  · intro hout
    have hwrite : terminate wideFlavour (some cell) n = .error .outOfBounds := by
      refine Fault.bind_error (Buffer.write_error ?_)
      rw [hindex, List.length_singleton]
      omega
    exact Fault.bind_error hwrite
  · intro hin
    let ended := Buffer.overwrite cell (finalLength wide names cfg - 1) [wide.nul]
    have hroom : finalLength wide names cfg - 1 + [wide.nul].length ≤ cell.length := by
      rw [List.length_singleton]
      omega
    have hended : ended.length = cfg.address.length := by rw [Buffer.length_overwrite hroom, hcell]
    have hwrite : terminate wideFlavour (some cell) n = .ok (some ended) := by
      refine Fault.bind_ok (Buffer.write_ok ?_) |>.trans ?_
      · rw [hindex]
        exact hroom
      · rw [hindex]
        rfl
    obtain ⟨readersList, hparse⟩ := parse_listedBuffer wide names cfg n.toNat_lt (Nat.le_refl _)
    refine ⟨readersList, ?_⟩
    refine (Fault.bind_ok hwrite).trans ?_
    exact (Fault.bind_ok (storePointer_ok hended)).trans (Fault.bind_ok hparse)

/-- The wide function allocates if it is told to. -/
theorem scardListReadersW_auto (cfg : ListConfig UInt16) (original : OriginalListReaders UInt16)
    (mszReaders : Option (List UInt16)) :
    scardListReadersW cfg original mszReaders scardAutoallocate =
      listAllocatingW cfg original mszReaders >>= reorderResult wideFlavour cfg := by
  rw [scardListReadersW, if_pos rfl]

/-- A status other than success survives the reordering. -/
theorem status_reorderResult {cfg : ListConfig UInt8} {r r' : ListResult UInt8}
    (h : reorderResult narrowFlavour cfg r = .ok r') : r'.status = r.status := by
  obtain ⟨status, pcchReaders, mszReaders, allocated, readersList⟩ := r
  cases mszReaders with
  | none =>
    cases h
    rfl
  | some buf =>
    simp only [reorderResult] at h
    split_ifs at h
    · obtain ⟨moved, -, hreturn⟩ := Fault.of_bind_ok h
      cases hreturn
      rfl
    · cases h
      rfl

/-- If all four ways agree, the whole list fits into the pointer cell. -/
theorem Readers.fits_of_agree (hagree : q.Agree) :
    realLength narrow q.names + requiredLength q.cfg.listVirtualReaders + 2 < 2 ^ 32 ∧
      finalLength narrow q.names q.cfg ≤ 4 := by
  obtain ⟨readers, hallocated, -, hallocatedW, -⟩ := hagree
  have hlt : realLength narrow q.names + requiredLength q.cfg.listVirtualReaders + 2 < 2 ^ 32 := by
    by_contra hbig
    obtain ⟨r, hr, -, hlists⟩ := hallocated q.cfg.address rfl
    rw [scardListReaders_auto] at hr
    obtain ⟨r', hr', hreordered⟩ := Fault.of_bind_ok hr
    have hrefused := listAllocating_wrapped q.reports q.some_reader (Nat.le_of_not_lt hbig) _ r' hr'
    have hstatus := hlists.status.symm.trans ((status_reorderResult hreordered).trans hrefused)
    exact absurd hstatus (by decide)
  refine ⟨hlt, ?_⟩
  by_contra hlong
  have hltW : realLength wide (widened q.names) + requiredLength q.cfgW.listVirtualReaders + 2 < 2 ^ 32 := by
    rw [realLength_widened, q.sameVirtual]
    exact hlt
  obtain ⟨r, hr, -⟩ := hallocatedW q.cfgW.address rfl
  have hlongW : q.cfgW.address.length < finalLength wide (widened q.names) q.cfgW := by
    rw [q.finalLength_wide, q.pointerW]
    omega
  have hout : listAllocatingW q.cfgW q.originalW (some q.cfgW.address) = .error .outOfBounds :=
    (listAllocatingW_eq q.reportsW q.some_reader_wide hltW rfl).1 hlongW
  rw [scardListReadersW_auto] at hr
  cases (Fault.bind_error hout).symm.trans hr

omit [DecidableEq χ] in
/-- The memory of the name starts with its bytes. -/
theorem map_nameMemory (cfg : ListConfig χ) :
    (List.range cfg.readerOrderedFirst.length).map (nameMemory cfg) = cfg.readerOrderedFirst := by
  apply List.ext_getElem
  · simp
  · intro i hi hi'
    rw [List.getElem_map, List.getElem_range, nameMemory, List.getElem?_append_left hi',
      List.getElem?_eq_getElem hi', Option.getD_some]

/-- A name alone stands first in its list. -/
theorem standsFirst_alone (cfg : ListConfig UInt8) :
    StandsFirst narrowFlavour cfg (multiString narrow [cfg.readerOrderedFirst]) := by
  have hlist : multiString narrow [cfg.readerOrderedFirst] = cfg.readerOrderedFirst ++ [0, 0] := by
    simp [multiString, narrow]
  have hbytes : cfg.readerOrderedFirst.flatMap narrow.bytes = cfg.readerOrderedFirst := by
    simp [narrow]
  rw [hlist]
  refine Or.inr ⟨?_, ?_⟩
  · show List.flatMap narrow.bytes _ = _
    rw [List.drop_zero, List.take_left' rfl]
    show cfg.readerOrderedFirst.flatMap narrow.bytes =
      (List.range (cfg.readerOrderedFirst.flatMap narrow.bytes).length).map (nameMemory cfg)
    rw [hbytes, map_nameMemory]
  · rw [List.getElem?_append_right (Nat.le_refl _), Nat.sub_self]
    rfl

theorem Readers.first_ne_wide : q.cfgW.readerOrderedFirst ≠ [] := by
  rw [q.sameFirst]
  exact q.first_ne

theorem Readers.first_length_wide :
    q.cfgW.readerOrderedFirst.length ≤ finalLength wide (widened q.names) q.cfgW := by
  rw [q.sameFirst, q.finalLength_wide]
  exact q.first_length

/-- A list that fits into the pointer cell is short enough for every buffer. -/
theorem Readers.room_of_short (hshort : finalLength narrow q.names q.cfg ≤ 4) :
    realLength narrow q.names + requiredLength q.cfg.listVirtualReaders + 2 < 2 ^ 32 - 1 := by
  have hparts := length_le_finalLength narrow q.some_reader
  omega

theorem Readers.room_of_short_wide (hshort : finalLength narrow q.names q.cfg ≤ 4) :
    realLength wide (widened q.names) + requiredLength q.cfgW.listVirtualReaders + 2 < 2 ^ 32 - 1 := by
  rw [realLength_widened, q.sameVirtual]
  exact q.room_of_short hshort

/-- The narrow function with an allocated buffer. -/
theorem Readers.listsAllocated_narrow_iff (hshort : finalLength narrow q.names q.cfg ≤ 4)
    (chars : List UInt8) :
    ListsAllocated q.cfg (scardListReaders q.cfg q.original) chars ↔
      chars = multiString narrow (allReaders narrow q.names q.cfg) ∧
        StandsFirst narrowFlavour q.cfg (q.cfg.address.take (finalLength narrow q.names q.cfg)) := by
  have hroom := q.room_of_short hshort
  have hlt : realLength narrow q.names + requiredLength q.cfg.listVirtualReaders + 2 < 2 ^ 32 := by omega
  have hcell : finalLength narrow q.names q.cfg ≤ q.cfg.address.length := by
    rw [q.pointer]
    omega
  refine listsAllocated_iff (f := narrowFlavour) q.some_reader hlt q.first_ne q.first_length hcell
    (fun cell hc => ?_) chars
  obtain ⟨readersList, hlist⟩ := listAllocating_ok q.reports q.some_reader hlt hc
  exact ⟨readersList, (scardListReaders_auto _ _ _).trans (Fault.bind_ok hlist)⟩

/-- The wide function with an allocated buffer. -/
theorem Readers.listsAllocated_wide_iff (hshort : finalLength narrow q.names q.cfg ≤ 4)
    (chars : List UInt16) :
    ListsAllocated q.cfgW (scardListReadersW q.cfgW q.originalW) chars ↔
      chars = multiString wide (allReaders wide (widened q.names) q.cfgW) ∧
        StandsFirst wideFlavour q.cfgW
          (q.cfgW.address.take (finalLength wide (widened q.names) q.cfgW)) := by
  have hroom := q.room_of_short_wide hshort
  have hlt : realLength wide (widened q.names) + requiredLength q.cfgW.listVirtualReaders + 2 < 2 ^ 32 := by
    omega
  have hcell : finalLength wide (widened q.names) q.cfgW ≤ q.cfgW.address.length := by
    rw [q.finalLength_wide, q.pointerW]
    exact hshort
  refine listsAllocated_iff (f := wideFlavour) q.some_reader_wide hlt q.first_ne_wide
    q.first_length_wide hcell
    (fun cell hc => ?_) chars
  obtain ⟨readersList, hlist⟩ := (listAllocatingW_eq q.reportsW q.some_reader_wide hlt hc).2 hcell
  exact ⟨readersList, (scardListReadersW_auto _ _ _).trans (Fault.bind_ok hlist)⟩

/-- When the four ways of asking for the readers agree. -/
theorem agree_iff : q.Agree ↔ q.Undisturbed := by
  have hsize := length_multiString_allReaders narrow q.some_reader
  have hwide := q.allReaders_wide
  have hlength (halone : allReaders narrow q.names q.cfg = [q.cfg.readerOrderedFirst]) :
      finalLength narrow q.names q.cfg = q.cfg.readerOrderedFirst.length + 2 := by
    rw [← hsize, halone, length_multiString]
    simp
  constructor
  · intro hagree
    obtain ⟨-, hshort⟩ := q.fits_of_agree hagree
    obtain ⟨halone, htwo⟩ := eq_singleton_of_length q.allReaders_ne q.listed (hsize.trans_le hshort)
    obtain ⟨readers, hallocated, -, hallocatedW, hsuppliedW⟩ := hagree
    obtain ⟨-, hpointer⟩ := (q.listsAllocated_narrow_iff hshort _).mp hallocated
    obtain ⟨hcharsW, hpointerW⟩ := (q.listsAllocated_wide_iff hshort _).mp hallocatedW
    rw [hcharsW] at hsuppliedW
    have hlistW := (listsSupplied_iff (scardListReadersW_supplies q.cfgW q.originalW) q.reportsW
      q.some_reader_wide (q.room_of_short_wide hshort) (by decide) q.first_ne_wide q.first_length_wide).mp
        hsuppliedW
    rw [hlength halone] at hpointer
    rw [q.finalLength_wide, hlength halone] at hpointerW
    rw [show wideFlavour.width = wide from rfl, hwide, halone] at hlistW
    exact ⟨halone, htwo, hpointer, hpointerW, hlistW⟩
  · rintro ⟨halone, htwo, hpointer, hpointerW, hlistW⟩
    have hshort : finalLength narrow q.names q.cfg ≤ 4 := by
      rw [hlength halone]
      omega
    rw [← hlength halone] at hpointer hpointerW
    rw [← q.finalLength_wide] at hpointerW
    rw [← halone, ← hwide] at hlistW
    refine ⟨allReaders narrow q.names q.cfg, ?_, ?_, ?_, ?_⟩
    · exact (q.listsAllocated_narrow_iff hshort _).mpr ⟨rfl, hpointer⟩
    · refine (listsSupplied_iff (scardListReaders_supplies q.cfg q.original) q.reports q.some_reader
        (q.room_of_short hshort) (by decide) q.first_ne q.first_length).mpr ?_
      rw [show narrowFlavour.width = narrow from rfl, halone]
      exact standsFirst_alone q.cfg
    · exact (q.listsAllocated_wide_iff hshort _).mpr ⟨congrArg _ hwide.symm, hpointerW⟩
    · rw [← hwide]
      exact (listsSupplied_iff (scardListReadersW_supplies q.cfgW q.originalW) q.reportsW q.some_reader_wide
        (q.room_of_short_wide hshort) (by decide) q.first_ne_wide q.first_length_wide).mpr hlistW

/-- Virtual readers alone, and two cells that received a null pointer. -/
def virtualReaders (listVirtualReaders : List Text) (first : Text) (hlt : first.length < 2 ^ 64)
    (hmem : first ∈ listVirtualReaders.filter fun v => v.length > 0) : Readers where
  names := []
  cfg := ⟨listVirtualReaders, first, hlt, fun _ => 0, List.replicate 8 0⟩
  cfgW := ⟨listVirtualReaders, first, hlt, fun _ => 0, List.replicate 4 0⟩
  original := installed narrow []
  originalW := installed wide []
  names_ne := fun _ h => absurd h List.not_mem_nil
  reports := reports_installed narrow [] (by decide)
  reportsW := reports_installed wide [] (by decide)
  sameVirtual := rfl
  sameFirst := rfl
  listed := by
    rw [allReaders, List.nil_append, List.mem_map]
    exact ⟨first, hmem, List.map_id _⟩
  pointer := rfl
  pointerW := rfl

/-- Two readers, the second one preferred: the wide function terminates the list
outside the pointer cell. -/
theorem not_agree_twoReaders :
    ¬ (virtualReaders [ascii "R1", ascii "R2"] (ascii "R2") (by decide) (by decide)).Agree := by
  intro hagree
  have hshort := (Readers.fits_of_agree _ hagree).2
  exact absurd hshort (by decide)

end ApduPlay.PreferredReader
