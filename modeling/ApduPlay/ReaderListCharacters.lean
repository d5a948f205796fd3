import ApduPlay.ReaderListSizes

/-!
# The characters of the reader list

Both ways of asking `SCardListReaders` splice the virtual names over the final
zero of the real list. They give the same characters as long as the size of the
allocated buffer fits its 32-bit variable.
-/

namespace ApduPlay.ReaderListCharacters

open SeparatedArray ListReaders ReaderListSizes

variable {χ : Type}

/-- The names that are to be listed: the real ones, then the virtual ones that
are not empty. -/
def allReaders (w : CharWidth χ) (names : List (List χ)) (cfg : ListConfig χ) : List (List χ) :=
  names ++ (cfg.listVirtualReaders.filter fun v => v.length > 0).map fun v => v.map w.widen

/-- A successful call that leaves these characters in its result, no matter
what stands behind them. -/
structure Lists (chars : List χ) (r : ListResult χ) (result : Option (List χ)) : Prop where
  /-- The call succeeds. -/
  status : r.status = scardSSuccess
  /-- The returned length counts the characters. -/
  length : r.pcchReaders.toNat = chars.length
  /-- The result starts with them. -/
  characters : result.map (List.take chars.length) = some chars

/-- Asking for an allocated buffer: the pointer cell of the caller receives its
address. -/
def ListsAllocated (cfg : ListConfig χ)
    (call : Option (List χ) → UInt32 → Except Fault (ListResult χ)) (chars : List χ) : Prop :=
  ∀ cell : List χ, cell.length = cfg.address.length →
    ∃ r, call (some cell) scardAutoallocate = .ok r ∧ r.mszReaders = some cfg.address ∧
      Lists chars r r.allocated

/-- A supplied buffer that passes the test of the source. -/
def LargeEnough (w : CharWidth χ) (names : List (List χ)) (cfg : ListConfig χ) (n : UInt32) : Prop :=
  realLength w names + requiredLength cfg.listVirtualReaders + 2 ≤ n.toNat

/-- Asking with a supplied buffer that is large enough. -/
def ListsSupplied (w : CharWidth χ) (names : List (List χ)) (cfg : ListConfig χ)
    (call : Option (List χ) → UInt32 → Except Fault (ListResult χ)) (chars : List χ) : Prop :=
  ∀ (n : UInt32) (buf : List χ), n ≠ scardAutoallocate → LargeEnough w names cfg n →
    buf.length = n.toNat → ∃ r, call (some buf) n = .ok r ∧ Lists chars r r.mszReaders

variable {f : Flavour χ} {w : CharWidth χ} {cfg : ListConfig χ} {original : OriginalListReaders χ}
  {names : List (List χ)} {buf : List χ} {n : UInt32} {k : ℕ}

theorem multiString_allReaders (w : CharWidth χ) (names : List (List χ)) (cfg : ListConfig χ) :
    multiString w (allReaders w names cfg) = wholeList w names cfg := by
  rw [wholeList, serialized_eq, multiString_eq, allReaders]
  simp only [terminatedNames, List.flatMap_append]

theorem length_multiString_allReaders (w : CharWidth χ)
    (hsome : ¬ (names = [] ∧ cfg.listVirtualReaders = [])) :
    (multiString w (allReaders w names cfg)).length = finalLength w names cfg := by
  rw [multiString_allReaders, wholeList, length_wholeList w hsome]
  simp only [List.length_append, length_serialized, List.length_singleton]

/-- A cleared buffer with room for both lists starts with all readers. -/
theorem listedBuffer_eq (w : CharWidth χ)
    (hfit : realLength w names + requiredLength cfg.listVirtualReaders + 2 ≤ k) :
    ∃ j, listedBuffer w names cfg k =
      multiString w (allReaders w names cfg) ++ List.replicate (j + 1) w.nul := by
  have hreal := length_terminatedNames_le w names
  obtain ⟨j, hj⟩ : ∃ j, k - (terminatedNames w names).length - requiredLength cfg.listVirtualReaders =
    j + 2 :=
    ⟨k - (terminatedNames w names).length - requiredLength cfg.listVirtualReaders - 2, by omega⟩
  refine ⟨j, ?_⟩
  rw [multiString_allReaders, wholeList, listedBuffer, hj, List.append_assoc _ [w.nul], List.singleton_append,
    ← List.replicate_succ]

/-- Such a buffer and its length are the answer that is asked for. -/
theorem lists_listedBuffer (w : CharWidth χ) (hsome : ¬ (names = [] ∧ cfg.listVirtualReaders = []))
    (hfit : realLength w names + requiredLength cfg.listVirtualReaders + 2 ≤ k) (hlt : k < 2 ^ 32)
    (mszReaders allocated result : Option (List χ)) (readersList : List (List χ))
    (hresult : result = some (listedBuffer w names cfg k)) :
    Lists (multiString w (allReaders w names cfg))
      ⟨scardSSuccess, UInt32.ofNat (finalLength w names cfg), mszReaders, allocated, readersList⟩ result := by
  have hreal := length_terminatedNames_le w names
  have hfinal := length_wholeList w hsome
  obtain ⟨j, hj⟩ := listedBuffer_eq w hfit
  refine ⟨rfl, ?_, ?_⟩
  · rw [length_multiString_allReaders w hsome]
    exact UInt32.toNat_ofNat_of_lt' (show _ < 2 ^ 32 by omega)
  · rw [hresult, Option.map_some, hj, List.take_left' rfl]

/-- The allocated buffer receives the real readers. -/
theorem allocateReaders_ok (h : Reports w original names)
    (hsome : ¬ (names = [] ∧ cfg.listVirtualReaders = []))
    (hn : n = UInt32.ofNat (realLength w names + requiredLength cfg.listVirtualReaders + 2))
    (hroom : realLength w names ≤ n.toNat) :
    allocateReaders w cfg original (UInt32.ofNat (realLength w names)) =
      (scardSSuccess, UInt32.ofNat (realLength w names), terminatedNames w names ++
        List.replicate (n.toNat - (terminatedNames w names).length) w.nul) := by
  obtain ⟨hanswer, hfilled⟩ := fill_cleared (f := ⟨w, 0, 0, id⟩) h hsome (n := n) hroom (Nat.le_refl _)
  simp only [allocateReaders, toNat_realLength (f := ⟨w, 0, 0, id⟩) h, serializedSize, ← hn]
  rw [hanswer, hfilled]

/-- Without a wrap-around the size of the buffer is that of both lists. -/
theorem allocateReaders_fits (h : Reports w original names)
    (hsome : ¬ (names = [] ∧ cfg.listVirtualReaders = []))
    (hlt : realLength w names + requiredLength cfg.listVirtualReaders + 2 < 2 ^ 32) :
    allocateReaders w cfg original (UInt32.ofNat (realLength w names)) =
      (scardSSuccess, UInt32.ofNat (realLength w names), terminatedNames w names ++ List.replicate
        (realLength w names + requiredLength cfg.listVirtualReaders + 2 - (terminatedNames w names).length)
        w.nul) := by
  have hsize : (UInt32.ofNat (realLength w names + requiredLength cfg.listVirtualReaders + 2)).toNat =
      realLength w names + requiredLength cfg.listVirtualReaders + 2 := UInt32.toNat_ofNat_of_lt' hlt
  rw [allocateReaders_ok h hsome rfl (by omega), hsize]

/-- A buffer too small for the real readers is refused. -/
theorem allocateReaders_refused (h : Reports w original names)
    (hn : n = UInt32.ofNat (realLength w names + requiredLength cfg.listVirtualReaders + 2))
    (hroom : n.toNat < realLength w names) :
    allocateReaders w cfg original (UInt32.ofNat (realLength w names)) =
      (scardEInsufficientBuffer, UInt32.ofNat (realLength w names), List.replicate n.toNat w.nul) := by
  have hnames : names ≠ [] := by
    rintro rfl
    exact absurd hroom (Nat.not_lt_zero _)
  have hlength : realLength w names = (multiString w names).length := if_neg hnames
  have hne : ¬ scardEInsufficientBuffer = scardENoReadersAvailable := by decide
  simp only [allocateReaders, toNat_realLength (f := ⟨w, 0, 0, id⟩) h, serializedSize, ← hn]
  rw [h.refuse hnames n _ (by omega), suppressError, if_neg fun hs => hne hs.1, hlength]

/-- The first call gives the length of the real readers. -/
theorem query_length (h : Reports w original names) :
    (original.query 0).2 = UInt32.ofNat (realLength w names) := by
  by_cases hn : names = []
  · rw [(h.none hn).1 0]
    simp [realLength, hn]
  · rw [h.query hn 0, realLength, if_neg hn]

/-- The pointer fills the cell of the caller. -/
theorem storePointer_ok {cell : List χ} (hcell : cell.length = cfg.address.length) :
    storePointer cfg (some cell) = .ok (some cfg.address) := by
  have hwrite : Buffer.write Fault.outOfBounds cell 0 cfg.address = .ok cfg.address := by
    rw [Buffer.write_ok (by omega), Buffer.overwrite, ← hcell]
    simp
  exact Fault.bind_ok hwrite

/-- A length that wraps around falls back by the size of its variable. -/
theorem toNat_wrapped {t : ℕ} (h : 2 ^ 32 ≤ t) : (UInt32.ofNat t).toNat + 2 ^ 32 ≤ t := by
  have hmod : (UInt32.ofNat t).toNat = t % 2 ^ 32 := UInt32.toNat_ofNat'
  have hdiv := Nat.div_add_mod t (2 ^ 32)
  have hpos : 0 < t / 2 ^ 32 := Nat.div_pos h (by decide)
  omega

variable {cfg : ListConfig UInt8} {original : OriginalListReaders UInt8} {names : List (List UInt8)}

/-- The allocated buffer has room for both lists. -/
theorem listAllocating_ok (h : Reports narrow original names)
    (hsome : ¬ (names = [] ∧ cfg.listVirtualReaders = []))
    (hlt : realLength narrow names + requiredLength cfg.listVirtualReaders + 2 < 2 ^ 32)
    {cell : List UInt8} (hcell : cell.length = cfg.address.length) :
    ∃ readersList, listAllocating cfg original (some cell) =
      .ok ⟨scardSSuccess, UInt32.ofNat (finalLength narrow names cfg), some cfg.address,
        some (listedBuffer narrow names cfg
          (realLength narrow names + requiredLength cfg.listVirtualReaders + 2)), readersList⟩ := by
  have hreal := realLength_lt (f := narrowFlavour) h
  have hfinal := length_wholeList narrow hsome
  obtain ⟨readersList, hparse⟩ := parse_listedBuffer narrow names cfg
    (UInt32.ofNat (finalLength narrow names cfg) - 1).toNat_lt (Nat.le_refl _)
  refine ⟨readersList, ?_⟩
  rw [listAllocating, suppressError_query (f := narrowFlavour) h hsome, query_length h]
  dsimp only
  rw [if_neg (fun hne => hne rfl)]
  have hw : narrowFlavour.width = narrow := rfl
  rw [hw, allocateReaders_fits h hsome hlt]
  dsimp only
  rw [if_neg (fun hne => hne rfl)]
  refine (Fault.bind_ok (serialize_behind narrow (Nat.le_refl _) hreal)).trans ?_
  dsimp only
  rw [totalLength_realLength narrow names cfg hreal, ← hfinal]
  refine (Fault.bind_ok (terminate_listedBuffer narrow hsome (Nat.le_refl _) hlt)).trans ?_
  exact (Fault.bind_ok (storePointer_ok hcell)).trans (Fault.bind_ok hparse)

/-- The names do not fit behind the real readers of a buffer that is shorter by
the range of its length. -/
theorem serialize_overrun {k : ℕ} (hreal : realLength narrow names < 2 ^ 32)
    (hwrap : k + 2 ^ 32 ≤ realLength narrow names + requiredLength cfg.listVirtualReaders + 2)
    (hroom : realLength narrow names ≤ k) :
    stringSerializeAsSeparatedArray narrow 0 cfg.listVirtualReaders
      (terminatedNames narrow names ++ List.replicate (k - (terminatedNames narrow names).length) narrow.nul)
      (virtualOffset (UInt32.ofNat (realLength narrow names))) (serializedSize cfg.listVirtualReaders) =
        .error .outOfBounds := by
  have hterminated := length_terminatedNames_le narrow names
  have hlast : realLength narrow names ≤ (terminatedNames narrow names).length + 1 := by
    rw [realLength_eq]
    split_ifs <;> omega
  rw [virtualOffset_realLength narrow names hreal]
  apply stringSerializeAsSeparatedArray_error
  rw [List.length_append, List.length_replicate]
  omega

/-- An allocated buffer whose size wrapped around is refused by the original
library or overrun by the names. -/
theorem listAllocating_wrapped (h : Reports narrow original names)
    (hsome : ¬ (names = [] ∧ cfg.listVirtualReaders = []))
    (hbig : 2 ^ 32 ≤ realLength narrow names + requiredLength cfg.listVirtualReaders + 2)
    (cell : List UInt8) (r : ListResult UInt8) (hr : listAllocating cfg original (some cell) = .ok r) :
    r.status = scardEInsufficientBuffer := by
  have hreal := realLength_lt (f := narrowFlavour) h
  have hw : narrowFlavour.width = narrow := rfl
  rw [hw] at hreal
  let newLen := UInt32.ofNat (realLength narrow names + requiredLength cfg.listVirtualReaders + 2)
  have hwrap : newLen.toNat + 2 ^ 32 ≤ _ := toNat_wrapped hbig
  rw [listAllocating, suppressError_query (f := narrowFlavour) h hsome, query_length h] at hr
  dsimp only at hr
  rw [if_neg (fun hne => hne rfl), hw] at hr
  by_cases hroom : realLength narrow names ≤ newLen.toNat
  · rw [allocateReaders_ok h hsome rfl hroom] at hr
    dsimp only at hr
    rw [if_neg (fun hne => hne rfl)] at hr
    cases (Fault.bind_error (serialize_overrun hreal hwrap hroom)).symm.trans hr
  · rw [allocateReaders_refused h rfl (Nat.lt_of_not_le hroom)] at hr
    dsimp only at hr
    rw [if_pos (by decide)] at hr
    cases hr
    rfl

theorem scardListReaders_auto (cfg : ListConfig UInt8) (original : OriginalListReaders UInt8)
    (mszReaders : Option (List UInt8)) :
    scardListReaders cfg original mszReaders scardAutoallocate =
      listAllocating cfg original mszReaders >>= reorderResult narrowFlavour cfg := by
  rw [scardListReaders, if_pos rfl]

/-- Without a preferred reader the result stays as it is. -/
theorem reorderResult_unset (hfirst : cfg.readerOrderedFirst = []) (r : ListResult UInt8) :
    reorderResult narrowFlavour cfg r = .ok r := by
  obtain ⟨status, pcchReaders, mszReaders, allocated, readersList⟩ := r
  cases mszReaders with
  | none => rfl
  | some buf =>
    simp only [reorderResult, reorder, hfirst, if_true]
    split_ifs <;> rfl

/-- Both ways give exactly the names of all readers, unless the size of the
allocated buffer wraps around. -/
theorem listsBothWays_iff (h : Reports narrow original names)
    (hsome : ¬ (names = [] ∧ cfg.listVirtualReaders = [])) (hfirst : cfg.readerOrderedFirst = []) :
    ListsAllocated cfg (scardListReaders cfg original) (multiString narrow (allReaders narrow names cfg)) ∧
      ListsSupplied narrow names cfg (scardListReaders cfg original)
        (multiString narrow (allReaders narrow names cfg)) ↔
    realLength narrow names + requiredLength cfg.listVirtualReaders + 2 < 2 ^ 32 := by
  constructor
  · rintro ⟨hallocated, -⟩
    by_contra hbig
    obtain ⟨r, hr, -, hlists⟩ := hallocated cfg.address rfl
    rw [scardListReaders_auto] at hr
    obtain ⟨r', hr', hreordered⟩ := Fault.of_bind_ok hr
    have hstatus := listAllocating_wrapped h hsome (Nat.le_of_not_lt hbig) cfg.address r' hr'
    cases (reorderResult_unset hfirst r').symm.trans hreordered
    exact absurd (hlists.status.symm.trans hstatus) (by decide)
  · intro hlt
    constructor
    · intro cell hcell
      obtain ⟨readersList, hlist⟩ := listAllocating_ok h hsome hlt hcell
      have hcall := (scardListReaders_auto cfg original (some cell)).trans
        ((Fault.bind_ok hlist).trans (reorderResult_unset hfirst _))
      exact ⟨_, hcall, rfl, lists_listedBuffer narrow hsome (Nat.le_refl _) hlt _ _ _ _ rfl⟩
    · intro n buf hn hlarge hbuf
      obtain ⟨readersList, hlist⟩ := listSupplied_ok (f := narrowFlavour) h hsome hlarge hbuf (by decide)
      have hcall := (scardListReaders_supplies cfg original (some buf) n hn).trans
        ((Fault.bind_ok hlist).trans (reorderResult_unset hfirst _))
      exact ⟨_, hcall, lists_listedBuffer narrow hsome hlarge n.toNat_lt _ _ _ _ rfl⟩

theorem listsBothWays_two :
    ListsAllocated (oneVirtualReader pointerBytes)
        (scardListReaders (oneVirtualReader pointerBytes) (installed narrow [ascii "R0"]))
        (multiString narrow [ascii "R0", ascii "R1"]) ∧
      ListsSupplied narrow [ascii "R0"] (oneVirtualReader pointerBytes)
        (scardListReaders (oneVirtualReader pointerBytes) (installed narrow [ascii "R0"]))
        (multiString narrow [ascii "R0", ascii "R1"]) :=
  (listsBothWays_iff (reports_installed narrow [ascii "R0"] (by decide))
    (by decide) rfl).mpr (by decide)

/-- The name of a real reader that fills nearly all that a length can count. -/
def longReader : Text := List.replicate (2 ^ 32 - 4) 0x41

theorem length_multiString_longReader : (multiString narrow [longReader]).length = 2 ^ 32 - 2 := by
  rw [multiString_eq, terminatedNames, List.flatMap_singleton, List.length_append, List.length_append,
    longReader, List.length_replicate]
  rfl

/-- With a virtual reader behind it the size of the allocated buffer wraps around: three
characters are allocated, and the original library refuses to fill them. -/
theorem not_listsAllocated_long :
    ∃ original : OriginalListReaders UInt8, Reports narrow original [longReader] ∧
      ¬ ListsAllocated (oneVirtualReader pointerBytes)
        (scardListReaders (oneVirtualReader pointerBytes) original)
        (multiString narrow (allReaders narrow [longReader] (oneVirtualReader pointerBytes))) := by
  have hlength := length_multiString_longReader
  have hreports : Reports narrow (installed narrow [longReader]) [longReader] :=
    reports_installed narrow [longReader] (by omega)
  refine ⟨installed narrow [longReader], hreports, fun hallocated => ?_⟩
  obtain ⟨r, hr, -, hlists⟩ := hallocated pointerBytes rfl
  rw [scardListReaders_auto] at hr
  obtain ⟨r', hr', hreordered⟩ := Fault.of_bind_ok hr
  have hbig : 2 ^ 32 ≤ realLength narrow [longReader] +
      requiredLength (oneVirtualReader pointerBytes).listVirtualReaders + 2 := by
    rw [realLength, if_neg (List.cons_ne_nil _ _), hlength]
    omega
  have hstatus := listAllocating_wrapped hreports (fun hnone => List.cons_ne_nil _ _ hnone.1) hbig
    pointerBytes r' hr'
  cases (reorderResult_unset rfl r').symm.trans hreordered
  exact absurd (hlists.status.symm.trans hstatus) (by decide)

end ApduPlay.ReaderListCharacters
