import ApduPlay.ListReaders

/-!
# Asking for the size first

Callers ask for the length of the reader list without a buffer and call again
with a buffer of that length. The two functions report the length, test it and
return it in three different ways, and agree only in the wide one.
-/

namespace ApduPlay.ReaderListSizes

open SeparatedArray ListReaders

variable {χ : Type}

/-- A list of names as a multi-string. -/
def multiString (w : CharWidth χ) (names : List (List χ)) : List χ :=
  names.flatMap (fun name => name ++ [w.nul]) ++ [w.nul]

/-- The original library reports these readers consistently with and without a
buffer, or says that there are none and touches nothing. -/
structure Reports (w : CharWidth χ) (original : OriginalListReaders χ) (names : List (List χ)) :
    Prop where
  /-- The length fits its variable. -/
  length_lt : (multiString w names).length < 2 ^ 32
  /-- Without a buffer the full length is reported. -/
  query : names ≠ [] → ∀ n, original.query n = (scardSSuccess, UInt32.ofNat (multiString w names).length)
  /-- A large enough buffer receives the list. -/
  fill : names ≠ [] → ∀ n buf, (multiString w names).length ≤ n.toNat → n.toNat ≤ buf.length →
    original.fill n buf = (scardSSuccess, UInt32.ofNat (multiString w names).length,
      Buffer.overwrite buf 0 (multiString w names))
  /-- A small buffer is refused. -/
  refuse : names ≠ [] → ∀ n buf, n.toNat < (multiString w names).length →
    original.fill n buf = (scardEInsufficientBuffer, UInt32.ofNat (multiString w names).length, buf)
  /-- Without readers nothing is touched. -/
  none : names = [] → (∀ n, original.query n = (scardENoReadersAvailable, n)) ∧
    ∀ n buf, original.fill n buf = (scardENoReadersAvailable, n, buf)

/-- If a call without a buffer reports a length, the next call with a buffer of
that length succeeds and returns no longer list. A length equal to the mark
for allocation cannot be passed for a buffer. -/
def TwoCalls (call : Option (List χ) → UInt32 → Except Fault (ListResult χ)) : Prop :=
  ∀ m r, m ≠ scardAutoallocate → call none m = .ok r → r.status = scardSSuccess →
    r.pcchReaders ≠ scardAutoallocate → ∀ buf : List χ, buf.length = r.pcchReaders.toNat →
      ∃ r', call (some buf) r.pcchReaders = .ok r' ∧ r'.status = scardSSuccess ∧
        r'.pcchReaders ≤ r.pcchReaders

/-- Length of the multi-string of the real readers, zero if there are none. -/
def realLength (w : CharWidth χ) (names : List (List χ)) : ℕ :=
  if names = [] then 0 else (multiString w names).length

/-- The length that a successful call with a buffer returns. -/
def finalLength (w : CharWidth χ) (names : List (List χ)) (cfg : ListConfig χ) : ℕ :=
  if cfg.listVirtualReaders = [] then realLength w names
  else if names = [] then requiredLength cfg.listVirtualReaders + 1
  else realLength w names + requiredLength cfg.listVirtualReaders

/-- The names of the real readers, each with its zero. -/
def terminatedNames (w : CharWidth χ) (names : List (List χ)) : List χ :=
  names.flatMap fun name => name ++ [w.nul]

/-- The list of all readers: real names, virtual names, and a final zero. -/
def wholeList (w : CharWidth χ) (names : List (List χ)) (cfg : ListConfig χ) : List χ :=
  terminatedNames w names ++ serialized w w.nul cfg.listVirtualReaders ++ [w.nul]

/-- A cleared buffer that received this list. -/
def listedBuffer (w : CharWidth χ) (names : List (List χ)) (cfg : ListConfig χ) (k : ℕ) : List χ :=
  terminatedNames w names ++ serialized w w.nul cfg.listVirtualReaders ++
    List.replicate (k - (terminatedNames w names).length - requiredLength cfg.listVirtualReaders) w.nul

variable {f : Flavour χ} {cfg : ListConfig χ} {original : OriginalListReaders χ} {names : List (List χ)}
  {buf : List χ} {n : UInt32} {k : ℕ}

/-- A list of names ends with one more null character. -/
theorem multiString_eq (w : CharWidth χ) (names : List (List χ)) :
    multiString w names = terminatedNames w names ++ [w.nul] := rfl

/-- The length of the real list counts the final zero unless there are none. -/
theorem realLength_eq (w : CharWidth χ) (names : List (List χ)) :
    realLength w names = if names = [] then 0 else (terminatedNames w names).length + 1 := by
  rw [realLength, multiString_eq, List.length_append, List.length_singleton]

theorem length_terminatedNames_le (w : CharWidth χ) (names : List (List χ)) :
    (terminatedNames w names).length ≤ realLength w names := by
  rw [realLength_eq]
  split_ifs with hn
  · simp [terminatedNames, hn]
  · omega

/-- The final length is that of the list of all readers. -/
theorem length_wholeList (w : CharWidth χ) (hsome : ¬ (names = [] ∧ cfg.listVirtualReaders = [])) :
    finalLength w names cfg =
      (terminatedNames w names).length + requiredLength cfg.listVirtualReaders + 1 := by
  unfold finalLength
  by_cases hv : cfg.listVirtualReaders = []
  · rw [if_pos hv, realLength_eq, if_neg fun hn => hsome ⟨hn, hv⟩]
    simp [hv, requiredLength]
  · rw [if_neg hv, realLength_eq]
    split_ifs with hn
    · simp [terminatedNames, hn]
    · omega

/-- The final zero in a length that fits its variable. -/
theorem toNat_ofNat_sub_one {m : ℕ} (hpos : 0 < m) (hlt : m < 2 ^ 32) :
    (UInt32.ofNat m - 1).toNat = m - 1 := by
  have hm : (UInt32.ofNat m).toNat = m := UInt32.toNat_ofNat_of_lt' hlt
  have hone : (1 : UInt32) ≤ UInt32.ofNat m := by
    rw [UInt32.le_iff_toNat_le, hm]
    exact hpos
  rw [UInt32.toNat_sub_of_le _ _ hone, hm]
  rfl

theorem ofNat_ne_zero {m : ℕ} (hpos : 0 < m) (hlt : m < 2 ^ 32) : UInt32.ofNat m ≠ 0 := by
  intro he
  have hm : (UInt32.ofNat m).toNat = m := UInt32.toNat_ofNat_of_lt' hlt
  rw [he, UInt32.toNat_zero] at hm
  omega

/-- The virtual names start where the real ones end. -/
theorem virtualOffset_realLength (w : CharWidth χ) (names : List (List χ))
    (hlt : realLength w names < 2 ^ 32) :
    virtualOffset (UInt32.ofNat (realLength w names)) = (terminatedNames w names).length := by
  rw [realLength_eq] at hlt ⊢
  split_ifs at hlt ⊢ with hn
  · simp [virtualOffset, terminatedNames, hn]
  · have hpos : UInt32.ofNat ((terminatedNames w names).length + 1) > 0 :=
      UInt32.pos_iff_ne_zero.mpr (ofNat_ne_zero (Nat.succ_pos _) hlt)
    rw [virtualOffset, if_pos hpos, toNat_ofNat_sub_one (Nat.succ_pos _) hlt]
    rfl

/-- The length is put together from the two parts. -/
theorem totalLength_realLength (w : CharWidth χ) (names : List (List χ)) (cfg : ListConfig χ)
    (hlt : realLength w names < 2 ^ 32) :
    totalLength (UInt32.ofNat (realLength w names)) (requiredLength cfg.listVirtualReaders) =
      UInt32.ofNat ((terminatedNames w names).length + requiredLength cfg.listVirtualReaders + 1) := by
  rw [realLength_eq] at hlt ⊢
  split_ifs at hlt ⊢ with hn
  · simp [totalLength, terminatedNames, hn]
  · rw [totalLength, if_neg (ofNat_ne_zero (Nat.succ_pos _) hlt), UInt32.toNat_ofNat_of_lt' hlt]
    congr 1
    omega

/-- The virtual names are written into the zeroes behind the real ones. -/
theorem serialize_behind (w : CharWidth χ)
    (hfit : realLength w names + requiredLength cfg.listVirtualReaders + 2 ≤ k)
    (hlt : realLength w names < 2 ^ 32) :
    stringSerializeAsSeparatedArray w w.nul cfg.listVirtualReaders
      (terminatedNames w names ++ List.replicate (k - (terminatedNames w names).length) w.nul)
      (virtualOffset (UInt32.ofNat (realLength w names))) (serializedSize cfg.listVirtualReaders) =
        .ok (statOk, requiredLength cfg.listVirtualReaders, listedBuffer w names cfg k) := by
  have hreal := length_terminatedNames_le w names
  have hser := length_serialized w w.nul cfg.listVirtualReaders
  rw [virtualOffset_realLength w names hlt, stringSerializeAsSeparatedArray_ok w w.nul (by
    rw [List.length_append, List.length_replicate]
    omega), Buffer.overwrite_replicate, hser]
  rfl

/-- The final zero is there already. -/
theorem terminate_listedBuffer (w : CharWidth χ) (hsome : ¬ (names = [] ∧ cfg.listVirtualReaders = []))
    (hfit : realLength w names + requiredLength cfg.listVirtualReaders + 2 ≤ k) (hlt : k < 2 ^ 32) :
    Buffer.write Fault.outOfBounds (listedBuffer w names cfg k)
      (UInt32.ofNat (finalLength w names cfg) - 1).toNat [w.nul] = .ok (listedBuffer w names cfg k) := by
  have hreal := length_terminatedNames_le w names
  have hser := length_serialized w w.nul cfg.listVirtualReaders
  have hfinal := length_wholeList w hsome
  have hindex : (UInt32.ofNat (finalLength w names cfg) - 1).toNat =
      (terminatedNames w names ++ serialized w w.nul cfg.listVirtualReaders).length := by
    rw [toNat_ofNat_sub_one (by omega) (by omega), List.length_append, hser]
    omega
  rw [hindex, Buffer.write_ok]
  · exact congrArg Except.ok (Buffer.overwrite_replicate_self _ _ (by omega))
  · simp only [listedBuffer, List.length_append, List.length_replicate, List.length_singleton, hser]
    omega

theorem length_listedBuffer (w : CharWidth χ)
    (hfit : realLength w names + requiredLength cfg.listVirtualReaders + 2 ≤ k) :
    (listedBuffer w names cfg k).length = k := by
  have hreal := length_terminatedNames_le w names
  simp only [listedBuffer, List.length_append, List.length_replicate, length_serialized]
  omega

/-- What the first question to the original library amounts to. -/
theorem suppressError_query (h : Reports f.width original names)
    (hsome : ¬ (names = [] ∧ cfg.listVirtualReaders = [])) (m : UInt32) :
    suppressError cfg (original.query m) =
      (scardSSuccess, UInt32.ofNat (realLength f.width names)) := by
  unfold suppressError
  by_cases hn : names = []
  · have hv : 0 < cfg.listVirtualReaders.length :=
      List.length_pos_of_ne_nil fun hv => hsome ⟨hn, hv⟩
    rw [(h.none hn).1 m, if_pos ⟨rfl, hv⟩]
    simp [realLength, hn]
  · have hne : ¬ scardSSuccess = scardENoReadersAvailable := by decide
    rw [h.query hn m, if_neg fun hs => hne hs.1]
    simp [realLength, hn]

theorem suppressError_query_none (h : Reports f.width original names)
    (hnone : names = [] ∧ cfg.listVirtualReaders = []) (m : UInt32) :
    (suppressError cfg (original.query m)).1 = scardENoReadersAvailable := by
  rw [(h.none hnone.1).1 m, suppressError, if_neg]
  simp [hnone.2]

theorem realLength_lt (h : Reports f.width original names) : realLength f.width names < 2 ^ 32 := by
  unfold realLength
  split_ifs
  · decide
  · exact h.length_lt

theorem toNat_realLength (h : Reports f.width original names) :
    (UInt32.ofNat (realLength f.width names)).toNat = realLength f.width names :=
  UInt32.toNat_ofNat_of_lt' (realLength_lt h)

/-- A cleared buffer that the original library filled. -/
theorem fill_cleared (h : Reports f.width original names)
    (hsome : ¬ (names = [] ∧ cfg.listVirtualReaders = [])) (hn : realLength f.width names ≤ n.toNat)
    (hk : n.toNat ≤ k) :
    suppressError cfg ((original.fill n (List.replicate k f.width.nul)).1,
        (original.fill n (List.replicate k f.width.nul)).2.1) =
      (scardSSuccess, UInt32.ofNat (realLength f.width names)) ∧
    (original.fill n (List.replicate k f.width.nul)).2.2 = terminatedNames f.width names ++
      List.replicate (k - (terminatedNames f.width names).length) f.width.nul := by
  by_cases hnames : names = []
  · have hv : 0 < cfg.listVirtualReaders.length :=
      List.length_pos_of_ne_nil fun hv => hsome ⟨hnames, hv⟩
    rw [(h.none hnames).2 n, suppressError, if_pos ⟨rfl, hv⟩]
    simp [realLength, terminatedNames, hnames]
  · have hlength : realLength f.width names = (multiString f.width names).length := if_neg hnames
    have hne : ¬ scardSSuccess = scardENoReadersAvailable := by decide
    rw [h.fill hnames n _ (by omega) (by rw [List.length_replicate]; exact hk), suppressError,
      if_neg fun hs => hne hs.1, hlength]
    refine ⟨rfl, ?_⟩
    have hover := Buffer.overwrite_replicate [] (multiString f.width names) f.width.nul k
    rw [List.nil_append, List.length_nil, List.nil_append] at hover
    dsimp only
    have hzero : k - (terminatedNames f.width names).length =
        (k - ((terminatedNames f.width names).length + 1)) + 1 := by
      rw [hlength, multiString_eq, List.length_append, List.length_singleton] at hn
      omega
    rw [hover, multiString_eq, List.append_assoc, List.length_append, List.length_singleton, hzero,
      List.replicate_succ, List.singleton_append]

/-- A list that was found is reordered in the caller's memory. -/
theorem reorderResult_some (f : Flavour χ) (cfg : ListConfig χ) (n : UInt32) (buf : List χ)
    (allocated : Option (List χ)) (readersList : List (List χ)) :
    reorderResult f cfg ⟨scardSSuccess, n, some buf, allocated, readersList⟩ = (do
      let moved ← reorder f cfg buf n
      return ⟨scardSSuccess, n, some moved, allocated, readersList⟩) := by
  simp only [reorderResult, show scardSSuccess = statOk from rfl, if_true]

/-- The preferred reader is moved inside a list that has room behind it: its
characters, a zero, what stood before them, and what stood behind their zero. -/
theorem moveToFront_eq {pcchReaders i : ℕ} (hi : i + cfg.readerOrderedFirst.length < pcchReaders)
    (hlen : pcchReaders ≤ buf.length) :
    moveToFront f cfg buf pcchReaders i = .ok ((buf.drop i).take cfg.readerOrderedFirst.length ++
      f.width.nul :: (buf.take i ++ buf.drop (i + cfg.readerOrderedFirst.length + 1))) := by
  let length := cfg.readerOrderedFirst.length
  let readers := buf.take pcchReaders
  let first := (buf.drop i).take length
  have hfirst : first.length = length := by
    rw [List.length_take, List.length_drop]
    omega
  have hreaders : readers.length = pcchReaders := List.length_take_of_le hlen
  have hbefore : (buf.take i).length = i := List.length_take_of_le (by omega)
  have h1 : Buffer.write Fault.outOfBounds readers 0 first = .ok (first ++ readers.drop length) := by
    rw [Buffer.write_ok (by omega), ← hfirst]
    exact congrArg Except.ok (Buffer.overwrite_append [] readers first)
  have h2 : Buffer.write Fault.outOfBounds (first ++ readers.drop length) length [f.width.nul] =
      .ok (first ++ [f.width.nul] ++ (readers.drop length).drop 1) := by
    rw [Buffer.write_ok (by simp; omega), ← hfirst]
    exact congrArg Except.ok (Buffer.overwrite_append first _ [f.width.nul])
  have h3 : Buffer.write Fault.outOfBounds (first ++ [f.width.nul] ++ (readers.drop length).drop 1)
      (length + 1) (buf.take i) = .ok (first ++ [f.width.nul] ++ buf.take i ++
        ((readers.drop length).drop 1).drop i) := by
    have hpos : length + 1 = (first ++ [f.width.nul]).length := by simp [hfirst]
    rw [Buffer.write_ok (by simp; omega), hpos, Buffer.overwrite_append, hbefore]
  have hrest : ((readers.drop length).drop 1).drop i ++ buf.drop pcchReaders = buf.drop (i + length + 1) := by
    rw [List.drop_drop, List.drop_drop, show length + (1 + i) = i + length + 1 by omega]
    conv_rhs => rw [← List.take_append_drop pcchReaders buf,
      List.drop_append_of_le_length (show i + length + 1 ≤ readers.length by omega)]
  have h4 : Buffer.write Fault.outOfBounds buf 0 (first ++ [f.width.nul] ++ buf.take i ++
      ((readers.drop length).drop 1).drop i) = .ok (first ++ [f.width.nul] ++ buf.take i ++
        buf.drop (i + length + 1)) := by
    have hsize : (first ++ [f.width.nul] ++ buf.take i ++ ((readers.drop length).drop 1).drop i).length =
        pcchReaders := by
      simp only [List.length_append, List.length_singleton, List.length_drop, hfirst, hbefore, hreaders]
      omega
    rw [Buffer.write_ok (by omega), ← hrest, ← List.append_assoc, ← hsize]
    exact congrArg Except.ok (Buffer.overwrite_append [] buf _)
  unfold moveToFront
  refine (Fault.bind_ok (Buffer.read_ok (by omega))).trans ?_
  refine (Fault.bind_ok (Buffer.read_ok (by omega))).trans ?_
  refine (Fault.bind_ok h1).trans ((Fault.bind_ok h2).trans ?_)
  refine (Fault.bind_ok (Buffer.read_ok (by omega))).trans ?_
  refine (Fault.bind_ok h3).trans (h4.trans ?_)
  simp [first, length]

/-- A name that is longer than the list is copied over the end of the copy. -/
theorem moveToFront_fault {pcchReaders i : ℕ} (hlong : pcchReaders < cfg.readerOrderedFirst.length)
    (hlen : pcchReaders ≤ buf.length) (hi : i + cfg.readerOrderedFirst.length ≤ buf.length) :
    moveToFront f cfg buf pcchReaders i = .error .outOfBounds := by
  unfold moveToFront
  refine (Fault.bind_ok (Buffer.read_ok (by omega))).trans ?_
  refine (Fault.bind_ok (Buffer.read_ok (by omega))).trans ?_
  refine Fault.bind_error (Buffer.write_error ?_)
  simp only [List.length_take, List.length_drop]
  omega

/-- The loop stays inside the list as long as its bound did not wrap around. -/
theorem reorderLoop_ok {pcchReaders : ℕ} (hlen : pcchReaders ≤ buf.length) (rounds i : ℕ)
    (hi : i + rounds + cfg.readerOrderedFirst.length = pcchReaders) :
    ∃ buf', reorderLoop f cfg buf pcchReaders rounds i = .ok buf' := by
  induction rounds generalizing i with
  | zero => exact ⟨buf, rfl⟩
  | succ rounds ih =>
    have hread : Buffer.read Fault.outOfBounds buf i cfg.readerOrderedFirst.length = .ok _ :=
      Buffer.read_ok (by omega)
    rw [reorderLoop, Fault.bind_ok hread]
    dsimp only
    split_ifs
    · exact ⟨_, moveToFront_eq (by omega) hlen⟩
    · exact ih (i + 1) (by omega)

/-- With a wrapped bound it runs out of the buffer. -/
theorem reorderLoop_fault {pcchReaders : ℕ} (hlong : pcchReaders < cfg.readerOrderedFirst.length)
    (hlen : pcchReaders ≤ buf.length) (rounds i : ℕ)
    (hi : buf.length < i + rounds + cfg.readerOrderedFirst.length) :
    reorderLoop f cfg buf pcchReaders (rounds + 1) i = .error .outOfBounds := by
  induction rounds generalizing i with
  | zero =>
    rw [reorderLoop]
    exact Fault.bind_error (Buffer.read_error (by omega))
  | succ rounds ih =>
    rw [reorderLoop]
    by_cases hin : i + cfg.readerOrderedFirst.length ≤ buf.length
    · rw [Fault.bind_ok (Buffer.read_ok hin)]
      dsimp only
      split_ifs
      · exact moveToFront_fault hlong hlen hin
      · exact ih (i + 1) (by omega)
    · exact Fault.bind_error (Buffer.read_error (by omega))

/-- Without wrapping around the loop has one round for each place of the name
in front of the last one. -/
theorem rounds_of_le (hle : cfg.readerOrderedFirst.length ≤ n.toNat) :
    (n.toUInt64 - UInt64.ofNat cfg.readerOrderedFirst.length).toNat =
      n.toNat - cfg.readerOrderedFirst.length := by
  have hsize : (UInt64.ofNat cfg.readerOrderedFirst.length).toNat = cfg.readerOrderedFirst.length :=
    UInt64.toNat_ofNat_of_lt' cfg.length_lt
  have hle64 : UInt64.ofNat cfg.readerOrderedFirst.length ≤ n.toUInt64 := by
    rw [UInt64.le_iff_toNat_le, hsize, UInt32.toNat_toUInt64]
    exact hle
  rw [UInt64.toNat_sub_of_le _ _ hle64, hsize, UInt32.toNat_toUInt64]

/-- The list is reordered without a fault exactly if the preferred name is not
longer than it. -/
theorem reorder_ok_iff (buf : List χ) (hlen : n.toNat ≤ buf.length) (hlt : buf.length < 2 ^ 32) :
    (∃ buf', reorder f cfg buf n = .ok buf') ↔
      cfg.readerOrderedFirst = [] ∨ cfg.readerOrderedFirst.length ≤ n.toNat := by
  have hfirst := cfg.length_lt
  have hsize : (UInt64.ofNat cfg.readerOrderedFirst.length).toNat = cfg.readerOrderedFirst.length :=
    UInt64.toNat_ofNat_of_lt' hfirst
  unfold reorder
  by_cases hnil : cfg.readerOrderedFirst = []
  · simp [hnil]
  rw [if_neg hnil]
  simp only [hnil, false_or]
  by_cases hle : cfg.readerOrderedFirst.length ≤ n.toNat
  · rw [rounds_of_le hle]
    exact iff_of_true (reorderLoop_ok hlen _ 0 (by omega)) hle
  · have hrounds : (n.toUInt64 - UInt64.ofNat cfg.readerOrderedFirst.length).toNat =
        2 ^ 64 - cfg.readerOrderedFirst.length + n.toNat := by
      rw [UInt64.toNat_sub, hsize, UInt32.toNat_toUInt64]
      exact Nat.mod_eq_of_lt (by omega)
    obtain ⟨rounds, hsucc⟩ : ∃ rounds, 2 ^ 64 - cfg.readerOrderedFirst.length + n.toNat = rounds + 1 :=
      ⟨2 ^ 64 - cfg.readerOrderedFirst.length + n.toNat - 1, by omega⟩
    rw [hrounds, hsucc, reorderLoop_fault (by omega) hlen rounds 0 (by omega)]
    refine iff_of_false ?_ hle
    rintro ⟨buf', h⟩
    cases h

/-- Without virtual readers the buffer stays as it was filled. -/
theorem listedBuffer_of_none (w : CharWidth χ) (hv : cfg.listVirtualReaders = []) :
    listedBuffer w names cfg k =
      terminatedNames w names ++ List.replicate (k - (terminatedNames w names).length) w.nul := by
  simp [listedBuffer, hv, serialized, requiredLength]

variable [DecidableEq χ]

/-- The list ends in two zeroes, so that the names can be read back. -/
theorem parse_listedBuffer (w : CharWidth χ) (names : List (List χ)) (cfg : ListConfig χ) {size : ℕ}
    (hsize : size < 2 ^ 32) (hfit : realLength w names + requiredLength cfg.listVirtualReaders + 2 ≤ k) :
    ∃ readersList, stringParseSeparatedArray w.nul (listedBuffer w names cfg k) size = .ok readersList := by
  have hreal := length_terminatedNames_le w names
  obtain ⟨j, hj⟩ : ∃ j, k - (terminatedNames w names).length - requiredLength cfg.listVirtualReaders =
    j + 2 :=
    ⟨k - (terminatedNames w names).length - requiredLength cfg.listVirtualReaders - 2, by omega⟩
  rw [listedBuffer, hj]
  exact stringParseSeparatedArray_ok_of_double w.nul hsize _ (List.replicate j w.nul)

/-- The answer to a call without a buffer. -/
theorem listSupplied_none (h : Reports f.width original names)
    (hsome : ¬ (names = [] ∧ cfg.listVirtualReaders = [])) (m : UInt32) :
    listSupplied f cfg original none m = .ok ⟨scardSSuccess, UInt32.ofNat (realLength f.width names +
      requiredLength cfg.listVirtualReaders + f.reportedExtra), none, none, []⟩ := by
  simp only [listSupplied, suppressError_query h hsome, toNat_realLength h, ne_eq, not_true_eq_false,
    if_false, serializedSize]

/-- A buffer without room for two more characters is refused. -/
theorem listSupplied_refused (buf : List χ) (h : Reports f.width original names)
    (hsome : ¬ (names = [] ∧ cfg.listVirtualReaders = []))
    (hn : n.toNat < realLength f.width names + requiredLength cfg.listVirtualReaders + 2) :
    ∃ r, listSupplied f cfg original (some buf) n = .ok r ∧ r.status = scardEInsufficientBuffer := by
  refine ⟨⟨scardEInsufficientBuffer, UInt32.ofNat (realLength f.width names +
    requiredLength cfg.listVirtualReaders + f.reportedExtra), some buf, none, []⟩, ?_, rfl⟩
  simp only [listSupplied, suppressError_query h hsome, toNat_realLength h, ne_eq, not_true_eq_false,
    if_false, serializedSize]
  rw [if_pos hn]

/-- The virtual readers are spliced in over the final zero of the real ones. In
front of them stand the real names, behind them only zeroes. -/
theorem appendVirtual_ok (hsome : ¬ (names = [] ∧ cfg.listVirtualReaders = []))
    (hfit : realLength f.width names + requiredLength cfg.listVirtualReaders + 2 ≤ k) (hlt : k < 2 ^ 32) :
    ∃ readersList, appendVirtual f cfg (UInt32.ofNat (realLength f.width names))
        (terminatedNames f.width names ++
          List.replicate (k - (terminatedNames f.width names).length) f.width.nul) =
      .ok ⟨scardSSuccess, UInt32.ofNat (finalLength f.width names cfg),
        some (listedBuffer f.width names cfg k), none, readersList⟩ := by
  have hreal := length_terminatedNames_le f.width names
  have hfinal := length_wholeList f.width hsome
  obtain ⟨readersList, hparse⟩ := parse_listedBuffer f.width names cfg
    (f.parsedLength (UInt32.ofNat (finalLength f.width names cfg))).toNat_lt hfit
  refine ⟨readersList, ?_⟩
  by_cases hv : cfg.listVirtualReaders = []
  · have hsame : finalLength f.width names cfg = realLength f.width names := if_pos hv
    rw [appendVirtual, if_neg (by simp [hv]), ← hsame, ← listedBuffer_of_none f.width hv]
    exact Fault.bind_ok hparse
  · rw [appendVirtual, if_pos (List.length_pos_of_ne_nil hv)]
    refine (Fault.bind_ok (serialize_behind f.width hfit (by omega))).trans ?_
    dsimp only
    rw [totalLength_realLength f.width names cfg (by omega), ← hfinal]
    exact (Fault.bind_ok (terminate_listedBuffer f.width hsome hfit (by omega))).trans (Fault.bind_ok hparse)

/-- The supplied buffer receives both lists. -/
theorem listSupplied_ok (h : Reports f.width original names)
    (hsome : ¬ (names = [] ∧ cfg.listVirtualReaders = []))
    (hroom : realLength f.width names + requiredLength cfg.listVirtualReaders + 2 ≤ n.toNat)
    (hlen : buf.length = n.toNat) (hreserved : f.reserved.toNat ≤ 1) :
    ∃ readersList, listSupplied f cfg original (some buf) n =
      .ok ⟨scardSSuccess, UInt32.ofNat (finalLength f.width names cfg),
        some (listedBuffer f.width names cfg n.toNat), none, readersList⟩ := by
  have hlt : n.toNat < 2 ^ 32 := n.toNat_lt
  have hcapacity : (n - f.reserved).toNat = n.toNat - f.reserved.toNat :=
    UInt32.toNat_sub_of_le _ _ (by rw [UInt32.le_iff_toNat_le]; omega)
  have hcleared : Buffer.write Fault.outOfBounds buf 0 (List.replicate n.toNat f.width.nul) =
      .ok (List.replicate n.toNat f.width.nul) := by
    rw [Buffer.write_ok (by rw [List.length_replicate]; omega)]
    simp [Buffer.overwrite, hlen]
  obtain ⟨hanswer, hfilled⟩ := fill_cleared h hsome (n := n - f.reserved) (k := n.toNat) (by omega) (by omega)
  obtain ⟨readersList, happend⟩ := appendVirtual_ok (f := f) hsome hroom hlt
  refine ⟨readersList, ?_⟩
  rw [← happend]
  simp only [listSupplied, suppressError_query h hsome, toNat_realLength h, ne_eq, not_true_eq_false,
    if_false, serializedSize]
  rw [if_neg (by omega), Fault.bind_ok hcleared, hanswer, hfilled, if_neg (fun hne => hne rfl)]

variable {call : Option (List χ) → UInt32 → Except Fault (ListResult χ)}

/-- A function whose supplied branch is the common one. -/
def Supplies (f : Flavour χ) (cfg : ListConfig χ) (original : OriginalListReaders χ)
    (call : Option (List χ) → UInt32 → Except Fault (ListResult χ)) : Prop :=
  ∀ mszReaders n, n ≠ scardAutoallocate →
    call mszReaders n = listSupplied f cfg original mszReaders n >>= reorderResult f cfg

/-- The narrow function is the scheme of both. -/
theorem scardListReaders_supplies (cfg : ListConfig UInt8) (original : OriginalListReaders UInt8) :
    Supplies narrowFlavour cfg original (scardListReaders cfg original) := by
  intro mszReaders n hn
  rw [scardListReaders, if_neg hn]

/-- So is the wide one. -/
theorem scardListReadersW_supplies (cfg : ListConfig UInt16) (original : OriginalListReaders UInt16) :
    Supplies wideFlavour cfg original (scardListReadersW cfg original) := by
  intro mszReaders n hn
  rw [scardListReadersW, if_neg hn]

/-- With no reader at all the first call already fails. -/
theorem twoCalls_nothing (hcall : Supplies f cfg original call) (h : Reports f.width original names)
    (hnone : names = [] ∧ cfg.listVirtualReaders = []) : TwoCalls call := by
  intro m r hm hfirst hstatus
  have hquery := suppressError_query_none h hnone m
  have hne : ¬ scardENoReadersAvailable = scardSSuccess := by decide
  rw [hcall none m hm] at hfirst
  simp only [listSupplied, hquery, ne_eq, hne, not_false_eq_true, if_true] at hfirst
  cases hfirst
  exact absurd hstatus hne

/-- Otherwise everything depends on the second call. -/
theorem twoCalls_iff_second (hcall : Supplies f cfg original call) (h : Reports f.width original names)
    (hsome : ¬ (names = [] ∧ cfg.listVirtualReaders = []))
    (hn : n = UInt32.ofNat (realLength f.width names + requiredLength cfg.listVirtualReaders +
      f.reportedExtra)) :
    TwoCalls call ↔ n = scardAutoallocate ∨ ∀ buf : List χ, buf.length = n.toNat →
      ∃ r', listSupplied f cfg original (some buf) n >>= reorderResult f cfg = .ok r' ∧
        r'.status = scardSSuccess ∧ r'.pcchReaders ≤ n := by
  have hfirst : ∀ m, m ≠ scardAutoallocate → call none m = .ok ⟨scardSSuccess, n, none, none, []⟩ := by
    intro m hm
    rw [hcall none m hm, listSupplied_none h hsome m, ← hn]
    rfl
  constructor
  · intro htwo
    by_cases hauto : n = scardAutoallocate
    · exact Or.inl hauto
    refine Or.inr fun buf hbuf => ?_
    rw [← hcall (some buf) n hauto]
    exact htwo 0 _ (by decide) (hfirst 0 (by decide)) rfl hauto buf hbuf
  · rintro hsecond m r hm hr hstatus hauto buf hbuf
    rw [hfirst m hm] at hr
    cases hr
    rw [hcall (some buf) n hauto]
    exact (hsecond.resolve_left hauto) buf hbuf

/-- A second call that is refused breaks the idiom. -/
theorem not_second_of_refused (cfg : ListConfig χ) (h : Reports f.width original names)
    (hsome : ¬ (names = [] ∧ cfg.listVirtualReaders = []))
    (hlt : n.toNat < realLength f.width names + requiredLength cfg.listVirtualReaders + 2) :
    ¬ ∀ buf : List χ, buf.length = n.toNat →
      ∃ r', listSupplied f cfg original (some buf) n >>= reorderResult f cfg = .ok r' ∧
        r'.status = scardSSuccess ∧ r'.pcchReaders ≤ n := by
  intro hsecond
  obtain ⟨r', hr', hstatus, -⟩ := hsecond (List.replicate n.toNat f.width.nul) List.length_replicate
  obtain ⟨r, hr, hrefused⟩ := listSupplied_refused (List.replicate n.toNat f.width.nul) h hsome hlt
  have hbad : scardEInsufficientBuffer ≠ statOk := by decide
  rw [Fault.bind_ok hr] at hr'
  unfold reorderResult at hr'
  cases hmem : r.mszReaders with
  | none =>
    rw [hmem] at hr'
    cases hr'
    exact absurd (hrefused.symm.trans hstatus) (by decide)
  | some cell =>
    rw [hmem] at hr'
    dsimp only at hr'
    rw [if_neg (by rw [hrefused]; exact hbad)] at hr'
    cases hr'
    exact absurd (hrefused.symm.trans hstatus) (by decide)

/-- A second call with enough room succeeds unless the reordering runs away. -/
theorem second_iff_of_room (h : Reports f.width original names)
    (hsome : ¬ (names = [] ∧ cfg.listVirtualReaders = []))
    (hroom : realLength f.width names + requiredLength cfg.listVirtualReaders + 2 ≤ n.toNat)
    (hreserved : f.reserved.toNat ≤ 1) :
    (∀ buf : List χ, buf.length = n.toNat →
      ∃ r', listSupplied f cfg original (some buf) n >>= reorderResult f cfg = .ok r' ∧
        r'.status = scardSSuccess ∧ r'.pcchReaders ≤ n) ↔
      cfg.readerOrderedFirst = [] ∨ cfg.readerOrderedFirst.length ≤ finalLength f.width names cfg := by
  have hlt : n.toNat < 2 ^ 32 := n.toNat_lt
  have hle : finalLength f.width names cfg ≤ n.toNat := by
    unfold finalLength
    split_ifs <;> omega
  have hfinal : (UInt32.ofNat (finalLength f.width names cfg)).toNat = finalLength f.width names cfg :=
    UInt32.toNat_ofNat_of_lt' (by simp [UInt32.size]; omega)
  have hone (buf : List χ) (hbuf : buf.length = n.toNat) :
      (∃ r', listSupplied f cfg original (some buf) n >>= reorderResult f cfg = .ok r' ∧
        r'.status = scardSSuccess ∧ r'.pcchReaders ≤ n) ↔
      cfg.readerOrderedFirst = [] ∨ cfg.readerOrderedFirst.length ≤ finalLength f.width names cfg := by
    obtain ⟨readersList, hlist⟩ := listSupplied_ok h hsome hroom hbuf hreserved
    let listed := listedBuffer f.width names cfg n.toNat
    have hlen : listed.length = n.toNat := length_listedBuffer f.width hroom
    rw [← hfinal, ← reorder_ok_iff listed (f := f) (by omega) (by omega), Fault.bind_ok hlist,
      reorderResult_some]
    constructor
    · rintro ⟨r', hr', -⟩
      cases hmoved : reorder f cfg listed (UInt32.ofNat (finalLength f.width names cfg)) with
      | ok moved => exact ⟨moved, rfl⟩
      | error e =>
        rw [Fault.bind_error hmoved] at hr'
        cases hr'
    · rintro ⟨moved, hmoved⟩
      rw [Fault.bind_ok hmoved]
      refine ⟨_, rfl, rfl, ?_⟩
      rw [UInt32.le_iff_toNat_le, hfinal]
      exact hle
  constructor
  · intro hall
    exact (hone (List.replicate n.toNat f.width.nul) List.length_replicate).mp
      (hall _ List.length_replicate)
  · intro hfirst buf hbuf
    exact (hone buf hbuf).mpr hfirst

/-- The narrow function never accepts the length it reported. -/
theorem twoCalls_narrow_iff {cfg : ListConfig UInt8} {original : OriginalListReaders UInt8}
    {names : List (List UInt8)} (h : Reports narrow original names) :
    TwoCalls (scardListReaders cfg original) ↔
      names = [] ∧ cfg.listVirtualReaders = [] ∨
      (realLength narrow names + requiredLength cfg.listVirtualReaders) % 2 ^ 32 = 2 ^ 32 - 1 := by
  by_cases hsome : names = [] ∧ cfg.listVirtualReaders = []
  · exact iff_of_true (twoCalls_nothing (scardListReaders_supplies cfg original) h hsome) (Or.inl hsome)
  simp only [hsome, false_or]
  let n := UInt32.ofNat (realLength narrow names + requiredLength cfg.listVirtualReaders)
  have hn : n.toNat = (realLength narrow names + requiredLength cfg.listVirtualReaders) % 2 ^ 32 :=
    UInt32.toNat_ofNat'
  rw [twoCalls_iff_second (scardListReaders_supplies cfg original) h hsome (n := n) rfl,
    or_iff_left (not_second_of_refused _ h hsome (by
      rw [hn]
      exact Nat.lt_of_le_of_lt (Nat.mod_le _ _) (Nat.lt_add_of_pos_right Nat.two_pos))),
    ← UInt32.toNat_inj, hn]
  rfl

/-- The wide function accepts it unless the length wraps around or the
preferred reader's name is longer than the whole list. -/
theorem twoCalls_wide_iff {cfg : ListConfig UInt16} {original : OriginalListReaders UInt16}
    {names : List (List UInt16)} (h : Reports wide original names) :
    TwoCalls (scardListReadersW cfg original) ↔
      names = [] ∧ cfg.listVirtualReaders = [] ∨
      (realLength wide names + requiredLength cfg.listVirtualReaders + 2) % 2 ^ 32 = 2 ^ 32 - 1 ∨
      realLength wide names + requiredLength cfg.listVirtualReaders + 2 < 2 ^ 32 ∧
        (cfg.readerOrderedFirst = [] ∨
          cfg.readerOrderedFirst.length ≤ finalLength wide names cfg) := by
  by_cases hsome : names = [] ∧ cfg.listVirtualReaders = []
  · exact iff_of_true (twoCalls_nothing (scardListReadersW_supplies cfg original) h hsome) (Or.inl hsome)
  simp only [hsome, false_or]
  let n := UInt32.ofNat (realLength wide names + requiredLength cfg.listVirtualReaders + 2)
  have hn : n.toNat = (realLength wide names + requiredLength cfg.listVirtualReaders + 2) % 2 ^ 32 :=
    UInt32.toNat_ofNat'
  have hauto : n = scardAutoallocate ↔
      (realLength wide names + requiredLength cfg.listVirtualReaders + 2) % 2 ^ 32 = 2 ^ 32 - 1 := by
    rw [← UInt32.toNat_inj, hn]
    rfl
  rw [twoCalls_iff_second (scardListReadersW_supplies cfg original) h hsome (n := n) rfl]
  refine or_congr hauto ?_
  by_cases hfit : realLength wide names + requiredLength cfg.listVirtualReaders + 2 < 2 ^ 32
  · rw [Nat.mod_eq_of_lt hfit] at hn
    have hsecond := second_iff_of_room (f := wideFlavour) (n := n) h hsome (Nat.le_of_eq hn.symm)
      (by decide)
    rw [and_iff_right hfit]
    exact hsecond
  · have hbig := Nat.mod_lt (realLength wide names + requiredLength cfg.listVirtualReaders + 2)
      (show 0 < 2 ^ 32 by decide)
    have hrefused := not_second_of_refused cfg (f := wideFlavour) (n := n) h hsome
      (by simp only [wideFlavour]; omega)
    exact iff_of_false hrefused fun hfits => hfit hfits.1

/-- When asking for the size first works, for both functions. -/
theorem twoCalls_iff {cfg : ListConfig UInt8} {original : OriginalListReaders UInt8}
    {names : List (List UInt8)} (h : Reports narrow original names)
    {cfgW : ListConfig UInt16} {originalW : OriginalListReaders UInt16}
    {namesW : List (List UInt16)} (hW : Reports wide originalW namesW) :
    (TwoCalls (scardListReaders cfg original) ↔
      names = [] ∧ cfg.listVirtualReaders = [] ∨
      (realLength narrow names + requiredLength cfg.listVirtualReaders) % 2 ^ 32 = 2 ^ 32 - 1) ∧
    (TwoCalls (scardListReadersW cfgW originalW) ↔
      namesW = [] ∧ cfgW.listVirtualReaders = [] ∨
      (realLength wide namesW + requiredLength cfgW.listVirtualReaders + 2) % 2 ^ 32 = 2 ^ 32 - 1 ∨
      realLength wide namesW + requiredLength cfgW.listVirtualReaders + 2 < 2 ^ 32 ∧
        (cfgW.readerOrderedFirst = [] ∨
          cfgW.readerOrderedFirst.length ≤ finalLength wide namesW cfgW)) :=
  ⟨twoCalls_narrow_iff h, twoCalls_wide_iff hW⟩

/-- An original library with these readers. -/
def installed (w : CharWidth χ) (names : List (List χ)) : OriginalListReaders χ where
  query n :=
    if names = [] then (scardENoReadersAvailable, n)
    else (scardSSuccess, UInt32.ofNat (multiString w names).length)
  fill n buf :=
    if names = [] then (scardENoReadersAvailable, n, buf)
    else if n.toNat < (multiString w names).length then
      (scardEInsufficientBuffer, UInt32.ofNat (multiString w names).length, buf)
    else (scardSSuccess, UInt32.ofNat (multiString w names).length,
      Buffer.overwrite buf 0 (multiString w names))

omit [DecidableEq χ] in
/-- Installed readers are reported. -/
theorem reports_installed (w : CharWidth χ) (names : List (List χ))
    (hlt : (multiString w names).length < 2 ^ 32) : Reports w (installed w names) names where
  length_lt := hlt
  query := fun hn n => if_neg hn
  fill := fun hn n buf hle _ => by
    simp only [installed]
    rw [if_neg hn, if_neg (Nat.not_lt.mpr hle)]
  refuse := fun hn n buf hlt' => by
    simp only [installed]
    rw [if_neg hn, if_pos hlt']
  none := fun hn => ⟨fun n => if_pos hn, fun n buf => if_pos hn⟩

/-- One virtual reader and nothing to be reordered; a pointer lies in memory like this. -/
def oneVirtualReader (address : List χ) : ListConfig χ where
  listVirtualReaders := [ascii "R1"]
  readerOrderedFirst := []
  length_lt := by decide
  behind := fun _ => 0
  address := address

/-- The bytes of a pointer. -/
def pointerBytes : List UInt8 := [0x10, 0x20, 0x30, 0x40, 0, 0, 0, 0]

/-- Its wide characters. -/
def pointerChars : List UInt16 := [0x2010, 0x4030, 0, 0]

theorem twoCalls_oneVirtualReader :
    ¬ TwoCalls (scardListReaders (oneVirtualReader pointerBytes) (installed narrow [])) ∧
      TwoCalls (scardListReadersW (oneVirtualReader pointerChars) (installed wide [])) := by
  have h : (TwoCalls (scardListReaders (oneVirtualReader pointerBytes) (installed narrow [])) ↔ _) ∧
      (TwoCalls (scardListReadersW (oneVirtualReader pointerChars) (installed wide [])) ↔ _) :=
    twoCalls_iff (reports_installed narrow [] (by decide)) (reports_installed wide [] (by decide))
  refine ⟨fun htwo => ?_, h.2.mpr (Or.inr (Or.inr ⟨by decide, Or.inl rfl⟩))⟩
  exact absurd (h.1.mp htwo) (by decide)

/-- The narrow function answers 3, and refuses a buffer of 3. -/
theorem not_twoCalls_oneVirtualReader :
    ∃ original : OriginalListReaders UInt8, Reports narrow original [] ∧
      ¬ TwoCalls (scardListReaders (oneVirtualReader pointerBytes) original) := by
  refine ⟨installed narrow [], reports_installed narrow [] (by decide), fun htwo => ?_⟩
  have hsecond := htwo 0 ⟨scardSSuccess, 3, none, none, []⟩ (by decide) rfl rfl (by decide) [7, 7, 7] rfl
  have hrefused : scardListReaders (oneVirtualReader pointerBytes) (installed narrow []) (some [7, 7, 7]) 3 =
      .ok ⟨scardEInsufficientBuffer, 3, some [7, 7, 7], none, []⟩ := rfl
  obtain ⟨r', hr', hstatus, -⟩ := hsecond
  rw [hrefused] at hr'
  cases hr'
  exact absurd hstatus (by decide)

end ApduPlay.ReaderListSizes
