import ApduPlay.SeparatedArray

/-!
# Listing readers

`SCardListReaders` and `SCardListReadersW` append the names of the virtual
readers to the list of the original library and then move one reader to the
front. The original library is a parameter, given by what it does without and
with a buffer.
-/

namespace ApduPlay.ListReaders

open SeparatedArray

variable {χ : Type}

/-- `SCARD_AUTOALLOCATE` -/
def scardAutoallocate : UInt32 := 0xFFFFFFFF

/-- The original function: status and length without a buffer, and status,
length and buffer for a buffer with a capacity. -/
structure OriginalListReaders (χ : Type) where
  /-- Call with a null buffer and this length variable. -/
  query : UInt32 → Status × UInt32
  /-- Call with this length variable and the memory of the buffer. -/
  fill : UInt32 → List χ → Status × UInt32 × List χ

/-- What a call leaves behind. -/
structure ListResult (χ : Type) where
  /-- Returned status. -/
  status : Status
  /-- The length variable. -/
  pcchReaders : UInt32
  /-- Memory of the caller's buffer. -/
  mszReaders : Option (List χ)
  /-- Buffer allocated for the caller. -/
  allocated : Option (List χ)
  /-- Names found, as they are logged. -/
  readersList : List (List χ)
  deriving DecidableEq, Repr

/-- The configuration and surroundings of a call. -/
structure ListConfig (χ : Type) where
  /-- Names of the virtual readers, after a refresh from the remote proxy. -/
  listVirtualReaders : List Text
  /-- Reader to be moved to the front. -/
  readerOrderedFirst : Text
  /-- The length of a `std::string` is a `size_t`. -/
  length_lt : readerOrderedFirst.length < 2 ^ 64
  /-- Bytes in memory behind the terminating zero of that name. -/
  behind : ℕ → UInt8
  /-- Value of a pointer to an allocated buffer, as it lies in memory. -/
  address : List χ

/-- The places where the narrow and the wide function differ. -/
structure Flavour (χ : Type) where
  /-- Their characters. -/
  width : CharWidth χ
  /-- Added to the length reported for a missing or small buffer. -/
  reportedExtra : ℕ
  /-- Kept back from the capacity passed on to the original library. -/
  reserved : UInt32
  /-- Length that the names are parsed with for the log. -/
  parsedLength : UInt32 → UInt32

/-- `SCardListReaders` -/
def narrowFlavour : Flavour UInt8 := ⟨narrow, 0, 0, fun n => n - 1⟩

/-- `SCardListReadersW` -/
def wideFlavour : Flavour UInt16 := ⟨wide, 2, 1, fun n => n⟩

/-- The status and length that the original library answered. The error about
missing readers is suppressed when virtual readers are set. -/
def suppressError (cfg : ListConfig χ) (answer : Status × UInt32) : Status × UInt32 :=
  if answer.1 = scardENoReadersAvailable ∧ cfg.listVirtualReaders.length > 0 then (scardSSuccess, 0)
  else answer

/-- The length of the whole list: without real readers a second zero is added. -/
def totalLength (realLen : UInt32) (virtReadersLen : ℕ) : UInt32 :=
  if realLen = 0 then UInt32.ofNat (virtReadersLen + 1)
  else UInt32.ofNat (realLen.toNat + virtReadersLen)

/-- The virtual names are written right after the real ones. -/
def virtualOffset (realLen : UInt32) : ℕ := if realLen > 0 then (realLen - 1).toNat else 0

/-- Real readers followed by the virtual ones, in a buffer that is large enough. -/
def appendVirtual [DecidableEq χ] (f : Flavour χ) (cfg : ListConfig χ) (realLen : UInt32)
    (buf : List χ) : Except Fault (ListResult χ) :=
  if cfg.listVirtualReaders.length > 0 then do
    let (_, virtReadersLen, buf) ← stringSerializeAsSeparatedArray f.width f.width.nul
      cfg.listVirtualReaders buf (virtualOffset realLen) (serializedSize cfg.listVirtualReaders)
    let pcchReaders := totalLength realLen virtReadersLen
    let buf ← Buffer.write .outOfBounds buf (pcchReaders - 1).toNat [f.width.nul]
    let readersList ← stringParseSeparatedArray f.width.nul buf (f.parsedLength pcchReaders).toNat
    return ⟨scardSSuccess, pcchReaders, some buf, none, readersList⟩
  else do
    let readersList ← stringParseSeparatedArray f.width.nul buf (f.parsedLength realLen).toNat
    return ⟨scardSSuccess, realLen, some buf, none, readersList⟩

/-- The buffer-supplied branch. -/
def listSupplied [DecidableEq χ] (f : Flavour χ) (cfg : ListConfig χ)
    (original : OriginalListReaders χ) (mszReaders : Option (List χ)) (pcchReaders : UInt32) :
    Except Fault (ListResult χ) :=
  let real := suppressError cfg (original.query pcchReaders)
  let virtReadersLen := serializedSize cfg.listVirtualReaders
  let reported := UInt32.ofNat (real.2.toNat + virtReadersLen + f.reportedExtra)
  if real.1 ≠ scardSSuccess then .ok ⟨real.1, pcchReaders, mszReaders, none, []⟩
  else
    match mszReaders with
    | none => .ok ⟨real.1, reported, none, none, []⟩
    | some buf =>
      if real.2.toNat + virtReadersLen + 2 > pcchReaders.toNat then
        .ok ⟨scardEInsufficientBuffer, reported, some buf, none, []⟩
      else do
        let buf ← Buffer.write .outOfBounds buf 0 (List.replicate pcchReaders.toNat f.width.nul)
        let filled := original.fill (pcchReaders - f.reserved) buf
        let real := suppressError cfg (filled.1, filled.2.1)
        if real.1 ≠ scardSSuccess then .ok ⟨real.1, pcchReaders, some filled.2.2, none, []⟩
        else appendVirtual f cfg real.2 filled.2.2

/-- Store the pointer to an allocated buffer where the caller asked for it. -/
def storePointer (cfg : ListConfig χ) (mszReaders : Option (List χ)) : Except Fault (Option (List χ)) :=
  match mszReaders with
  | none => .error .nullPointer
  | some cell => do return some (← Buffer.write .outOfBounds cell 0 cfg.address)

/-- Terminate the list inside the memory that the caller passed. -/
def terminate (f : Flavour χ) (mszReaders : Option (List χ)) (pcchReaders : UInt32) :
    Except Fault (Option (List χ)) :=
  match mszReaders with
  | none => .error .nullPointer
  | some cell => do return some (← Buffer.write .outOfBounds cell (pcchReaders - 1).toNat [f.width.nul])

/-- The buffer allocated for the real and virtual readers, as the original
library fills it: status, length and characters. -/
def allocateReaders (w : CharWidth χ) (cfg : ListConfig χ) (original : OriginalListReaders χ)
    (realLen : UInt32) : Status × UInt32 × List χ :=
  let newLen := UInt32.ofNat (realLen.toNat + serializedSize cfg.listVirtualReaders + 2)
  let filled := original.fill newLen (List.replicate newLen.toNat w.nul)
  let real := suppressError cfg (filled.1, filled.2.1)
  (real.1, real.2, filled.2.2)

/-- The auto-allocate branch of `SCardListReaders`. The real readers end where
the first call to the original library said. -/
def listAllocating (cfg : ListConfig UInt8) (original : OriginalListReaders UInt8)
    (mszReaders : Option (List UInt8)) : Except Fault (ListResult UInt8) := do
  let realLen := (original.query 0).2
  let real := suppressError cfg (original.query 0)
  if real.1 ≠ scardSSuccess then return ⟨real.1, real.2, mszReaders, none, []⟩
  let (status, pcchReaders, readers) := allocateReaders narrow cfg original real.2
  if status ≠ scardSSuccess then return ⟨status, pcchReaders, mszReaders, none, []⟩
  let (_, virtReadersLen, readers) ← stringSerializeAsSeparatedArray narrow 0 cfg.listVirtualReaders
    readers (virtualOffset realLen) (serializedSize cfg.listVirtualReaders)
  let pcchReaders := totalLength realLen virtReadersLen
  let readers ← Buffer.write .outOfBounds readers (pcchReaders - 1).toNat [0]
  let mszReaders ← storePointer cfg mszReaders
  let readersList ← stringParseSeparatedArray 0 readers (pcchReaders - 1).toNat
  return ⟨status, pcchReaders, mszReaders, some readers, readersList⟩

/-- The auto-allocate branch of `SCardListReadersW`. It terminates the list in
the caller's memory instead of the allocated buffer, and hands that buffer out
also when the second call failed. -/
def listAllocatingW (cfg : ListConfig UInt16) (original : OriginalListReaders UInt16)
    (mszReaders : Option (List UInt16)) : Except Fault (ListResult UInt16) := do
  let realLen := (original.query 0).2
  let real := suppressError cfg (original.query 0)
  if real.1 ≠ scardSSuccess then return ⟨real.1, real.2, mszReaders, none, []⟩
  let (status, pcchReaders, readers) := allocateReaders wide cfg original real.2
  if status ≠ scardSSuccess then
    let mszReaders ← storePointer cfg mszReaders
    let readersList ← stringParseSeparatedArray 0 readers pcchReaders.toNat
    return ⟨status, pcchReaders, mszReaders, some readers, readersList⟩
  let (_, virtReadersLen, readers) ← stringSerializeAsSeparatedArray wide 0 cfg.listVirtualReaders
    readers (virtualOffset realLen) (serializedSize cfg.listVirtualReaders)
  let pcchReaders := totalLength realLen virtReadersLen
  let mszReaders ← terminate wideFlavour mszReaders pcchReaders
  let mszReaders ← storePointer cfg mszReaders
  let readersList ← stringParseSeparatedArray 0 readers pcchReaders.toNat
  return ⟨status, pcchReaders, mszReaders, some readers, readersList⟩

/-- The name to be moved to the front as `memcmp` sees it: its bytes, the
terminating zero, and what lies behind. -/
def nameMemory (cfg : ListConfig χ) (i : ℕ) : UInt8 :=
  ((cfg.readerOrderedFirst ++ [0])[i]?).getD (cfg.behind (i - cfg.readerOrderedFirst.length - 1))

/-- Move the characters at a position to the front, a zero behind them, then
the ones that stood before them. -/
def moveToFront (f : Flavour χ) (cfg : ListConfig χ) (buf : List χ) (pcchReaders i : ℕ) :
    Except Fault (List χ) := do
  let length := cfg.readerOrderedFirst.length
  let readers ← Buffer.read .outOfBounds buf 0 pcchReaders
  let first ← Buffer.read .outOfBounds buf i length
  let readers ← Buffer.write .outOfBounds readers 0 first
  let readers ← Buffer.write .outOfBounds readers length [f.width.nul]
  let before ← Buffer.read .outOfBounds buf 0 i
  let readers ← Buffer.write .outOfBounds readers (length + 1) before
  Buffer.write .outOfBounds buf 0 readers

/-- The loop that looks for the preferred reader, given by the rounds left. -/
def reorderLoop (f : Flavour χ) (cfg : ListConfig χ) (buf : List χ) (pcchReaders : ℕ) :
    ℕ → ℕ → Except Fault (List χ)
  | 0, _ => .ok buf
  | rounds + 1, i => do
    let window ← Buffer.read .outOfBounds buf i cfg.readerOrderedFirst.length
    let bytes := window.flatMap f.width.bytes
    if bytes = (List.range bytes.length).map (nameMemory cfg) then moveToFront f cfg buf pcchReaders i
    else reorderLoop f cfg buf pcchReaders rounds (i + 1)

/-- Reordering of the readers. The bound of the loop is a `size_t` difference,
which wraps around when the name is longer than the list. -/
def reorder (f : Flavour χ) (cfg : ListConfig χ) (buf : List χ) (pcchReaders : UInt32) :
    Except Fault (List χ) :=
  if cfg.readerOrderedFirst = [] then .ok buf
  else reorderLoop f cfg buf pcchReaders.toNat
    (pcchReaders.toUInt64 - UInt64.ofNat cfg.readerOrderedFirst.length).toNat 0

/-- After success the readers in the caller's memory are reordered. -/
def reorderResult (f : Flavour χ) (cfg : ListConfig χ) (r : ListResult χ) : Except Fault (ListResult χ) :=
  match r.mszReaders with
  | none => .ok r
  | some buf =>
    if r.status = statOk then do
      let buf ← reorder f cfg buf r.pcchReaders
      return { r with mszReaders := some buf }
    else .ok r

/-- `SCardListReaders` -/
def scardListReaders (cfg : ListConfig UInt8) (original : OriginalListReaders UInt8)
    (mszReaders : Option (List UInt8)) (pcchReaders : UInt32) : Except Fault (ListResult UInt8) := do
  let r ← if pcchReaders = scardAutoallocate then listAllocating cfg original mszReaders
    else listSupplied narrowFlavour cfg original mszReaders pcchReaders
  reorderResult narrowFlavour cfg r

/-- `SCardListReadersW` -/
def scardListReadersW (cfg : ListConfig UInt16) (original : OriginalListReaders UInt16)
    (mszReaders : Option (List UInt16)) (pcchReaders : UInt32) : Except Fault (ListResult UInt16) := do
  let r ← if pcchReaders = scardAutoallocate then listAllocatingW cfg original mszReaders
    else listSupplied wideFlavour cfg original mszReaders pcchReaders
  reorderResult wideFlavour cfg r

end ApduPlay.ListReaders
