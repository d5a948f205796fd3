import ApduPlay.CardSession
import ApduPlay.RuleFile
import ApduPlay.SeparatedArray

/-!
# Status of several readers

`SCardGetStatusChange` takes an array of reader states, and decides from the
name in its first entry whether the array is for the original library. What the
original library answers is an argument.
-/

namespace ApduPlay.StatusChange

open CardSession RuleFile SeparatedArray TextNumbers

variable {χ : Type} {w : CharWidth χ}

/-- `SCARD_F_INTERNAL_ERROR` -/
def scardFInternalError : Status := 0x80100001

/-- Size of `rgbAtr`. -/
def atrCapacity : ℕ := 0x24

/-- Event state of a virtual reader. -/
def virtualEventState : UInt32 := 0x00010422

/-- `SCARD_READERSTATE` -/
structure ReaderState (w : CharWidth χ) where
  /-- Name of the reader. -/
  szReader : List χ
  /-- The name ends at its first zero. -/
  nul_notMem : w.nul ∉ szReader
  /-- Not used by the library. -/
  pvUserData : UInt64
  /-- State as the application knows it. -/
  dwCurrentState : UInt32
  /-- State as it is reported. -/
  dwEventState : UInt32
  /-- Bytes in the answer to reset. -/
  cbAtr : UInt32
  /-- The answer to reset. -/
  rgbAtr : List UInt8
  /-- The array has a fixed size. -/
  rgbAtr_length : rgbAtr.length = atrCapacity

/-- What a call returns, and the arrays it passed to the original library. -/
structure Outcome (w : CharWidth χ) where
  /-- Returned status. -/
  status : Status
  /-- The array afterwards. -/
  rgReaderStates : List (ReaderState w)
  /-- Arrays that the original library was called with. -/
  passed : List (List (ReaderState w))

/-- `BYTE_ConvertFromHexStringToArray` into the answer to reset of an entry. -/
def ReaderState.byteConvertFromHexStringToArray (e : ReaderState w) (atr : Text) : ReaderState w :=
  let bytes := byteConvertFromHexString atr
  let stored := { e with cbAtr := UInt32.ofNat bytes.length }
  if h : bytes.length ≤ atrCapacity then
    { stored with
      rgbAtr := Buffer.overwrite e.rgbAtr 0 bytes
      rgbAtr_length := by
        have hlen := e.rgbAtr_length
        rw [Buffer.length_overwrite (by omega), hlen] }
  else stored

/-- Set the state of a virtual reader and its answer to reset. -/
def ReaderState.setVirtual (e : ReaderState w) (s : Session) (readerName : Text) : ReaderState w :=
  let state := { e with dwEventState := virtualEventState }
  match s.remoteCardsATRMap readerName with
  | some atr => state.byteConvertFromHexStringToArray atr
  | none => { state with cbAtr := 0 }

/-- What both functions do with the name of the first reader. -/
def statusChange (s : Session) (original : List (ReaderState w) → Status × List (ReaderState w))
    (readerName : Text) (first : ReaderState w) (rest : List (ReaderState w)) : Outcome w :=
  if s.isRemoteReader readerName then ⟨scardSSuccess, first.setVirtual s readerName :: rest, []⟩
  else
    let answer := original (first :: rest)
    ⟨answer.1, answer.2, [first :: rest]⟩

/-- `SCardGetStatusChangeA` -/
def scardGetStatusChangeA (s : Session)
    (original : CardContext → UInt32 → List (ReaderState narrow) → Status × List (ReaderState narrow))
    (hContext : CardContext) (dwTimeout : UInt32) :
    List (ReaderState narrow) → Except Fault (Outcome narrow)
  | [] => .error .outOfBounds
  | first :: rest => .ok (statusChange s (original hContext dwTimeout) first.szReader first rest)

/-- The characters that are copied. Their number is an `int`. -/
def narrowBytes (szReader : List UInt16) : Text :=
  (szReader.take (wrapInt szReader.length).toNat).map UInt16.toUInt8

/-- The narrow name of a reader, up to the first zero. -/
def narrowName (szReader : List UInt16) : Text := (narrowBytes szReader).takeWhile (· ≠ 0)

/-- The first name in the array `readerNameA`, if it is not too long. A name that
fills the array ends in it only if a character becomes zero. -/
def readerNameA (szReader : List UInt16) : Except Fault (Option Text) :=
  if wrapInt szReader.length < 0 ∨ 1000 < wrapInt szReader.length then .ok none
  else if wrapInt szReader.length = 1000 ∧ 0 ∉ narrowBytes szReader then .error .outOfBounds
  else .ok (some (narrowName szReader))

/-- `SCardGetStatusChangeW` -/
def scardGetStatusChangeW (s : Session)
    (original : CardContext → UInt32 → List (ReaderState wide) → Status × List (ReaderState wide))
    (hContext : CardContext) (dwTimeout : UInt32) :
    List (ReaderState wide) → Except Fault (Outcome wide)
  | [] => .error .outOfBounds
  | first :: rest => do
    let found ← readerNameA first.szReader
    match found with
    | none => return ⟨scardFInternalError, first :: rest, []⟩
    | some readerName => return statusChange s (original hContext dwTimeout) readerName first rest

/-- The bytes of the answer to reset that is stored for a reader. -/
def storedATR (s : Session) (readerName : Text) : List UInt8 :=
  match s.remoteCardsATRMap readerName with
  | some atr => byteConvertFromHexString atr
  | none => []

/-- The entry has the name of a reader, in its own characters. -/
def Names (e : ReaderState w) (readerName : Text) : Prop := e.szReader = readerName.map w.widen

/-- The entry has the name of a remote reader. -/
def NamesRemote (s : Session) (e : ReaderState w) : Prop := ∃ r ∈ s.listVirtualReaders, Names e r

/-- The entry has an answer to reset. -/
def HasATR (e : ReaderState w) (atr : List UInt8) : Prop :=
  e.cbAtr.toNat = atr.length ∧ e.rgbAtr.take atr.length = atr

/-- The entry shows a remote reader. -/
def ShowsRemote (s : Session) (e : ReaderState w) (readerName : Text) : Prop :=
  e.dwEventState = virtualEventState ∧ HasATR e (storedATR s readerName)

/-- Every entry is served. -/
structure Serves (s : Session) (original : List (ReaderState w) → Status × List (ReaderState w))
    (rgReaderStates : List (ReaderState w)) (o : Outcome w) : Prop where
  /-- Remote readers get the virtual state and their stored answers to reset. -/
  remote : ∀ (i : ℕ) e r, rgReaderStates[i]? = some e → r ∈ s.listVirtualReaders → Names e r →
    ∃ e', o.rgReaderStates[i]? = some e' ∧ ShowsRemote s e' r
  /-- Local readers get what the original library reports for them. -/
  reported : ∀ (i : ℕ) e, rgReaderStates[i]? = some e → ¬ NamesRemote s e →
    ∃ asked ∈ o.passed, ∃ j : ℕ, asked[j]? = some e ∧ o.rgReaderStates[i]? = (original asked).2[j]?
  /-- The original library sees no remote reader. -/
  kept : ∀ asked ∈ o.passed, ∀ e ∈ asked, ¬ NamesRemote s e

/-- The entry shows its remote reader already. -/
def ShowsAlready (s : Session) (e : ReaderState w) : Prop :=
  NamesRemote s e ∧ ∀ r ∈ s.listVirtualReaders, Names e r → ShowsRemote s e r

/-- Storing bytes in an entry gives it an answer to reset. Too many bytes are not
stored, but counted. -/
def StoresATR (e : ReaderState w) (bytes atr : List UInt8) : Prop :=
  if bytes.length ≤ atrCapacity then bytes = atr
  else bytes.length % 2 ^ 32 = atr.length ∧ e.rgbAtr.take atr.length = atr

/-- An array is served by what the name read from its first entry decides. -/
def ServedBy (s : Session) (readerName : Text) (first : ReaderState w) (rest : List (ReaderState w)) : Prop :=
  if readerName ∈ s.listVirtualReaders then
    (∃ r ∈ s.listVirtualReaders, Names first r ∧
      StoresATR first (storedATR s readerName) (storedATR s r)) ∧ ∀ e ∈ rest, ShowsAlready s e
  else ∀ e ∈ first :: rest, ¬ NamesRemote s e

variable {s : Session} {original : List (ReaderState w) → Status × List (ReaderState w)}
  {first e : ReaderState w} {rest : List (ReaderState w)} {readerName r : Text} {atr : List UInt8}

theorem isRemoteReader_iff : s.isRemoteReader readerName = true ↔ readerName ∈ s.listVirtualReaders := by
  rw [Session.isRemoteReader, List.contains_iff_mem]

theorem dwEventState_setVirtual (e : ReaderState w) (s : Session) (readerName : Text) :
    (e.setVirtual s readerName).dwEventState = virtualEventState := by
  unfold ReaderState.setVirtual
  cases s.remoteCardsATRMap readerName with
  | none => rfl
  | some text =>
    dsimp only [ReaderState.byteConvertFromHexStringToArray]
    split_ifs <;> rfl

/-- Decoded bytes that fit are the answer to reset. -/
theorem hasATR_byteConvert_iff {text : Text} :
    HasATR (e.byteConvertFromHexStringToArray text) atr ↔
      StoresATR e (byteConvertFromHexString text) atr := by
  have hlen : e.rgbAtr.length = 36 := e.rgbAtr_length
  unfold HasATR StoresATR ReaderState.byteConvertFromHexStringToArray
  dsimp only
  split_ifs with hfits
  · have hcount : (byteConvertFromHexString text).length < 2 ^ 32 := Nat.lt_of_le_of_lt hfits (by decide)
    dsimp only
    rw [UInt32.toNat_ofNat_of_lt' hcount, Buffer.overwrite, List.take_zero, List.nil_append]
    constructor
    · rintro ⟨hlength, htake⟩
      rwa [List.take_left' hlength] at htake
    · rintro rfl
      exact ⟨rfl, List.take_left' rfl⟩
  · rw [UInt32.toNat_ofNat']

theorem hasATR_setVirtual_iff :
    HasATR (e.setVirtual s readerName) atr ↔ StoresATR e (storedATR s readerName) atr := by
  unfold ReaderState.setVirtual storedATR
  cases s.remoteCardsATRMap readerName with
  | some text => exact hasATR_byteConvert_iff
  | none =>
    have hroom : ([] : List UInt8).length ≤ atrCapacity := Nat.zero_le _
    dsimp only [HasATR, StoresATR]
    rw [if_pos hroom]
    constructor
    · rintro ⟨hlength, -⟩
      exact (List.length_eq_zero_iff.mp hlength.symm).symm
    · rintro rfl
      exact ⟨rfl, rfl⟩

/-- An entry has the name of at most one reader. -/
theorem Names.unique (hinj : Function.Injective w.widen) (hr : Names e r) (hname : Names e readerName) :
    r = readerName :=
  List.map_injective_iff.mpr hinj (hr.symm.trans hname)

/-- If the original library was not called, all readers are remote. -/
theorem Serves.namesRemote {states : List (ReaderState w)} {o : Outcome w}
    (h : Serves s original states o) (hpassed : o.passed = []) (he : e ∈ states) : NamesRemote s e := by
  obtain ⟨i, hi⟩ := List.getElem?_of_mem he
  by_contra hlocal
  obtain ⟨asked, hasked, -⟩ := h.reported i e hi hlocal
  rw [hpassed] at hasked
  exact List.not_mem_nil hasked

/-- An entry that stayed as it was needed nothing. -/
theorem Serves.showsRemote {states : List (ReaderState w)} {o : Outcome w} {i : ℕ}
    (h : Serves s original states o) (he : states[i]? = some e) (hkept : o.rgReaderStates[i]? = some e)
    (hr : r ∈ s.listVirtualReaders) (hname : Names e r) : ShowsRemote s e r := by
  obtain ⟨e', he', hshows⟩ := h.remote i e r he hr hname
  rw [hkept] at he'
  cases he'
  exact hshows

/-- The first name decides for all entries. -/
theorem serves_statusChange_iff (hinj : Function.Injective w.widen) :
    Serves s original (first :: rest) (statusChange s original readerName first rest) ↔
      ServedBy s readerName first rest := by
  unfold statusChange ServedBy
  by_cases hremote : readerName ∈ s.listVirtualReaders
  · rw [if_pos (isRemoteReader_iff.mpr hremote), if_pos hremote]
    constructor
    · intro h
      refine ⟨?_, fun e he => ⟨h.namesRemote rfl (List.mem_cons_of_mem _ he), fun r hr hname => ?_⟩⟩
      · obtain ⟨r, hr, hname⟩ := h.namesRemote rfl List.mem_cons_self
        obtain ⟨e', he', -, hatr⟩ := h.remote 0 first r rfl hr hname
        cases he'
        exact ⟨r, hr, hname, hasATR_setVirtual_iff.mp hatr⟩
      · obtain ⟨i, hi⟩ := List.getElem?_of_mem he
        have hplace : (first :: rest)[i + 1]? = some e := hi
        exact h.showsRemote hplace hi hr hname
    · rintro ⟨⟨r, hr, hname, hatr⟩, hrest⟩
      refine ⟨fun i e r' he hr' hname' => ?_, fun i e he hlocal => ?_, fun asked hasked => ?_⟩
      · cases i with
        | zero =>
          cases he
          obtain rfl := hname.unique hinj hname'
          exact ⟨_, rfl, dwEventState_setVirtual _ _ _, hasATR_setVirtual_iff.mpr hatr⟩
        | succ i => exact ⟨e, he, (hrest e (List.mem_of_getElem? he)).2 r' hr' hname'⟩
      · cases i with
        | zero =>
          cases he
          exact absurd ⟨r, hr, hname⟩ hlocal
        | succ i => exact absurd (hrest e (List.mem_of_getElem? he)).1 hlocal
      · exact absurd hasked List.not_mem_nil
  · rw [if_neg (fun h => hremote (isRemoteReader_iff.mp h)), if_neg hremote]
    constructor
    · exact fun h => h.kept (first :: rest) (List.mem_singleton.mpr rfl)
    · intro hlocal
      refine ⟨fun i e r he hr hname => ?_, fun i e he _ => ?_, fun asked hasked => ?_⟩
      · exact absurd ⟨r, hr, hname⟩ (hlocal e (List.mem_of_getElem? he))
      · exact ⟨first :: rest, List.mem_singleton.mpr rfl, i, he, rfl⟩
      · rw [List.mem_singleton.mp hasked]
        exact hlocal

/-- A call that touches nothing serves entries that need nothing. -/
theorem serves_untouched_iff {states : List (ReaderState w)} {status : Status} :
    Serves s original states ⟨status, states, []⟩ ↔ ∀ e ∈ states, ShowsAlready s e := by
  constructor
  · intro h e he
    obtain ⟨i, hi⟩ := List.getElem?_of_mem he
    exact ⟨h.namesRemote rfl he, fun r hr hname => h.showsRemote hi hi hr hname⟩
  · intro h
    refine ⟨fun i e r he hr hname => ?_, fun i e he hlocal => ?_, fun asked hasked => ?_⟩
    · exact ⟨e, he, (h e (List.mem_of_getElem? he)).2 r hr hname⟩
    · exact absurd (h e (List.mem_of_getElem? he)).1 hlocal
    · exact absurd hasked List.not_mem_nil

theorem toUInt8_widen (b : UInt8) : (wide.widen b).toUInt8 = b := by
  dsimp only [wide]
  split_ifs with hlow
  · exact UInt8.toNat_inj.mp (by simp)
  · exact UInt8.toNat_inj.mp (by simp)

theorem injective_widen : Function.Injective wide.widen :=
  Function.LeftInverse.injective toUInt8_widen

/-- A wide array is served by the narrow name of its first entry, which has to end in
the array for it. -/
def ServedByNarrowName (s : Session) (first : ReaderState wide) (rest : List (ReaderState wide)) : Prop :=
  if wrapInt first.szReader.length < 0 ∨ 1000 < wrapInt first.szReader.length then
    ∀ e ∈ first :: rest, ShowsAlready s e
  else (wrapInt first.szReader.length = 1000 → 0 ∈ narrowBytes first.szReader) ∧
    ServedBy s (narrowName first.szReader) first rest

/-- Read from its wide characters, the name of a reader is the same. -/
theorem narrowBytes_widen (hlen : r.length < 2 ^ 31) : narrowBytes (r.map wide.widen) = r := by
  have hlength : (wrapInt (r.map wide.widen).length).toNat = r.length := by
    rw [List.length_map, wrapInt_natCast (by omega), if_pos hlen, Int.toNat_natCast]
  rw [narrowBytes, hlength, ← List.length_map wide.widen, List.take_length, List.map_map]
  exact List.map_id'' toUInt8_widen r

theorem narrowName_widen (hnul : 0 ∉ r) (hlen : r.length < 2 ^ 31) :
    narrowName (r.map wide.widen) = r := by
  rw [narrowName, narrowBytes_widen hlen]
  exact List.takeWhile_eq_self_iff.mpr fun b hb => decide_eq_true fun hzero => hnul (hzero ▸ hb)

/-- Wide arrays are served exactly as the name of the first entry says. -/
theorem servesW_iff {original : CardContext → UInt32 → List (ReaderState wide) →
    Status × List (ReaderState wide)}
    {hContext : CardContext} {dwTimeout : UInt32} {first : ReaderState wide}
    {rest : List (ReaderState wide)} :
    (∃ o, scardGetStatusChangeW s original hContext dwTimeout (first :: rest) = .ok o ∧
        Serves s (original hContext dwTimeout) (first :: rest) o) ↔ ServedByNarrowName s first rest := by
  unfold scardGetStatusChangeW readerNameA ServedByNarrowName
  dsimp only
  by_cases hlong : wrapInt first.szReader.length < 0 ∨ 1000 < wrapInt first.szReader.length
  · rw [if_pos hlong, if_pos hlong, ← serves_untouched_iff]
    constructor
    · rintro ⟨o, ho, hserves⟩
      cases ho
      exact hserves
    · exact fun hserves => ⟨_, rfl, hserves⟩
  · rw [if_neg hlong, if_neg hlong]
    by_cases hfull : wrapInt first.szReader.length = 1000 ∧ 0 ∉ narrowBytes first.szReader
    · rw [if_pos hfull]
      refine iff_of_false ?_ fun h => hfull.2 (h.1 hfull.1)
      rintro ⟨o, ho, -⟩
      cases ho
    · have hends : wrapInt first.szReader.length = 1000 → 0 ∈ narrowBytes first.szReader := fun h =>
        not_not.mp fun hnone => hfull ⟨h, hnone⟩
      rw [if_neg hfull, and_iff_right hends, ← serves_statusChange_iff injective_widen]
      constructor
      · rintro ⟨o, ho, hserves⟩
        cases ho
        exact hserves
      · exact fun hserves => ⟨_, rfl, hserves⟩

/-- An answer to reset is stored exactly if it fits. -/
theorem storesATR_self_iff : StoresATR e atr atr ↔ atr.length ≤ 36 := by
  have hlen : e.rgbAtr.length = 36 := e.rgbAtr_length
  unfold StoresATR atrCapacity
  split_ifs with hfits
  · exact iff_of_true rfl hfits
  · refine iff_of_false ?_ hfits
    rintro ⟨-, htake⟩
    have hshort : atr.length ≤ 36 := by
      rw [← htake, List.length_take, hlen]
      exact Nat.min_le_right _ _
    exact hfits hshort

/-- A narrow array is served exactly if all readers are local, or the first one is
remote, its answer to reset fits and the others need nothing. -/
theorem servedBy_narrow_iff {first : ReaderState narrow} {rest : List (ReaderState narrow)} :
    ServedBy s first.szReader first rest ↔
      (∀ e ∈ first :: rest, ¬ NamesRemote s e) ∨
        NamesRemote s first ∧ (storedATR s first.szReader).length ≤ 36 ∧ ∀ e ∈ rest, ShowsAlready s e := by
  have hnames (r : Text) : Names first r ↔ r = first.szReader := by
    have hsame : r.map narrow.widen = r := List.map_id r
    rw [Names, hsame, eq_comm]
  have hremote : NamesRemote s first ↔ first.szReader ∈ s.listVirtualReaders := by
    simp only [NamesRemote, hnames, exists_eq_right]
  unfold ServedBy
  rw [hremote]
  split_ifs with hfirst
  · have hstored : (∃ r ∈ s.listVirtualReaders, Names first r ∧
        StoresATR first (storedATR s first.szReader) (storedATR s r)) ↔
          (storedATR s first.szReader).length ≤ 36 := by
      rw [← storesATR_self_iff]
      constructor
      · rintro ⟨r, -, hname, hatr⟩
        rwa [(hnames r).mp hname] at hatr
      · exact fun hatr => ⟨_, hfirst, (hnames _).mpr rfl, hatr⟩
    have hsome : ¬ ∀ e ∈ first :: rest, ¬ NamesRemote s e :=
      fun h => h first List.mem_cons_self (hremote.mpr hfirst)
    rw [hstored, or_iff_right hsome, and_iff_right hfirst]
  · exact (or_iff_left fun h => hfirst h.1).symm

/-- Both functions serve an array exactly if all its readers are local, or if the
first one is remote and all others need nothing. -/
theorem servesArray_iff (s : Session)
    (originalA : CardContext → UInt32 → List (ReaderState narrow) → Status × List (ReaderState narrow))
    (originalW : CardContext → UInt32 → List (ReaderState wide) → Status × List (ReaderState wide))
    (hContext : CardContext) (dwTimeout : UInt32) (firstA : ReaderState narrow)
    (restA : List (ReaderState narrow)) (firstW : ReaderState wide) (restW : List (ReaderState wide)) :
    ((∃ o, scardGetStatusChangeA s originalA hContext dwTimeout (firstA :: restA) = .ok o ∧
        Serves s (originalA hContext dwTimeout) (firstA :: restA) o) ↔
      (∀ e ∈ firstA :: restA, ¬ NamesRemote s e) ∨
        NamesRemote s firstA ∧ (storedATR s firstA.szReader).length ≤ 36 ∧
          ∀ e ∈ restA, ShowsAlready s e) ∧
    ((∃ o, scardGetStatusChangeW s originalW hContext dwTimeout (firstW :: restW) = .ok o ∧
        Serves s (originalW hContext dwTimeout) (firstW :: restW) o) ↔
      ServedByNarrowName s firstW restW) := by
  constructor
  · rw [← servedBy_narrow_iff, ← serves_statusChange_iff Function.injective_id]
    constructor
    · rintro ⟨o, ho, hserves⟩
      cases ho
      exact hserves
    · exact fun hserves => ⟨_, rfl, hserves⟩
  · exact servesW_iff

/-- A library with one remote reader. -/
def oneRemote : Session := Session.initial [ascii "remote"] true

/-- The state of a local reader before a call. -/
def localState : ReaderState narrow :=
  ⟨ascii "local", by decide, 0, 0, 0, 0, List.replicate atrCapacity 0, List.length_replicate⟩

/-- The state of the remote reader before a call. -/
def remoteState : ReaderState narrow :=
  ⟨ascii "remote", by decide, 0, 0, 0, 0, List.replicate atrCapacity 0, List.length_replicate⟩

/-- A remote reader behind a local one is passed on to the original library. -/
theorem not_servesArray_second :
    ¬ ∃ o, scardGetStatusChangeA oneRemote (fun _ _ states => (scardSSuccess, states)) 0 0
        [localState, remoteState] = .ok o ∧
      Serves oneRemote (fun states => (scardSSuccess, states)) [localState, remoteState] o := by
  rintro ⟨o, ho, hserves⟩
  have hlocal : oneRemote.isRemoteReader localState.szReader = false := by decide
  have hpassed : o.passed = [[localState, remoteState]] := by
    cases ho
    rw [statusChange, if_neg (ne_true_of_eq_false hlocal)]
  refine hserves.kept [localState, remoteState] ?_ remoteState (by simp) ?_
  · rw [hpassed]
    exact List.mem_singleton.mpr rfl
  · exact ⟨ascii "remote", by decide, rfl⟩

end ApduPlay.StatusChange
