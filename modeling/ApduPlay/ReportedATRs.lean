import ApduPlay.HexStrings
import ApduPlay.RemoteConnections
import ApduPlay.StatusChange

/-!
# The answer to reset that is reported

Whatever the proxy answered to a reset is stored as it came. It is decoded when
an application asks for the status of the reader, into an array of 36 bytes. The
decoder gives the length of the text also if it stores none of it, and the
functions do not look at its status.
-/

namespace ApduPlay.ReportedATRs

open CardSession RemoteConnections RemoteProxy RemoteRequests RuleFile SeparatedArray StatusChange TextNumbers
open TextSearch

variable {χ : Type} {w : CharWidth χ}

/-- A call that succeeds for a remote reader reports the answer to reset that is
stored for it, in at most the bytes there are. -/
def ReportsATR (s : Session) (readerName : Text) (answer : Except Fault (Outcome w)) : Prop :=
  readerName ∈ s.listVirtualReaders → ∀ o, answer = .ok o → o.status = scardSSuccess →
    ∃ e, o.rgReaderStates.head? = some e ∧ e.cbAtr.toNat ≤ atrCapacity ∧
      e.rgbAtr.take e.cbAtr.toNat = storedATR s readerName

/-- The stored answer to reset of a remote reader has at most 36 bytes. -/
def StoredFits (s : Session) (readerName : Text) : Prop :=
  readerName ∈ s.listVirtualReaders → (storedATR s readerName).length ≤ atrCapacity

variable {s : Session} {original : List (ReaderState w) → Status × List (ReaderState w)}
  {first e : ReaderState w} {rest : List (ReaderState w)} {readerName : Text} {atr : List UInt8}

/-- An entry whose length is in bounds has an answer to reset exactly if it is
what the length bounds. -/
theorem hasATR_iff : HasATR e atr ∧ atr.length ≤ atrCapacity ↔
    e.cbAtr.toNat ≤ atrCapacity ∧ e.rgbAtr.take e.cbAtr.toNat = atr := by
  have hlen := e.rgbAtr_length
  constructor
  · rintro ⟨⟨hcount, htake⟩, hfits⟩
    rw [hcount]
    exact ⟨hfits, htake⟩
  · rintro ⟨hcount, rfl⟩
    have hlength : (e.rgbAtr.take e.cbAtr.toNat).length = e.cbAtr.toNat := by
      rw [List.length_take, hlen]
      exact Nat.min_eq_left hcount
    unfold HasATR
    rw [hlength]
    exact ⟨⟨rfl, rfl⟩, hcount⟩

/-- The name that was read from the first entry decides. -/
theorem reportsATR_statusChange_iff :
    ReportsATR s readerName (.ok (statusChange s original readerName first rest)) ↔
      StoredFits s readerName := by
  unfold ReportsATR StoredFits
  refine imp_congr_right fun hremote => ?_
  have hfits : StoresATR first (storedATR s readerName) (storedATR s readerName) ↔
    (storedATR s readerName).length ≤ atrCapacity := storesATR_self_iff
  rw [statusChange, if_pos (isRemoteReader_iff.mpr hremote)]
  constructor
  · intro h
    obtain ⟨e, he, hatr⟩ := h _ rfl rfl
    cases he
    exact (hasATR_iff.mpr hatr).2
  · rintro hlength o ho -
    cases ho
    exact ⟨_, rfl, hasATR_iff.mp ⟨hasATR_setVirtual_iff.mpr (hfits.mpr hlength), hlength⟩⟩

/-- The length of a name as an `int`. -/
theorem wrapInt_names {first : ReaderState wide} (hname : Names first readerName)
    (hlen : readerName.length < 2 ^ 32) :
    wrapInt first.szReader.length =
      if readerName.length < 2 ^ 31 then (readerName.length : ℤ) else readerName.length - 2 ^ 32 := by
  rw [hname, List.length_map, wrapInt_natCast (by omega)]

/-- The name of an entry has no zero character. -/
theorem zero_notMem_of_names {first : ReaderState wide} (hname : Names first readerName) :
    (0 : UInt8) ∉ readerName := by
  intro hzero
  apply first.nul_notMem
  rw [hname]
  exact List.mem_map.mpr ⟨0, hzero, rfl⟩

/-- The wide function reads the names that are short enough. -/
theorem readerNameA_of_names {first : ReaderState wide} (hname : Names first readerName)
    (hlen : readerName.length < 1000) : readerNameA first.szReader = .ok (some readerName) := by
  have hlength := wrapInt_names hname (by omega)
  rw [if_pos (by omega)] at hlength
  have hread := narrowName_widen (zero_notMem_of_names hname) (show readerName.length < 2 ^ 31 by omega)
  rw [← hname] at hread
  unfold readerNameA
  rw [if_neg (by omega), if_neg (by omega), hread]

/-- It does not succeed for the others. -/
theorem status_of_names_long {first : ReaderState wide} {rest : List (ReaderState wide)}
    {original : CardContext → UInt32 → List (ReaderState wide) → Status × List (ReaderState wide)}
    {hContext : CardContext} {dwTimeout : UInt32} (hname : Names first readerName)
    (hlong : 1000 ≤ readerName.length) (hlen : readerName.length < 2 ^ 32) {o : Outcome wide}
    (ho : scardGetStatusChangeW s original hContext dwTimeout (first :: rest) = .ok o) :
    o.status ≠ scardSSuccess := by
  have hlength := wrapInt_names hname hlen
  unfold scardGetStatusChangeW readerNameA at ho
  dsimp only at ho
  split_ifs at ho with hrefused hfull
  · cases ho
    exact show scardFInternalError ≠ scardSSuccess by decide
  · cases ho
  · have hexact : wrapInt first.szReader.length = 1000 ∧ readerName.length < 2 ^ 31 := by
      split_ifs at hlength <;> omega
    have hbytes : narrowBytes first.szReader = readerName := by
      rw [hname, narrowBytes_widen hexact.2]
    exact absurd ⟨hexact.1, hbytes ▸ zero_notMem_of_names hname⟩ hfull

/-- Both functions report the stored answer to reset exactly if it has at most
36 bytes. -/
theorem reportsATR_iff (s : Session)
    (originalA : CardContext → UInt32 → List (ReaderState narrow) → Status × List (ReaderState narrow))
    (originalW : CardContext → UInt32 → List (ReaderState wide) → Status × List (ReaderState wide))
    (hContext : CardContext) (dwTimeout : UInt32) (firstA : ReaderState narrow)
    (restA : List (ReaderState narrow)) (firstW : ReaderState wide) (restW : List (ReaderState wide)) :
    (ReportsATR s firstA.szReader (scardGetStatusChangeA s originalA hContext dwTimeout (firstA :: restA)) ↔
      StoredFits s firstA.szReader) ∧
    (∀ readerName, readerNameA firstW.szReader = .ok (some readerName) →
      (ReportsATR s readerName (scardGetStatusChangeW s originalW hContext dwTimeout (firstW :: restW)) ↔
        StoredFits s readerName)) ∧
    ∀ readerName, Names firstW readerName → readerName.length < 2 ^ 32 →
      (ReportsATR s readerName (scardGetStatusChangeW s originalW hContext dwTimeout (firstW :: restW)) ↔
        (readerName.length < 1000 → StoredFits s readerName)) := by
  have hread : ∀ readerName, readerNameA firstW.szReader = .ok (some readerName) →
      (ReportsATR s readerName (scardGetStatusChangeW s originalW hContext dwTimeout (firstW :: restW)) ↔
        StoredFits s readerName) := by
    intro readerName hread
    rw [scardGetStatusChangeW, Fault.bind_ok hread]
    exact reportsATR_statusChange_iff
  refine ⟨reportsATR_statusChange_iff, hread, fun readerName hname hlen => ?_⟩
  by_cases hshort : readerName.length < 1000
  · rw [hread readerName (readerNameA_of_names hname hshort)]
    exact ⟨fun h _ => h, fun h => h hshort⟩
  · refine iff_of_true (fun _ o ho hsuccess => ?_) fun h => absurd h hshort
    exact absurd hsuccess (status_of_names_long hname (by omega) hlen ho)

/-- The bytes of an entry before its first call. -/
theorem length_cleared : (List.replicate atrCapacity (0 : UInt8)).length = atrCapacity :=
  List.length_replicate

/-- The state of the remote reader before a call. -/
def remoteEntry (w : CharWidth χ) (h : w.nul ∉ (ascii "Remote 1").map w.widen) : ReaderState w :=
  ⟨(ascii "Remote 1").map w.widen, h, 0, 0, 0, 0, List.replicate atrCapacity 0, length_cleared⟩

/-- The state of the remote reader with narrow characters. -/
def entryA : ReaderState narrow := remoteEntry narrow (by decide)

/-- The state of the remote reader with wide characters. -/
def entryW : ReaderState wide := remoteEntry wide (by decide)

/-- A library with a remote reader whose card was reset. -/
def resetSession (atr : Text) : Session :=
  ((Session.initial [ascii "Remote 1"] true).addRemoteCard (ascii "Remote 1") atr).2

theorem reportsATR_reset :
    ReportsATR (resetSession (ascii "3B00")) (ascii "Remote 1")
        (scardGetStatusChangeA (resetSession (ascii "3B00")) (fun _ _ states => (0, states)) 0 0 [entryA]) ∧
      ReportsATR (resetSession (ascii "3B00")) (ascii "Remote 1")
        (scardGetStatusChangeW (resetSession (ascii "3B00")) (fun _ _ states => (0, states)) 0 0
          [entryW]) := by
  have hfits : StoredFits (resetSession (ascii "3B00")) (ascii "Remote 1") := fun _ => by decide +kernel
  have hread : readerNameA entryW.szReader = .ok (some (ascii "Remote 1")) :=
    readerNameA_of_names rfl (by decide)
  obtain ⟨hA, hW, -⟩ := reportsATR_iff (resetSession (ascii "3B00")) (fun _ _ states => (0, states))
    (fun _ _ states => (0, states)) 0 0 entryA [] entryW []
  exact ⟨hA.mpr hfits, (hW _ hread).mpr hfits⟩

/-- The proxy answers the reset with 37 bytes. -/
def longAnswer : Network :=
  ⟨true, ascii ">2:3B" ++ List.replicate 72 48 ++ ascii "@@\n", List.replicate 80 .arrived⟩

/-- After the connect a length of 37 is reported. -/
theorem not_reportsATR_long :
    ∃ c, (remoteReader (.connected [])).scardConnect longAnswer (ascii "Remote 1") (0, 0) = .ok c ∧
      ¬ ReportsATR c.state.session (ascii "Remote 1")
        (scardGetStatusChangeA c.state.session (fun _ _ states => (0, states)) 0 0 [entryA]) := by
  have hraw : (remoteReader (.connected [])).remote.rawResponse longAnswer = some longAnswer.arriving := by
    decide +kernel
  have hremote : (remoteReader (.connected [])).session.isRemoteReader (ascii "Remote 1") = true := by decide
  have hreply : (remoteReader (.connected [])).remote.Replied longAnswer
      (ascii "3B" ++ List.replicate 72 48) := ⟨_, hraw, [10], by decide, by decide⟩
  obtain ⟨c, hc, hreaders, hatr⟩ := remoteCardsATRMap_of_replied (0, 0) hremote (by decide) hreply
  refine ⟨c, hc, fun h => ?_⟩
  have hstored : storedATR c.state.session (ascii "Remote 1") =
      byteConvertFromHexString (blankLineEnds (ascii "3B" ++ List.replicate 72 48)) := by
    rw [storedATR, hatr]
  have hname : ascii "Remote 1" ∈ c.state.session.listVirtualReaders := by
    rw [hreaders]
    decide
  have hfits := reportsATR_statusChange_iff.mp h hname
  rw [hstored] at hfits
  revert hfits
  decide +kernel

end ApduPlay.ReportedATRs
