import ApduPlay.HandleRouting

/-!
# Only connected remote cards are remote

The table of remote handles should hold the live remote connections and no
handle of the original library. Disconnecting a remote card removes nothing
from it, a refused connection stays in it, and its numbers are small enough to
meet those of the original library.
-/

namespace ApduPlay.HandleOwnership

open CardSession GuardedRuns HandleRouting

/-- A handle is treated as remote only while a remote reader is connected
under it, and the local connections go to the original library. -/
structure OnlyConnectedRemote (t : Traced) : Prop where
  /-- Every remote handle is a live connection. -/
  connected : ∀ h, t.session.isRemoteCard h = true → ∃ c ∈ t.live, c.handle = h
  /-- No open local handle is in the table of remote handles. -/
  isRemoteCard : ∀ c ∈ t.opened, t.session.isRemoteCard c.2 = false
  /-- APDUs for local handles go to the original library. -/
  transmit : ∀ c ∈ t.opened, (t.session.transmitDestination c.2).1 = .originalLibrary
  /-- So do the other calls. -/
  forwarded : ∀ c ∈ t.opened, ∀ original,
    (t.session.scardReconnect c.2 original).forwarded = true ∧
      (t.session.scardBeginTransaction c.2 original).forwarded = true ∧
      (t.session.scardEndTransaction c.2 original).forwarded = true ∧
      (t.session.scardDisconnect c.2 original).forwarded = true

/-- When a call leaves only connected handles in the table: no remote card is
disconnected, a remote connection is not refused and its number is no open
local handle, and the original library hands out no number of the table. -/
def OwnershipSafe (t : Traced) : Call → Prop
  | .connect _ szReader original _ =>
    if t.session.isRemoteReader szReader then
      (t.session.socket = true ∨
        ∃ c ∈ t.live, c.handle = (t.session.nextRemoteCardID + 1).toUInt64) ∧
        ∀ c ∈ t.opened, c.2 ≠ (t.session.nextRemoteCardID + 1).toUInt64
    else original.1 = scardSSuccess → t.session.isRemoteCard original.2 = false
  | .disconnect hCard _ => t.session.isRemoteCard hCard = false
  | .establishContext _ | .releaseContext _ _ | .transmit _ | .forward _ _ | .listReaders _ => True

variable {t : Traced} {s : Session} {live : List RemoteCard} {opened : List (CardContext × CardHandle)}

/-- What is forwarded follows from the table of remote handles. -/
theorem onlyConnectedRemote_iff : OnlyConnectedRemote t ↔
    (∀ h, t.session.isRemoteCard h = true → ∃ c ∈ t.live, c.handle = h) ∧
      ∀ c ∈ t.opened, t.session.isRemoteCard c.2 = false := by
  constructor
  · exact fun ho => ⟨ho.connected, ho.isRemoteCard⟩
  · rintro ⟨hconnected, hlocal⟩
    refine ⟨hconnected, hlocal, fun c hc => ?_, fun c hc original => ?_⟩
    · simp [Session.transmitDestination, hlocal c hc]
    · simp [Session.scardReconnect, Session.scardBeginTransaction, Session.scardEndTransaction,
        Session.scardDisconnect, Session.forwardUnlessRemote, hlocal c hc]

/-- After the tables were emptied nothing is remote. -/
theorem onlyConnectedRemote_released (t : Traced) :
    OnlyConnectedRemote ⟨t.session.remoteSCardReleaseContext, live, opened⟩ :=
  onlyConnectedRemote_iff.mpr ⟨fun _ hr => absurd hr Bool.false_ne_true, fun _ _ => rfl⟩

/-- Only the table of remote handles matters. -/
theorem OnlyConnectedRemote.of_table (ho : OnlyConnectedRemote t)
    (hs : s.remoteReadersMap = t.session.remoteReadersMap) :
    OnlyConnectedRemote ⟨s, t.live, t.opened⟩ := by
  have hsame (h : CardHandle) : s.isRemoteCard h = t.session.isRemoteCard h := by
    rw [Session.isRemoteCard, hs, Session.isRemoteCard]
  refine onlyConnectedRemote_iff.mpr ⟨fun h hr => ho.connected h (hsame h ▸ hr), fun c hc => ?_⟩
  exact (hsame c.2).trans (ho.isRemoteCard c hc)

/-- A new number in the table of remote handles. -/
theorem onlyConnectedRemote_added (ho : OnlyConnectedRemote t) {k : CardHandle}
    (hs : ∀ h, s.isRemoteCard h = (h == k || t.session.isRemoteCard h))
    (hlive : ∀ c ∈ t.live, c ∈ live) :
    OnlyConnectedRemote ⟨s, live, t.opened⟩ ↔
      (∃ c ∈ live, c.handle = k) ∧ ∀ c ∈ t.opened, c.2 ≠ k := by
  rw [onlyConnectedRemote_iff]
  constructor
  · rintro ⟨hconnected, hlocal⟩
    refine ⟨hconnected k (by rw [hs]; simp), fun c hc he => ?_⟩
    have hfalse := hlocal c hc
    rw [hs, he] at hfalse
    simp at hfalse
  · rintro ⟨hk, hfresh⟩
    constructor
    · intro h hr
      rw [hs, Bool.or_eq_true] at hr
      rcases hr with hr | hr
      · rwa [beq_iff_eq.mp hr]
      · obtain ⟨c, hc, hch⟩ := ho.connected h hr
        exact ⟨c, hlive c hc, hch⟩
    · intro c hc
      rw [hs, ho.isRemoteCard c hc, Bool.or_false]
      simpa using hfresh c hc

theorem onlyConnectedRemote_connect (hContext : CardContext) (szReader : Text)
    (original : Status × CardHandle) (response : Text) (ho : OnlyConnectedRemote t) :
    OnlyConnectedRemote (t.step (.connect hContext szReader original response)) ↔
      OwnershipSafe t (.connect hContext szReader original response) := by
  have hadded (atr : Text) (h : CardHandle) : ((t.session.addRemoteCard szReader atr).2.storeReader
      (t.session.nextRemoteCardID + 1).toUInt64 szReader).isRemoteCard h =
      (h == (t.session.nextRemoteCardID + 1).toUInt64 || t.session.isRemoteCard h) :=
    isRemoteCard_update _ _ _ _
  simp only [OwnershipSafe]
  cases hreader : t.session.isRemoteReader szReader with
  | true =>
    cases hs : t.session.socket with
    | true =>
      rw [step_connect_remote hreader hs,
        onlyConnectedRemote_added ho (hadded response) fun c hc => List.mem_append_left _ hc]
      simp
    | false =>
      rw [step_connect_refused hreader hs, onlyConnectedRemote_added ho (hadded []) fun c hc => hc]
      simp
  | false =>
    rw [step_connect_local hreader]
    simp only [Bool.false_eq_true, if_false]
    have hsame : OnlyConnectedRemote ⟨t.session.storeReader original.2 szReader, t.live, t.opened⟩ :=
      ho.of_table rfl
    by_cases hs : original.1 = scardSSuccess
    · rw [if_pos hs, onlyConnectedRemote_iff]
      constructor
      · rintro ⟨_, hlocal⟩ _
        exact hlocal (hContext, original.2) (by simp)
      · intro hfresh
        refine ⟨hsame.connected, fun c hc => ?_⟩
        rcases List.mem_append.mp hc with hc | hc
        · exact hsame.isRemoteCard c hc
        · obtain rfl := List.mem_singleton.mp hc
          exact hfresh hs
    · rw [if_neg hs]
      exact ⟨fun _ h => absurd h hs, fun _ => hsame⟩

/-- Disconnecting keeps the table right only for local handles. -/
theorem onlyConnectedRemote_disconnect (hCard : CardHandle) (original : Status)
    (ho : OnlyConnectedRemote t) :
    OnlyConnectedRemote (t.step (.disconnect hCard original)) ↔
      t.session.isRemoteCard hCard = false := by
  by_cases hr : t.session.isRemoteCard hCard = true
  · simp only [Traced.step, Session.scardDisconnect, Session.forwardUnlessRemote, hr, if_true,
      Bool.true_eq_false, iff_false, onlyConnectedRemote_iff]
    rintro ⟨hconnected, _⟩
    obtain ⟨c, hc, hch⟩ := hconnected hCard hr
    simp [hch] at hc
  · rw [Bool.not_eq_true] at hr
    simp only [hr, iff_true, Traced.step]
    split_ifs with hs
    · refine onlyConnectedRemote_iff.mpr ⟨fun h hh => ?_, fun c hc => ?_⟩
      · obtain ⟨c, hc, hch⟩ := ho.connected h hh
        refine ⟨c, List.mem_filter.mpr ⟨hc, ?_⟩, hch⟩
        have hne : h ≠ hCard := by
          rintro rfl
          exact Bool.false_ne_true (hr.symm.trans hh)
        simpa [hch] using hne
      · exact ho.isRemoteCard c (List.mem_filter.mp hc).1
    · exact ho

/-- One step keeps the table right exactly when it is safe. -/
theorem onlyConnectedRemote_step (t : Traced) (call : Call) (ho : OnlyConnectedRemote t) :
    OnlyConnectedRemote (t.step call) ↔ OwnershipSafe t call := by
  cases call with
  | establishContext original =>
    exact ⟨fun _ => trivial, fun _ => onlyConnectedRemote_released t⟩
  | releaseContext hContext original =>
    simp only [Traced.step, OwnershipSafe, iff_true]
    split_ifs
    · exact onlyConnectedRemote_released t
    · exact onlyConnectedRemote_released t
  | connect hContext szReader original response => exact onlyConnectedRemote_connect _ _ _ _ ho
  | transmit hCard =>
    simp only [OwnershipSafe, iff_true]
    exact ho.of_table (remoteReadersMap_transmitDestination _ _)
  | disconnect hCard original => exact onlyConnectedRemote_disconnect _ _ ho
  | forward hCard original =>
    simp only [OwnershipSafe, iff_true]
    exact ho
  | listReaders readers =>
    simp only [OwnershipSafe, iff_true]
    exact ho.of_table rfl

/-- In a whole run only connected handles are remote if and only if every call
is safe in the state where it is made. -/
theorem always_onlyConnectedRemote_iff (listVirtualReaders : List Text) (socket : Bool)
    (calls : List Call) :
    Always Traced.step OnlyConnectedRemote (Traced.initial listVirtualReaders socket) calls ↔
      Guarded Traced.step OwnershipSafe (Traced.initial listVirtualReaders socket) calls := by
  refine always_iff_guarded onlyConnectedRemote_step ?_ calls
  exact onlyConnectedRemote_iff.mpr ⟨fun _ hr => absurd hr Bool.false_ne_true, by simp [Traced.initial]⟩

/-- A disconnected remote card is still treated as remote. -/
theorem not_always_onlyConnectedRemote_disconnect :
    ¬ Always Traced.step OnlyConnectedRemote (Traced.initial [ascii "Remote 1"] true)
      [.connect 10 (ascii "Remote 1") (0, 0) (ascii "3B00"), .disconnect 2 0] := by
  intro hall
  obtain ⟨c, hc, _⟩ := (hall 2).connected 2 (by decide)
  revert hc
  have hlive : ([Call.connect 10 (ascii "Remote 1") (0, 0) (ascii "3B00"), .disconnect 2 0].foldl
      Traced.step (Traced.initial [ascii "Remote 1"] true)).live = [] := by decide
  exact fun hc => absurd (hlive ▸ hc) List.not_mem_nil

end ApduPlay.HandleOwnership
