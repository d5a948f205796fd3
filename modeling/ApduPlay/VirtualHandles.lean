import ApduPlay.HandleRouting

/-!
# Handles that the library makes up

`SCardConnect` numbers the cards of remote readers and enters them into the
table of remote handles. `SCardConnectW` returns one constant while requests
are redirected, and enters nothing. All later calls decide by the table.
-/

namespace ApduPlay.VirtualHandles

open CardSession GuardedRuns HandleRouting

/-- `HANDLE_VIRTUAL_CARD` -/
def handleVirtualCard : CardHandle := 1

/-- What a connect returns. -/
structure Connected where
  /-- Returned status. -/
  status : Status
  /-- The handle in `*phCard` afterwards. -/
  hCard : CardHandle
  /-- Whether the original library was called. -/
  forwarded : Bool
  deriving DecidableEq, Repr

/-- `SCardConnectW`, which looks at no reader name and changes no table. -/
def scardConnectW (s : Session) (bRedirect : Bool) (original : Status × CardHandle) : Connected :=
  if bRedirect && s.socket then ⟨scardSSuccess, handleVirtualCard, false⟩
  else ⟨original.1, original.2, true⟩

/-- What `SCardConnect` returns. -/
def scardConnect (s : Session) (szReader : Text) (original : Status × CardHandle) (response : Text) :
    Connected :=
  ⟨(s.scardConnect szReader original response).1, (s.scardConnect szReader original response).2.1,
    !s.isRemoteReader szReader⟩

/-- One call of the application, with either connect. -/
inductive AnyCall
  /-- One of the calls of a session. -/
  | call (c : Call)
  /-- `SCardConnectW` -/
  | connectW (hContext : CardContext) (original : Status × CardHandle)

/-- The library together with the handles that it made up. -/
structure Watched where
  /-- State of the library. -/
  session : Session
  /-- Whether requests are redirected, as configured. -/
  bRedirect : Bool
  /-- Contexts and handles that a connect returned with success without the
  original library, neither disconnected nor released. -/
  handles : List (CardContext × CardHandle)

/-- The state of the library after a call. -/
def sessionAfter (s : Session) (c : Call) : Session := (Traced.step ⟨s, [], []⟩ c).session

/-- A handle that a connect made up is watched from then on. -/
def Watched.watch (t : Watched) (hContext : CardContext) (connected : Connected) :
    List (CardContext × CardHandle) :=
  if connected.status = scardSSuccess ∧ connected.forwarded = false then t.handles ++
    [(hContext, connected.hCard)]
  else t.handles

/-- Run one call and keep track of the handles that were made up. -/
def Watched.step (t : Watched) : AnyCall → Watched
  | .call (.releaseContext hContext original) =>
    { t with
      session := sessionAfter t.session (.releaseContext hContext original)
      handles := if original = scardSSuccess then t.handles.filter (·.1 ≠ hContext) else t.handles }
  | .call (.connect hContext szReader original response) =>
    { t with
      session := sessionAfter t.session (.connect hContext szReader original response)
      handles := t.watch hContext (scardConnect t.session szReader original response) }
  | .call (.disconnect hCard original) =>
    { t with
      session := sessionAfter t.session (.disconnect hCard original)
      handles := if (t.session.scardDisconnect hCard original).status = scardSSuccess then
        t.handles.filter (·.2 ≠ hCard) else t.handles }
  | .call c => { t with session := sessionAfter t.session c }
  | .connectW hContext original =>
    { t with handles := t.watch hContext (scardConnectW t.session t.bRedirect original) }

/-- Nothing connected yet. -/
def Watched.initial (listVirtualReaders : List Text) (socket bRedirect : Bool) : Watched :=
  ⟨Session.initial listVirtualReaders socket, bRedirect, []⟩

/-- Every handle that the library made up is in the table of remote handles,
and its APDUs go to a remote reader. -/
structure AllRegistered (t : Watched) : Prop where
  /-- The handle is known as remote. -/
  isRemoteCard : ∀ h ∈ t.handles, t.session.isRemoteCard h.2 = true
  /-- APDUs are not sent to the original library. -/
  transmit : ∀ h ∈ t.handles, ∃ name, (t.session.transmitDestination h.2).1 = .remoteReader name

/-- When a call leaves these handles registered: the tables are only emptied
while no such handle is left in them, and `SCardConnectW` makes up no handle
that is not in the table already. -/
def RegistrationSafe (t : Watched) : AnyCall → Prop
  | .call (.establishContext _) => t.handles = []
  | .call (.releaseContext hContext original) =>
    if original = scardSSuccess then ∀ h ∈ t.handles, h.1 = hContext else t.handles = []
  | .connectW _ _ =>
    t.bRedirect = true → t.session.socket = true → t.session.isRemoteCard handleVirtualCard = true
  | .call (.connect _ _ _ _) | .call (.transmit _) | .call (.disconnect _ _) | .call (.forward _ _)
  | .call (.listReaders _) => True

variable {t : Watched} {s : Session} {handles : List (CardContext × CardHandle)}

/-- The library does not notice that it is watched. -/
theorem session_step (t : Traced) (c : Call) : (t.step c).session = sessionAfter t.session c := by
  cases c with
  | establishContext original => rfl
  | releaseContext hContext original =>
    simp only [sessionAfter, Traced.step]
    split_ifs <;> rfl
  | connect hContext szReader original response =>
    simp only [sessionAfter, Traced.step]
    split_ifs <;> rfl
  | transmit hCard => rfl
  | disconnect hCard original =>
    simp only [sessionAfter, Traced.step]
    split_ifs <;> rfl
  | forward hCard original => rfl
  | listReaders readers => rfl

/-- The destination follows from the table of remote handles. -/
theorem allRegistered_iff : AllRegistered t ↔ ∀ h ∈ t.handles, t.session.isRemoteCard h.2 = true := by
  constructor
  · exact AllRegistered.isRemoteCard
  · intro h
    refine ⟨h, fun c hc => ?_⟩
    rw [Session.transmitDestination, if_pos (h c hc)]
    exact ⟨_, rfl⟩

/-- The empty table registers nothing. -/
theorem allRegistered_released (hs : s.remoteReadersMap = fun _ => none) {b : Bool} :
    AllRegistered ⟨s, b, handles⟩ ↔ handles = [] := by
  rw [allRegistered_iff]
  constructor
  · intro h
    refine List.eq_nil_iff_forall_not_mem.mpr fun c hc => ?_
    have hremote := h c hc
    rw [Session.isRemoteCard, hs] at hremote
    cases hremote
  · rintro rfl
    exact List.forall_mem_nil _

/-- A larger table registers fewer handles. -/
theorem AllRegistered.mono (ht : AllRegistered t)
    (hs : ∀ h, t.session.isRemoteCard h = true → s.isRemoteCard h = true)
    (hhandles : ∀ h ∈ handles, h ∈ t.handles) : AllRegistered ⟨s, t.bRedirect, handles⟩ :=
  allRegistered_iff.mpr fun h hh => hs h.2 (ht.isRemoteCard h (hhandles h hh))

/-- `SCardConnect` registers the handle that it makes up. -/
theorem allRegistered_connect (ht : AllRegistered t) (hContext : CardContext) (szReader : Text)
    (original : Status × CardHandle) (response : Text) :
    AllRegistered (t.step (.call (.connect hContext szReader original response))) := by
  have hadded (atr : Text) (h : CardHandle) : ((t.session.addRemoteCard szReader atr).2.storeReader
      (t.session.nextRemoteCardID + 1).toUInt64 szReader).isRemoteCard h =
      (h == (t.session.nextRemoteCardID + 1).toUInt64 || t.session.isRemoteCard h) :=
    isRemoteCard_update _ _ _ _
  have hgrows (atr : Text) : ∀ h, t.session.isRemoteCard h = true →
      ((t.session.addRemoteCard szReader atr).2.storeReader
        (t.session.nextRemoteCardID + 1).toUInt64 szReader).isRemoteCard h = true := fun h hh => by
    rw [hadded, hh, Bool.or_true]
  rw [Watched.step, sessionAfter]
  cases hreader : t.session.isRemoteReader szReader with
  | true =>
    cases hs : t.session.socket with
    | true =>
      rw [step_connect_remote hreader hs]
      have hnew : t.watch hContext (scardConnect t.session szReader original response) =
          t.handles ++ [(hContext, (t.session.nextRemoteCardID + 1).toUInt64)] := by
        simp [Watched.watch, scardConnect, Session.scardConnect, Session.remoteSCardConnect,
          Session.addRemoteCard, hreader, hs]
      rw [hnew]
      refine allRegistered_iff.mpr fun h hh => ?_
      rcases List.mem_append.mp hh with hold | hlast
      · exact hgrows response h.2 (ht.isRemoteCard h hold)
      · rw [List.mem_singleton.mp hlast]
        exact (hadded response _).trans (by simp)
    | false =>
      rw [step_connect_refused hreader hs]
      have hsame : t.watch hContext (scardConnect t.session szReader original response) = t.handles := by
        simp [Watched.watch, scardConnect, Session.scardConnect, Session.remoteSCardConnect, hreader, hs,
          scardFCommError, scardSSuccess]
      rw [hsame]
      exact ht.mono (hgrows []) fun h hh => hh
  | false =>
    rw [step_connect_local hreader]
    have hsame : t.watch hContext (scardConnect t.session szReader original response) = t.handles := by
      simp [Watched.watch, scardConnect, hreader]
    rw [hsame]
    exact ht.mono (fun h hh => hh) fun h hh => hh

/-- `SCardConnectW` registers nothing. -/
theorem allRegistered_connectW (ht : AllRegistered t) (hContext : CardContext)
    (original : Status × CardHandle) :
    AllRegistered (t.step (.connectW hContext original)) ↔ RegistrationSafe t
      (.connectW hContext original) := by
  rw [Watched.step, RegistrationSafe]
  by_cases hvirtual : t.bRedirect = true ∧ t.session.socket = true
  · have hnew : t.watch hContext (scardConnectW t.session t.bRedirect original) =
        t.handles ++ [(hContext, handleVirtualCard)] := by
      simp [Watched.watch, scardConnectW, hvirtual]
    rw [hnew, allRegistered_iff]
    constructor
    · exact fun h _ _ => h (hContext, handleVirtualCard) (List.mem_append_right _ List.mem_cons_self)
    · intro h c hc
      rcases List.mem_append.mp hc with hold | hlast
      · exact ht.isRemoteCard c hold
      · rw [List.mem_singleton.mp hlast]
        exact h hvirtual.1 hvirtual.2
  · have hsame : t.watch hContext (scardConnectW t.session t.bRedirect original) = t.handles := by
      have hforwarded : (scardConnectW t.session t.bRedirect original).forwarded = true := by
        rw [scardConnectW, if_neg (by rwa [Bool.and_eq_true])]
      rw [Watched.watch, hforwarded]
      exact if_neg fun h => Bool.false_ne_true h.2.symm
    rw [hsame]
    exact iff_of_true ht fun hredirect hsocket => absurd ⟨hredirect, hsocket⟩ hvirtual

/-- One step keeps the handles registered exactly when it is safe. -/
theorem allRegistered_step (t : Watched) (call : AnyCall) (ht : AllRegistered t) :
    AllRegistered (t.step call) ↔ RegistrationSafe t call := by
  have hkeep : ∀ s : Session, s.remoteReadersMap = t.session.remoteReadersMap →
      ∀ h, t.session.isRemoteCard h = true → s.isRemoteCard h = true := fun s hs h hh => by
    rwa [Session.isRemoteCard, hs]
  cases call with
  | connectW hContext original => exact allRegistered_connectW ht hContext original
  | call c =>
    cases c with
    | establishContext original => exact allRegistered_released rfl
    | releaseContext hContext original =>
      have hreleased : (sessionAfter t.session (.releaseContext hContext original)).remoteReadersMap =
          fun _ => none := by
        simp only [sessionAfter, Traced.step]
        split_ifs <;> rfl
      rw [Watched.step, allRegistered_released hreleased, RegistrationSafe]
      split_ifs with hs
      · simp [List.filter_eq_nil_iff]
      · rfl
    | connect hContext szReader original response =>
      exact iff_of_true (allRegistered_connect ht hContext szReader original response) trivial
    | transmit hCard =>
      exact iff_of_true (ht.mono (hkeep _ (remoteReadersMap_transmitDestination _ _)) fun h hh => hh) trivial
    | disconnect hCard original =>
      have hsession : sessionAfter t.session (.disconnect hCard original) = t.session := by
        simp only [sessionAfter, Traced.step]
        split_ifs <;> rfl
      refine iff_of_true ?_ trivial
      rw [Watched.step, hsession]
      refine ht.mono (fun h hh => hh) fun h hh => ?_
      split_ifs at hh
      · exact (List.mem_filter.mp hh).1
      · exact hh
    | forward hCard original => exact iff_of_true ht trivial
    | listReaders readers => exact iff_of_true (ht.mono (fun h hh => hh) fun h hh => hh) trivial

/-- In a whole run every handle that the library made up is registered if and
only if every call is safe in the state where it is made. -/
theorem always_allRegistered_iff (listVirtualReaders : List Text) (socket bRedirect : Bool)
    (calls : List AnyCall) :
    Always Watched.step AllRegistered (Watched.initial listVirtualReaders socket bRedirect) calls ↔
      Guarded Watched.step RegistrationSafe (Watched.initial listVirtualReaders socket bRedirect) calls :=
  always_iff_guarded allRegistered_step (allRegistered_iff.mpr (List.forall_mem_nil _)) calls

/-- The handle of a redirected connection is not registered, and its APDUs are
sent to the original library. -/
theorem not_always_allRegistered_connectW :
    ¬ Always Watched.step AllRegistered (Watched.initial [] true true) [.connectW 10 (0, 0)] := by
  intro hall
  have hremote := (hall 1).isRemoteCard (10, handleVirtualCard) (by decide)
  exact absurd hremote (by decide)

end ApduPlay.VirtualHandles
