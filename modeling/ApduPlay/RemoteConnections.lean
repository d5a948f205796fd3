import ApduPlay.HandleRouting
import ApduPlay.RemoteRequests

/-!
# Connecting to remote readers

A remote card counts as connected as soon as there is a socket, whatever came of
the request for its answer to reset. The tables are written for every outcome,
for a local reader under a handle that a failed call may not have set.
-/

namespace ApduPlay.RemoteConnections

open CardSession ParsedReplies RemoteProxy RemoteRequests TextSearch

/-- The tables of the library and the connection to the proxy. -/
structure RemoteSession where
  /-- The tables. -/
  session : Session
  /-- The connection. -/
  remote : RemoteConfig
  /-- The tables go with the pointer. -/
  socket_eq : session.socket = decide (remote.pSocket ≠ .null)

/-- Put tables and a connection together. -/
def RemoteSession.of (session : Session) (remote : RemoteConfig) : RemoteSession :=
  ⟨{ session with socket := decide (remote.pSocket ≠ .null) }, remote, rfl⟩

/-- What a connect leaves behind. -/
structure ConnectResult where
  /-- Returned status. -/
  status : Status
  /-- The handle in `*phCard` afterwards. -/
  hCard : CardHandle
  /-- The state afterwards. -/
  state : RemoteSession

/-- `SCardConnect`, with the request that is made for a remote reader. -/
def RemoteSession.scardConnect (s : RemoteSession) (net : Network) (szReader : Text)
    (original : Status × CardHandle) : Except Fault ConnectResult :=
  if s.session.isRemoteReader szReader then do
    let (status, atr, remote, _) ← s.remote.remoteSCardConnect net szReader
    let (hCard, session) := s.session.addRemoteCard szReader atr
    return ⟨status, hCard, .of (session.storeReader hCard szReader) remote⟩
  else return ⟨original.1, original.2, .of (s.session.storeReader original.2 szReader) s.remote⟩

/-- A connect succeeds only on the reply to its request, which is no failure and
whose text is then the stored answer to reset. -/
def ConnectsOnReply (s : RemoteSession) (net : Network) (szReader : Text)
    (original : Status × CardHandle) : Prop :=
  ∃ c, s.scardConnect net szReader original = .ok c ∧ (c.status = scardSSuccess →
    ∃ body, s.remote.Replied net body ∧ find cmdResponseFail body = none ∧
      c.state.session.remoteCardsATRMap szReader = some (blankLineEnds body))

/-- A connect that fails leaves the tables as they were. -/
def KeepsTables (s : RemoteSession) (net : Network) (szReader : Text)
    (original : Status × CardHandle) : Prop :=
  ∀ c, s.scardConnect net szReader original = .ok c → c.status ≠ scardSSuccess →
    c.state.session.cardReaderMap = s.session.cardReaderMap ∧
    c.state.session.remoteReadersMap = s.session.remoteReadersMap ∧
    c.state.session.remoteCardsATRMap = s.session.remoteCardsATRMap ∧
    ∀ h, c.state.session.isRemoteCard h = s.session.isRemoteCard h

/-- The tables hold already what a refused connect to a reader writes. -/
def HoldsRefused (s : Session) (szReader : Text) : Prop :=
  s.cardReaderMap (s.nextRemoteCardID + 1).toUInt64 = some szReader ∧
  s.remoteReadersMap (s.nextRemoteCardID + 1).toUInt64 = some szReader ∧
  s.remoteCardsATRMap szReader = some []

/-- A connect does not fail, or what it writes is there already. -/
def FailsUnnoticed (s : RemoteSession) (szReader : Text) (original : Status × CardHandle) : Prop :=
  if s.session.isRemoteReader szReader then s.remote.pSocket = .null → HoldsRefused s.session szReader
  else original.1 ≠ scardSSuccess → s.session.cardReaderMap original.2 = some szReader

variable {s : RemoteSession} {net : Network} {szReader : Text} {original : Status × CardHandle}
  {cfg : RemoteConfig}

/-- Opening a socket leaves a pointer where there was one. -/
theorem openSocket_ne_null {connects : Bool} {opened : SocketPointer × Bool} (hsocket : cfg.pSocket ≠ .null)
    (h : cfg.openSocket connects = .ok opened) : opened.1 ≠ .null := by
  by_cases hdeleted : cfg.pSocket = .deleted
  · rw [RemoteConfig.openSocket, hdeleted] at h
    cases h
  · rw [openSocket_live hsocket hdeleted] at h
    split_ifs at h
    · cases h
      exact SocketPointer.noConfusion
    · cases h
      exact SocketPointer.noConfusion
    · cases h
      exact hsocket

theorem receiveResponse_ne_null {pSocket : SocketPointer} (h : pSocket ≠ .null) :
    (pSocket.receiveResponse net).2 ≠ .null := by
  cases pSocket with
  | connected unread => exact SocketPointer.noConfusion
  | null => exact h
  | closed => exact h
  | deleted => exact h

/-- So does a request. -/
theorem remoteSendRequest_ne_null (hsocket : cfg.pSocket ≠ .null) {targetReader command commandData : Text}
    {pResponse : Text} {request : Requested}
    (h : cfg.remoteSendRequest net targetReader command commandData pResponse = .ok request) :
    request.cfg.pSocket ≠ .null := by
  obtain ⟨opened, hopen, hrest⟩ := Fault.of_bind_ok h
  have hopened := openSocket_ne_null hsocket hopen
  dsimp only at hrest
  by_cases hconnected : opened.2 = true
  · rw [if_pos hconnected] at hrest
    split at hrest
    · cases hrest
      exact receiveResponse_ne_null hopened
    · cases hrest
      dsimp only
      split_ifs
      · exact SocketPointer.noConfusion
      · exact receiveResponse_ne_null hopened
  · rw [if_neg hconnected] at hrest
    cases hrest
    exact hopened

/-- Connecting does not change whether there is a socket, and its outcome only
depends on that and on the response. -/
theorem remoteSCardConnect_eq {targetReader : Text} {answer : Status × Text × RemoteConfig × List Text}
    (h : s.remote.remoteSCardConnect net targetReader = .ok answer) :
    ∃ response, (answer.1, answer.2.1) = s.session.remoteSCardConnect response ∧
      (answer.2.2.1.pSocket = .null ↔ s.remote.pSocket = .null) := by
  unfold RemoteConfig.remoteSCardConnect at h
  unfold Session.remoteSCardConnect
  split_ifs at h with hsocket
  · obtain ⟨request, hrequest, hreturn⟩ := Fault.of_bind_ok h
    cases hreturn
    refine ⟨request.response, by simp [s.socket_eq, hsocket], ?_⟩
    exact iff_of_false (remoteSendRequest_ne_null hsocket hrequest) hsocket
  · cases h
    exact ⟨[], by simp [s.socket_eq, not_not.mp hsocket], Iff.rfl⟩

/-- What a connect does to the tables is what it does to them alone, for the
response that came. -/
theorem scardConnect_tables {c : ConnectResult} (h : s.scardConnect net szReader original = .ok c) :
    ∃ response, s.session.scardConnect szReader original response = (c.status, c.hCard, c.state.session) := by
  unfold RemoteSession.scardConnect at h
  unfold Session.scardConnect
  split_ifs at h ⊢ with hremote
  · obtain ⟨answer, hanswer, hreturn⟩ := Fault.of_bind_ok h
    obtain ⟨response, hconnect, hnull⟩ := remoteSCardConnect_eq hanswer
    cases hreturn
    refine ⟨response, ?_⟩
    rw [← hconnect]
    simp [RemoteSession.of, Session.addRemoteCard, Session.storeReader, s.socket_eq, hnull]
  · cases h
    refine ⟨[], ?_⟩
    simp [RemoteSession.of, Session.storeReader, s.socket_eq]

/-- The stored answer to reset is what the request brought. -/
theorem remoteCardsATRMap_scardConnect (original : Status × CardHandle)
    (hremote : s.session.isRemoteReader szReader = true) {status : Status}
    {atr : Text} {remote : RemoteConfig} {sent : List Text}
    (h : s.remote.remoteSCardConnect net szReader = .ok (status, atr, remote, sent)) :
    ∃ c, s.scardConnect net szReader original = .ok c ∧ c.status = status ∧
      c.state.session.listVirtualReaders = s.session.listVirtualReaders ∧
      c.state.session.remoteCardsATRMap szReader = some atr := by
  rw [RemoteSession.scardConnect, if_pos hremote, Fault.bind_ok h]
  exact ⟨_, rfl, rfl, rfl, Function.update_self _ _ _⟩

/-- For the reply this is its text. -/
theorem remoteCardsATRMap_of_replied (original : Status × CardHandle)
    (hremote : s.session.isRemoteReader szReader = true) (hnull : s.remote.pSocket ≠ .null) {body : Text}
    (hbody : s.remote.Replied net body) :
    ∃ c, s.scardConnect net szReader original = .ok c ∧
      c.state.session.listVirtualReaders = s.session.listVirtualReaders ∧
      c.state.session.remoteCardsATRMap szReader = some (blankLineEnds body) := by
  obtain ⟨request, hrequest, -, hresponse⟩ := remoteSendRequest_of_takes hbody.takes szReader cmdReset []
  have hconnect : s.remote.remoteSCardConnect net szReader =
      .ok (scardSSuccess, blankLineEnds body, request.cfg, request.sent) := by
    rw [RemoteConfig.remoteSCardConnect, if_pos hnull, Fault.bind_ok hrequest, ← hresponse]
    rfl
  obtain ⟨c, hc, -, hreaders, hatr⟩ := remoteCardsATRMap_scardConnect original hremote hconnect
  exact ⟨c, hc, hreaders, hatr⟩

/-- With a socket the status is always success. -/
theorem status_of_socket (hremote : s.session.isRemoteReader szReader = true)
    (hnull : s.remote.pSocket ≠ .null)
    {c : ConnectResult} (hc : s.scardConnect net szReader original = .ok c) : c.status = scardSSuccess := by
  obtain ⟨response, htables⟩ := scardConnect_tables hc
  have hsocket : s.session.socket = true := by simp [s.socket_eq, hnull]
  rw [Session.scardConnect, if_pos hremote, Session.remoteSCardConnect, if_pos hsocket] at htables
  exact (congrArg Prod.fst htables).symm

/-- A connect succeeds on the reply only, exactly if there is no socket or the
reply is what the request reads. -/
theorem connectsOnReply_iff (s : RemoteSession) (net : Network) (szReader : Text)
    (original : Status × CardHandle) (hremote : s.session.isRemoteReader szReader = true) :
    ConnectsOnReply s net szReader original ↔ s.remote.pSocket = .null ∨
      ∃ body, s.remote.Replied net body ∧ find cmdResponseFail body = none := by
  by_cases hnull : s.remote.pSocket = .null
  · refine iff_of_true ?_ (Or.inl hnull)
    have hrefused : s.remote.remoteSCardConnect net szReader = .ok (scardFCommError, [], s.remote, []) :=
      if_neg (not_not.mpr hnull)
    obtain ⟨c, hc, hstatus, -⟩ := remoteCardsATRMap_scardConnect original hremote hrefused
    exact ⟨c, hc, fun hsuccess => absurd (hstatus.symm.trans hsuccess) (by decide)⟩
  rw [or_iff_right hnull]
  constructor
  · rintro ⟨c, hc, hreply⟩
    obtain ⟨body, hbody, hfail, -⟩ := hreply (status_of_socket hremote hnull hc)
    exact ⟨body, hbody, hfail⟩
  · rintro ⟨body, hbody, hfail⟩
    obtain ⟨c, hc, -, hatr⟩ := remoteCardsATRMap_of_replied original hremote hnull hbody
    exact ⟨c, hc, fun _ => ⟨body, hbody, hfail, hatr⟩⟩

/-- One remote reader, and a socket that stays open. -/
def remoteReader (pSocket : SocketPointer) : RemoteSession :=
  .of (Session.initial [ascii "Remote 1"] true) ⟨false, pSocket, 1⟩

/-- The proxy answers the request with an answer to reset. -/
def promptAnswer : Network := ⟨true, ascii ">2:3B00@@\n", List.replicate 10 .arrived⟩

theorem connectsOnReply_prompt :
    ConnectsOnReply (remoteReader (.connected [])) promptAnswer (ascii "Remote 1") (0, 0) := by
  have hraw : (remoteReader (.connected [])).remote.rawResponse promptAnswer =
      some (ascii ">2:3B00@@\n") := by
    decide +kernel
  refine (connectsOnReply_iff _ _ _ _ (by decide)).mpr (Or.inr ⟨ascii "3B00", ?_, by decide⟩)
  exact ⟨_, hraw, [10], by decide, by decide⟩

/-- A request that is never answered counts as a connection. -/
theorem not_connectsOnReply_timeout :
    ¬ ConnectsOnReply (remoteReader (.connected [])) ⟨true, [], []⟩ (ascii "Remote 1") (0, 0) := by
  rintro ⟨c, hc, hreply⟩
  have hsuccess := status_of_socket (by decide) (by decide) hc
  obtain ⟨body, ⟨raw, hraw, hbody⟩, -⟩ := hreply hsuccess
  have hempty : (remoteReader (.connected [])).remote.rawResponse ⟨true, [], []⟩ = some [] := by
    decide +kernel
  cases hempty.symm.trans hraw
  obtain ⟨rest, heq, -⟩ := hbody
  cases heq

/-- An entry that is written changes nothing if it is there already. -/
theorem update_some_iff {α β : Type} [DecidableEq α] (m : α → Option β) (a : α) (b : β) :
    Function.update m a (some b) = m ↔ m a = some b :=
  Function.update_eq_self_iff.trans eq_comm

/-- A failed connect to a local reader stores its name under the handle that
was left behind. -/
theorem keepsTables_local (hlocal : s.session.isRemoteReader szReader = false) :
    KeepsTables s net szReader original ↔
      (original.1 ≠ scardSSuccess → s.session.cardReaderMap original.2 = some szReader) := by
  have hconnect : s.scardConnect net szReader original = .ok ⟨original.1, original.2,
      .of (s.session.storeReader original.2 szReader) s.remote⟩ := by
    rw [RemoteSession.scardConnect, if_neg (by rw [hlocal]; exact Bool.false_ne_true)]
    rfl
  rw [KeepsTables, hconnect]
  constructor
  · exact fun h hfailed => (update_some_iff _ _ _).mp (h _ rfl hfailed).1
  · rintro h c hc hfailed
    cases hc
    exact ⟨(update_some_iff _ _ _).mpr (h hfailed), rfl, rfl, fun _ => rfl⟩

/-- A refused connect to a remote reader stores its name and an empty answer to
reset. -/
theorem keepsTables_refused (hremote : s.session.isRemoteReader szReader = true)
    (hnull : s.remote.pSocket = .null) :
    KeepsTables s net szReader original ↔ HoldsRefused s.session szReader := by
  have hrefused : s.remote.remoteSCardConnect net szReader = .ok (scardFCommError, [], s.remote, []) :=
    if_neg (not_not.mpr hnull)
  let hCard := (s.session.nextRemoteCardID + 1).toUInt64
  have hconnect : s.scardConnect net szReader original = .ok ⟨scardFCommError, hCard,
      .of ((s.session.addRemoteCard szReader []).2.storeReader hCard szReader) s.remote⟩ := by
    rw [RemoteSession.scardConnect, if_pos hremote, Fault.bind_ok hrefused]
    rfl
  rw [KeepsTables, hconnect]
  constructor
  · intro h
    obtain ⟨hcards, hreaders, hatrs, -⟩ := h _ rfl (show scardFCommError ≠ scardSSuccess by decide)
    exact ⟨(update_some_iff _ _ _).mp hcards, (update_some_iff _ _ _).mp hreaders,
      (update_some_iff _ _ _).mp hatrs⟩
  · rintro ⟨hcards, hreaders, hatrs⟩ c heq -
    cases heq
    have hsame := (update_some_iff _ _ _).mpr hreaders
    exact ⟨(update_some_iff _ _ _).mpr hcards, hsame, (update_some_iff _ _ _).mpr hatrs,
      fun h => congrArg (fun map => (map h).isSome) hsame⟩

/-- A failed connect leaves the tables as they were exactly if what it writes is
there already. -/
theorem keepsTables_iff (s : RemoteSession) (net : Network) (szReader : Text)
    (original : Status × CardHandle) :
    KeepsTables s net szReader original ↔ FailsUnnoticed s szReader original := by
  unfold FailsUnnoticed
  cases hremote : s.session.isRemoteReader szReader with
  | true =>
    by_cases hnull : s.remote.pSocket = .null
    · simp only [if_true, hnull, forall_true_left]
      exact keepsTables_refused hremote hnull
    · refine iff_of_true (fun c hc hfailed => ?_) fun h => absurd h hnull
      exact absurd (status_of_socket hremote hnull hc) hfailed
  | false =>
    simp only [Bool.false_eq_true, if_false]
    exact keepsTables_local hremote

/-- Without a socket the connect is refused, and its handle is remote all the same. -/
theorem not_keepsTables_unconnected :
    ¬ KeepsTables (remoteReader .null) ⟨true, [], []⟩ (ascii "Remote 1") (0, 0) := by
  intro h
  cases ((keepsTables_refused (by decide) rfl).mp h).1

end ApduPlay.RemoteConnections
