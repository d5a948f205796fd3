import Mathlib.Logic.Function.Basic
import ApduPlay.Basic

/-!
# Card handles

The library keeps one table of the reader behind every card handle and one of
the handles of remote cards, and numbers remote cards from one counter. What
the original library and the remote proxy answer is an argument of each call.
-/

namespace ApduPlay.CardSession

/-- The state of the library that concerns handles. -/
structure Session where
  /-- Reader of every card handle. -/
  cardReaderMap : CardHandle → Option Text
  /-- Reader of the handles given out for remote cards. -/
  remoteReadersMap : CardHandle → Option Text
  /-- Answer to reset of the remote cards. -/
  remoteCardsATRMap : Text → Option Text
  /-- Number given out last. -/
  nextRemoteCardID : UInt32
  /-- Names of the remote readers. -/
  listVirtualReaders : List Text
  /-- Whether there is a socket to the remote proxy. -/
  socket : Bool

/-- The library as it is loaded. -/
def Session.initial (listVirtualReaders : List Text) (socket : Bool) : Session :=
  ⟨fun _ => none, fun _ => none, fun _ => none, 1, listVirtualReaders, socket⟩

/-- Forget all remote cards and start numbering again. -/
def Session.remoteSCardReleaseContext (s : Session) : Session :=
  { s with cardReaderMap := fun _ => none, remoteReadersMap := fun _ => none, nextRemoteCardID := 1 }

/-- Returns true if given handle is of remote card. -/
def Session.isRemoteCard (s : Session) (hCard : CardHandle) : Bool :=
  (s.remoteReadersMap hCard).isSome

/-- Returns true if given reader name is of remote reader. -/
def Session.isRemoteReader (s : Session) (readerName : Text) : Bool :=
  s.listVirtualReaders.contains readerName

/-- Returns reader name corresponding to provided card handle. The subscript
inserts an empty name for a handle that is not in the table. -/
def Session.getReaderName (s : Session) (hCard : CardHandle) : Text × Session :=
  match s.cardReaderMap hCard with
  | some name => (name, s)
  | none => ([], { s with cardReaderMap := Function.update s.cardReaderMap hCard (some []) })

/-- Reset of a remote card: fails only without a socket, and otherwise takes
whatever response was obtained as the answer to reset. -/
def Session.remoteSCardConnect (s : Session) (response : Text) : Status × Text :=
  if s.socket then (scardSSuccess, response) else (scardFCommError, [])

/-- Where an APDU or a call is forwarded to. -/
inductive Destination
  | originalLibrary
  | remoteReader (name : Text)
  deriving DecidableEq, Repr

/-- Status of a call together with the destination that saw it, if any. -/
structure Reply where
  /-- Returned status. -/
  status : Status
  /-- Whether the original library was called. -/
  forwarded : Bool
  deriving DecidableEq, Repr

/-- A call that succeeds for remote cards without doing anything. -/
def Session.forwardUnlessRemote (s : Session) (hCard : CardHandle) (original : Status) : Reply :=
  if s.isRemoteCard hCard then ⟨scardSSuccess, false⟩ else ⟨original, true⟩

def Session.scardReconnect (s : Session) (hCard : CardHandle) (original : Status) : Reply :=
  s.forwardUnlessRemote hCard original

def Session.scardBeginTransaction (s : Session) (hCard : CardHandle) (original : Status) : Reply :=
  s.forwardUnlessRemote hCard original

def Session.scardEndTransaction (s : Session) (hCard : CardHandle) (original : Status) : Reply :=
  s.forwardUnlessRemote hCard original

def Session.scardDisconnect (s : Session) (hCard : CardHandle) (original : Status) : Reply :=
  s.forwardUnlessRemote hCard original

/-- Where `SCardTransmit` sends its APDUs. -/
def Session.transmitDestination (s : Session) (hCard : CardHandle) : Destination × Session :=
  if s.isRemoteCard hCard then
    let found := s.getReaderName hCard
    (.remoteReader found.1, found.2)
  else (.originalLibrary, s)

/-- Store mapping between card handle and reader (used in card remoting). -/
def Session.storeReader (s : Session) (hCard : CardHandle) (szReader : Text) : Session :=
  { s with cardReaderMap := Function.update s.cardReaderMap hCard (some szReader) }

/-- Give out the next number as the handle of a remote card. -/
def Session.addRemoteCard (s : Session) (szReader atr : Text) : CardHandle × Session :=
  let hCard := (s.nextRemoteCardID + 1).toUInt64
  (hCard, { s with
    nextRemoteCardID := s.nextRemoteCardID + 1
    remoteReadersMap := Function.update s.remoteReadersMap hCard (some szReader)
    remoteCardsATRMap := Function.update s.remoteCardsATRMap szReader (some atr) })

/-- `SCardConnect`: the status, the handle in `*phCard` afterwards and the next
state. For a local reader both come from the original library. -/
def Session.scardConnect (s : Session) (szReader : Text) (original : Status × CardHandle)
    (response : Text) : Status × CardHandle × Session :=
  if s.isRemoteReader szReader then
    let connected := s.remoteSCardConnect response
    let added := s.addRemoteCard szReader connected.2
    (connected.1, added.1, added.2.storeReader added.1 szReader)
  else (original.1, original.2, s.storeReader original.2 szReader)

/-- One call of the application, with what the outside answers to it. -/
inductive Call
  /-- `SCardEstablishContext` -/
  | establishContext (original : Status)
  /-- `SCardReleaseContext` -/
  | releaseContext (hContext : CardContext) (original : Status)
  /-- `SCardConnect` -/
  | connect (hContext : CardContext) (szReader : Text) (original : Status × CardHandle) (response : Text)
  /-- `SCardTransmit` -/
  | transmit (hCard : CardHandle)
  /-- `SCardDisconnect` -/
  | disconnect (hCard : CardHandle) (original : Status)
  /-- `SCardReconnect`, `SCardBeginTransaction` or `SCardEndTransaction` -/
  | forward (hCard : CardHandle) (original : Status)
  /-- `SCardListReaders` when it refreshes the names of the remote readers -/
  | listReaders (readers : List Text)

/-- A connection to a remote reader that the application holds. -/
structure RemoteCard where
  /-- Context it was made in. -/
  context : CardContext
  /-- Handle returned. -/
  handle : CardHandle
  /-- Reader connected to. -/
  reader : Text
  deriving DecidableEq, Repr

/-- The library together with the connections the application holds. -/
structure Traced where
  /-- State of the library. -/
  session : Session
  /-- Remote connections neither disconnected nor released. -/
  live : List RemoteCard
  /-- Contexts and handles of the local connections. -/
  opened : List (CardContext × CardHandle)

/-- Run one call and keep track of the connections. -/
def Traced.step (t : Traced) : Call → Traced
  | .establishContext _ => { t with session := t.session.remoteSCardReleaseContext }
  | .releaseContext hContext original =>
    let session := t.session.remoteSCardReleaseContext
    if original = scardSSuccess then
      ⟨session, t.live.filter (·.context ≠ hContext), t.opened.filter (·.1 ≠ hContext)⟩
    else { t with session := session }
  | .connect hContext szReader original response =>
    let connected := t.session.scardConnect szReader original response
    if connected.1 = scardSSuccess then
      if t.session.isRemoteReader szReader then
        ⟨connected.2.2, t.live ++ [⟨hContext, connected.2.1, szReader⟩], t.opened⟩
      else ⟨connected.2.2, t.live, t.opened ++ [(hContext, connected.2.1)]⟩
    else { t with session := connected.2.2 }
  | .transmit hCard => { t with session := (t.session.transmitDestination hCard).2 }
  | .disconnect hCard original =>
    if (t.session.scardDisconnect hCard original).status = scardSSuccess then
      ⟨t.session, t.live.filter (·.handle ≠ hCard), t.opened.filter (·.2 ≠ hCard)⟩
    else t
  | .forward _ _ => t
  | .listReaders readers => { t with session := { t.session with listVirtualReaders := readers } }

variable {t : Traced} {hContext : CardContext} {szReader response : Text}
  {original : Status × CardHandle}

/-- A remote card is connected while there is a socket. -/
theorem step_connect_remote (hr : t.session.isRemoteReader szReader = true) (hs : t.session.socket = true) :
    t.step (.connect hContext szReader original response) =
      ⟨(t.session.addRemoteCard szReader response).2.storeReader
          (t.session.nextRemoteCardID + 1).toUInt64 szReader,
        t.live ++ [⟨hContext, (t.session.nextRemoteCardID + 1).toUInt64, szReader⟩], t.opened⟩ := by
  simp [Traced.step, Session.scardConnect, Session.remoteSCardConnect, Session.addRemoteCard, hr, hs]

/-- Without a socket the call fails, but the tables are written all the same. -/
theorem step_connect_refused (hr : t.session.isRemoteReader szReader = true) (hs : t.session.socket = false) :
    t.step (.connect hContext szReader original response) =
      ⟨(t.session.addRemoteCard szReader []).2.storeReader
          (t.session.nextRemoteCardID + 1).toUInt64 szReader, t.live, t.opened⟩ := by
  simp [Traced.step, Session.scardConnect, Session.remoteSCardConnect, Session.addRemoteCard, hr, hs,
    scardFCommError, scardSSuccess]

/-- For a local reader the handle of the original library is stored in any case. -/
theorem step_connect_local (hr : t.session.isRemoteReader szReader = false) :
    t.step (.connect hContext szReader original response) =
      ⟨t.session.storeReader original.2 szReader, t.live,
        if original.1 = scardSSuccess then t.opened ++ [(hContext, original.2)] else t.opened⟩ := by
  by_cases hs : original.1 = scardSSuccess <;> simp [Traced.step, Session.scardConnect, hr, hs]

/-- Nothing connected yet. -/
def Traced.initial (listVirtualReaders : List Text) (socket : Bool) : Traced :=
  ⟨Session.initial listVirtualReaders socket, [], []⟩

end ApduPlay.CardSession
