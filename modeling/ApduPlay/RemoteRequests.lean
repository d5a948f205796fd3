import ApduPlay.HexStrings
import ApduPlay.ParsedReplies

/-!
# Requests over sockets that come and go

The socket to the proxy is kept, or opened for every command. Exceptions end a
request without a status of its own, and a connection that could not be renewed
leaves a pointer to the deleted socket behind.
-/

namespace ApduPlay.RemoteRequests

open HexStrings ParsedReplies RemoteProxy TextNumbers TextSearch

/-- `CMD_APDU` -/
def cmdApdu : Text := ascii "APDU"

/-- `CMD_RESET` -/
def cmdReset : Text := ascii "RESET"

/-- `CMD_LINE_SEPARATOR` -/
def cmdLineSeparator : Text := ascii "|"

/-- `CMD_RESPONSE_FAIL` -/
def cmdResponseFail : Text := ascii "FAIL"

/-- `STAT_DATA_INCORRECT_LENGTH` -/
def statDataIncorrectLength : Status := 11

/-- `STAT_SCARD_ERROR` -/
def statScardError : Status := 34

/-- What `pSocket` points to. -/
inductive SocketPointer
  /-- Nothing. -/
  | null
  /-- A socket, with the characters of its stream that nobody has read. -/
  | connected (unread : Text)
  /-- A socket that was closed. -/
  | closed
  /-- A socket that was deleted. -/
  | deleted
  deriving DecidableEq, Repr

/-- `REMOTE_CONFIG` -/
structure RemoteConfig where
  /-- Whether the socket is renewed for each command. -/
  bOpenSocketForEveryCommand : Bool
  /-- The socket to the proxy. -/
  pSocket : SocketPointer
  /-- Number drawn last. -/
  nextCommandID : UInt32
  deriving DecidableEq, Repr

/-- What the outside does during a request. -/
structure Network where
  /-- Whether a new connection can be made. -/
  connects : Bool
  /-- What comes into the stream until the response is read. -/
  arriving : Text
  /-- The attempts to read. -/
  recvs : List Recv
  deriving DecidableEq, Repr

/-- `c_str` as `%s` prints it, up to the first zero character. -/
def cStr (text : Text) : Text := text.takeWhile (· ≠ 0)

/-- `Remote_FormatRequest` -/
def remoteFormatRequest (targetReader : Text) (uniqueCmdID : UInt32)
    (command commandData notes lineSeparator : Text) : Text :=
  62 :: (cStr targetReader ++ cStr lineSeparator ++ [10] ++ 62 :: (printedID uniqueCmdID ++ cmdSeparator ++
    cStr command ++ cmdSeparator ++ cStr commandData ++ cStr lineSeparator ++ cStr notes ++ [10]))

/-- The socket for a request, and whether there is one: the constructor throws
if it cannot connect. A socket that was deleted is deleted again or used. -/
def RemoteConfig.openSocket (cfg : RemoteConfig) (connects : Bool) : Except Fault (SocketPointer × Bool) :=
  match cfg.pSocket with
  | .deleted => .error .outOfBounds
  | .null => .ok (if connects then (.connected [], true) else (.null, false))
  | .connected _ | .closed =>
    if cfg.bOpenSocketForEveryCommand then
      .ok (if connects then (.connected [], true) else (.deleted, false))
    else .ok (cfg.pSocket, true)

/-- `ReceiveResponse`. From a closed socket nothing is received. -/
def SocketPointer.receiveResponse (net : Network) : SocketPointer → Text × SocketPointer
  | .connected unread =>
    let received := (Socket.mk (unread ++ net.arriving) net.recvs).receiveResponse remoteSocketEndseq []
    (received.1, .connected received.2.unread)
  | pSocket => ([], pSocket)

/-- Line ends are replaced by blanks. -/
def blankLineEnds (text : Text) : Text := text.map fun c => if c = 10 then 32 else c

/-- A blank, a line end or a tabulator. -/
def isBlank (c : UInt8) : Bool := c == 32 || c == 10 || c == 13 || c == 9

/-- The response without blanks at its end. -/
def trimmed (response : Text) : Text := (response.reverse.dropWhile isBlank).reverse

/-- What a request comes to. -/
structure Requested where
  /-- Returned status. -/
  status : Status
  /-- The caller's response. -/
  response : Text
  /-- The configuration afterwards. -/
  cfg : RemoteConfig
  /-- What was sent to the proxy. -/
  sent : List Text
  deriving DecidableEq, Repr

/-- `Remote_SendRequest`. Exceptions are caught, and leave the status and the
response as they were. -/
def RemoteConfig.remoteSendRequest (cfg : RemoteConfig) (net : Network)
    (targetReader command commandData pResponse : Text) : Except Fault Requested := do
  let opened ← cfg.openSocket net.connects
  if opened.2 then
    let id := cfg.nextCommandID + 1
    let line := remoteFormatRequest targetReader id command commandData [] cmdLineSeparator
    let received := opened.1.receiveResponse net
    let cfg := { cfg with pSocket := received.2, nextCommandID := id }
    match remoteParseResponse received.1 id with
    | .error _ => return ⟨scardSSuccess, pResponse, cfg, [line ++ [10]]⟩
    | .ok (status, response) =>
      let cfg := if cfg.bOpenSocketForEveryCommand then { cfg with pSocket := .closed } else cfg
      return ⟨status, blankLineEnds (response.getD pResponse), cfg, [line ++ [10]]⟩
  else return ⟨scardSSuccess, pResponse, { cfg with pSocket := opened.1 }, []⟩

/-- `Remote_SCardConnect`: status, answer to reset, configuration and what was sent.
The status of the request is not looked at. -/
def RemoteConfig.remoteSCardConnect (cfg : RemoteConfig) (net : Network) (targetReader : Text) :
    Except Fault (Status × Text × RemoteConfig × List Text) :=
  if cfg.pSocket ≠ .null then do
    let request ← cfg.remoteSendRequest net targetReader cmdReset [] []
    return (scardSSuccess, request.response, request.cfg, request.sent)
  else return (scardFCommError, [], cfg, [])

/-- What a remote transmit leaves behind. -/
structure Transmitted where
  /-- Returned status. -/
  status : Status
  /-- Memory of the caller's buffer. -/
  pbRecvBuffer : List UInt8
  /-- The length variable. -/
  pcbRecvLength : UInt32
  /-- The configuration afterwards. -/
  cfg : RemoteConfig
  /-- What was sent to the proxy. -/
  sent : List Text
  deriving DecidableEq, Repr

/-- Draw a command ID. -/
def RemoteConfig.drawCommandID (cfg : RemoteConfig) : RemoteConfig :=
  { cfg with nextCommandID := cfg.nextCommandID + 1 }

/-- `Remote_SCardTransmit`. The caller's buffer is assumed to have 260 bytes. -/
def RemoteConfig.remoteSCardTransmit (cfg : RemoteConfig) (net : Network) (targetReader : Text)
    (pbSendBuffer pbRecvBuffer : List UInt8) (pcbRecvLength : UInt32) : Except Fault Transmitted :=
  if cfg.pSocket ≠ .null then do
    let value := byteConvertFromArrayToHexString pbSendBuffer false
    let request ← cfg.drawCommandID.remoteSendRequest net targetReader cmdApdu value []
    let response := trimmed request.response
    if find cmdResponseFail response = none then
      let (status, pbRecvBuffer, pcbRecvLength) ← byteConvertFromHexStringToArray response pbRecvBuffer 260
      let status := if pcbRecvLength < 2 then statDataIncorrectLength else status
      return ⟨status, pbRecvBuffer, pcbRecvLength, request.cfg, request.sent⟩
    else return ⟨statScardError, pbRecvBuffer, pcbRecvLength, request.cfg, request.sent⟩
  else return ⟨scardSSuccess, pbRecvBuffer, pcbRecvLength, cfg, []⟩

/-- The text that a request reads, if there is a socket for it. -/
def RemoteConfig.rawResponse (cfg : RemoteConfig) (net : Network) : Option Text :=
  match cfg.openSocket net.connects with
  | .ok (pSocket, true) => some (pSocket.receiveResponse net).1
  | _ => none

/-- A request reads a text that is taken for its reply, with this response. -/
def RemoteConfig.Takes (cfg : RemoteConfig) (net : Network) (response : Text) : Prop :=
  ∃ raw, cfg.rawResponse net = some raw ∧ TakenAs (cfg.nextCommandID + 1) raw response

/-- The reply to a request is read, with this body. -/
def RemoteConfig.Replied (cfg : RemoteConfig) (net : Network) (body : Text) : Prop :=
  ∃ raw, cfg.rawResponse net = some raw ∧ IsReplyWith (printedID (cfg.nextCommandID + 1)) raw body

variable {cfg : RemoteConfig} {net : Network} {response body : Text} {id : UInt32}

/-- A socket is kept or renewed. -/
theorem openSocket_live {connects : Bool} (hnull : cfg.pSocket ≠ .null) (hdeleted : cfg.pSocket ≠ .deleted) :
    cfg.openSocket connects = if cfg.bOpenSocketForEveryCommand then
      .ok (if connects then (.connected [], true) else (.deleted, false))
    else .ok (cfg.pSocket, true) := by
  unfold RemoteConfig.openSocket
  cases hp : cfg.pSocket with
  | null => exact absurd hp hnull
  | connected unread => rfl
  | closed => rfl
  | deleted => exact absurd hp hdeleted

/-- There is a socket for a request that reads a text. -/
theorem openSocket_of_rawResponse {raw : Text} (h : cfg.rawResponse net = some raw) :
    ∃ pSocket, cfg.openSocket net.connects = .ok (pSocket, true) ∧ raw = (pSocket.receiveResponse net).1 := by
  unfold RemoteConfig.rawResponse at h
  split at h
  · rename_i pSocket hopen
    exact ⟨pSocket, hopen, (Option.some.inj h).symm⟩
  · cases h

/-- A text that is taken for the reply makes the request succeed. -/
theorem remoteSendRequest_of_takes (h : cfg.Takes net response) (targetReader command commandData : Text) :
    ∃ request, cfg.remoteSendRequest net targetReader command commandData [] = .ok request ∧
      request.status = scardSSuccess ∧ request.response = blankLineEnds response := by
  obtain ⟨raw, hraw, htaken⟩ := h
  obtain ⟨pSocket, hopen, rfl⟩ := openSocket_of_rawResponse hraw
  have hparse := remoteParseResponse_of_takenAs htaken
  rw [RemoteConfig.remoteSendRequest, Fault.bind_ok hopen]
  dsimp only
  rw [if_pos rfl, hparse]
  exact ⟨_, rfl, rfl, rfl⟩

/-- Otherwise nothing is stored, whether there is no connection, no text, or one
that is refused. -/
theorem remoteSendRequest_of_not_takes (hsocket : cfg.pSocket ≠ .deleted) (h : ∀ response,
    ¬ cfg.Takes net response) (targetReader command commandData : Text) :
    ∃ request, cfg.remoteSendRequest net targetReader command commandData [] = .ok request ∧
      request.response = [] := by
  obtain ⟨opened, hopen⟩ : ∃ opened, cfg.openSocket net.connects = .ok opened := by
    by_cases hnull : cfg.pSocket = .null
    · rw [RemoteConfig.openSocket, hnull]
      exact ⟨_, rfl⟩
    · rw [openSocket_live hnull hsocket]
      split_ifs <;> exact ⟨_, rfl⟩
  obtain ⟨pSocket, connected⟩ := opened
  rw [RemoteConfig.remoteSendRequest, Fault.bind_ok hopen]
  dsimp only
  cases connected with
  | false => exact ⟨_, rfl, rfl⟩
  | true =>
    have hraw : cfg.rawResponse net = some (pSocket.receiveResponse net).1 := by
      rw [RemoteConfig.rawResponse, hopen]
    have hnone : ∀ response, ¬ TakenAs (cfg.nextCommandID + 1) (pSocket.receiveResponse net).1 response :=
      fun response ht => h response ⟨_, hraw, ht⟩
    rw [if_pos rfl]
    rcases remoteParseResponse_of_not_takenAs hnone with hempty | hrefused
    · rw [hempty]
      exact ⟨_, rfl, rfl⟩
    · rw [hrefused]
      exact ⟨_, rfl, rfl⟩

theorem remoteSendRequest_of_deleted (hsocket : cfg.pSocket = .deleted)
    (targetReader command commandData pResponse : Text) :
    cfg.remoteSendRequest net targetReader command commandData pResponse = .error .outOfBounds := by
  rw [RemoteConfig.remoteSendRequest]
  refine Fault.bind_error ?_
  rw [RemoteConfig.openSocket, hsocket]

theorem RemoteConfig.Takes.unique {response' : Text} (h : cfg.Takes net response)
    (h' : cfg.Takes net response') : response = response' := by
  obtain ⟨raw, hraw, htaken⟩ := h
  obtain ⟨raw', hraw', htaken'⟩ := h'
  cases hraw.symm.trans hraw'
  exact htaken.unique htaken'

/-- The reply is taken, whatever the number. -/
theorem RemoteConfig.Replied.takes (h : cfg.Replied net body) : cfg.Takes net body := by
  obtain ⟨raw, hraw, hreply⟩ := h
  exact ⟨raw, hraw, hreply.takenAs (separator_notMem_printedID _) (toDword_atoi_printedID _)⟩

/-- Over a socket that is kept, a request is one of a session with the proxy. -/
theorem remoteSendRequest_kept (s : ProxySession) (net : Network) (targetReader command commandData : Text) :
    ∃ request, (RemoteConfig.mk false (.connected s.unread) s.nextCommandID).remoteSendRequest net
        targetReader command commandData [] = .ok request ∧
      request.status = (s.exchange net.arriving net.recvs).1.status ∧
      request.response = (s.exchange net.arriving net.recvs).1.stored.getD [] ∧
      request.cfg = ⟨false, .connected (s.exchange net.arriving net.recvs).2.unread,
        (s.exchange net.arriving net.recvs).2.nextCommandID⟩ := by
  let received := (Socket.mk (s.unread ++ net.arriving) net.recvs).receiveResponse remoteSocketEndseq []
  have hopen : (RemoteConfig.mk false (.connected s.unread) s.nextCommandID).openSocket net.connects =
      .ok (.connected s.unread, true) := openSocket_live SocketPointer.noConfusion SocketPointer.noConfusion
  rw [RemoteConfig.remoteSendRequest, Fault.bind_ok hopen, ProxySession.exchange]
  dsimp only [SocketPointer.receiveResponse]
  rw [if_pos rfl]
  cases hparse : remoteParseResponse received.1 (s.nextCommandID + 1) with
  | error e => exact ⟨_, rfl, rfl, rfl, rfl⟩
  | ok answer =>
    obtain ⟨status, response⟩ := answer
    cases response <;> exact ⟨_, rfl, rfl, rfl, rfl⟩

end ApduPlay.RemoteRequests
