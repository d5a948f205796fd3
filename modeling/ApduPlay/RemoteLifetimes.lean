import ApduPlay.ReaderNames

/-!
# The life of the socket to the proxy

The socket is made when the library is loaded, for the personalization string, and
later calls use it only if it is there. Over whole runs a socket that was deleted is
used exactly if a call follows one that could not connect again, and otherwise every
call sends one request under a number of its own, from whose lines its parts can be
told apart.
-/

namespace ApduPlay.RemoteLifetimes

open HexStrings ReaderNames RemoteProxy RemoteRequests

/-- `CMD_PERSONALIZE` -/
def cmdPersonalize : Text := ascii "PERSONALIZE"

/-- `Remote_Connect`: a socket is opened and closed again to see whether the proxy can be
reached, and the personalization string is sent over another one. -/
def remoteConnect (cfg : RemoteConfig) (remoteTag : Text) (reachable : Bool) (net : Network) :
    Except Fault (List Text × RemoteConfig) :=
  if reachable then
    if remoteTag.length > 0 then do
      let request ← { cfg with pSocket := .null }.remoteSendRequest net noReader cmdPersonalize remoteTag []
      return (request.sent, request.cfg)
    else return ([], { cfg with pSocket := .null })
  else return ([], cfg)

/-- The calls that make requests. -/
inductive RemoteCall
  /-- `Remote_ListReaders` -/
  | listReaders
  /-- `Remote_SCardConnect` -/
  | scardConnect (targetReader : Text)
  /-- `Remote_SCardTransmit`, with the memory for the response and its length -/
  | scardTransmit (targetReader : Text) (pbSendBuffer pbRecvBuffer : List UInt8) (pcbRecvLength : UInt32)
  deriving DecidableEq, Repr

/-- A request, apart from its number. -/
structure RequestParts where
  /-- The reader. -/
  targetReader : Text
  /-- The command. -/
  command : Text
  /-- Its data. -/
  commandData : Text
  deriving DecidableEq, Repr

/-- The request of a call. -/
def RemoteCall.request (remoteTag : Text) : RemoteCall → RequestParts
  | .listReaders => ⟨noReader, cmdReaders, readersData remoteTag⟩
  | .scardConnect targetReader => ⟨targetReader, cmdReset, []⟩
  | .scardTransmit targetReader pbSendBuffer _ _ =>
    ⟨targetReader, cmdApdu, byteConvertFromArrayToHexString pbSendBuffer false⟩

/-- A transmit draws a number that no request has. -/
def RemoteCall.skipped : RemoteCall → ℕ
  | .scardTransmit _ _ _ _ => 1
  | _ => 0

/-- Number drawn before a request. -/
def RemoteCall.prepare (call : RemoteCall) (cfg : RemoteConfig) : RemoteConfig :=
  match call with
  | .scardTransmit _ _ _ _ => cfg.drawCommandID
  | _ => cfg

/-- What was sent, and the configuration after a call. -/
def RemoteCall.run (call : RemoteCall) (cfg : RemoteConfig) (remoteTag : Text) (net : Network) :
    Except Fault (List Text × RemoteConfig) :=
  match call with
  | .listReaders => do
    let (_, _, cfg, sent) ← remoteListReaders cfg remoteTag net []
    return (sent, cfg)
  | .scardConnect targetReader => do
    let (_, _, cfg, sent) ← cfg.remoteSCardConnect net targetReader
    return (sent, cfg)
  | .scardTransmit targetReader pbSendBuffer pbRecvBuffer pcbRecvLength => do
    let transmitted ← cfg.remoteSCardTransmit net targetReader pbSendBuffer pbRecvBuffer pcbRecvLength
    return (transmitted.sent, transmitted.cfg)

/-- What the calls rely on: the response that is read is no longer than the index of
the Base64 functions goes, and the memory for the response has 260 bytes. -/
def RemoteCall.HasRoom (net : Network) : RemoteCall → Prop
  | .listReaders => net.recvs.length ≤ 2 ^ 31
  | .scardConnect _ => True
  | .scardTransmit _ _ pbRecvBuffer _ => 260 ≤ pbRecvBuffer.length

/-- Calls one after another. -/
def runCalls (remoteTag : Text) : RemoteConfig → List (RemoteCall × Network) →
    Except Fault (List Text × RemoteConfig)
  | cfg, [] => .ok ([], cfg)
  | cfg, (call, net) :: calls => do
    let first ← call.run cfg remoteTag net
    let rest ← runCalls remoteTag first.2 calls
    return (first.1 ++ rest.1, rest.2)

/-- The library is loaded with redirection switched on, and calls are made. -/
def runLoaded (bOpenSocketForEveryCommand : Bool) (remoteTag : Text) (reachable : Bool) (net : Network)
    (calls : List (RemoteCall × Network)) : Except Fault (List Text × RemoteConfig) := do
  let first ← remoteConnect ⟨bOpenSocketForEveryCommand, .null, 1⟩ remoteTag reachable net
  let rest ← runCalls remoteTag first.2 calls
  return (first.1 ++ rest.1, rest.2)

/-- What becomes of the socket when the library is unloaded. -/
def unload (cfg : RemoteConfig) : Except Fault Unit :=
  match cfg.pSocket with
  | .deleted => .error .outOfBounds
  | _ => .ok ()

variable {cfg : RemoteConfig} {net : Network} {remoteTag : Text} {call : RemoteCall}

/-- The request that a call sends over its socket. -/
def RemoteCall.send (call : RemoteCall) (cfg : RemoteConfig) (remoteTag : Text) (net : Network) :
    Except Fault Requested :=
  (call.prepare cfg).remoteSendRequest net (call.request remoteTag).targetReader
    (call.request remoteTag).command (call.request remoteTag).commandData []

/-- What is stored of a text is no longer than the text. -/
theorem length_remoteParseResponse_le {raw response : Text} {id : UInt32} {status : Status}
    (h : remoteParseResponse raw id = .ok (status, some response)) : response.length ≤ raw.length := by
  have hsubstr (s : Text) (pos : ℕ) (n : Option ℕ) : (substr s pos n).length ≤ s.length := by
    cases n <;> simp only [substr, List.length_take, List.length_drop] <;> omega
  unfold remoteParseResponse at h
  cases raw with
  | nil => cases h
  | cons c p =>
    dsimp only at h
    split_ifs at h
    · cases h
    · cases h
    · cases h
      exact hsubstr _ _ _

/-- What a request stores is no longer than what was read. -/
theorem length_response_le {targetReader command commandData : Text} {request : Requested}
    (h : cfg.remoteSendRequest net targetReader command commandData [] = .ok request) :
    request.response.length ≤ net.recvs.length := by
  have hraw (pSocket : SocketPointer) : (pSocket.receiveResponse net).1.length ≤ net.recvs.length := by
    cases pSocket with
    | connected unread =>
      have hle := length_receiveResponse_le remoteSocketEndseq []
        (Socket.mk (unread ++ net.arriving) net.recvs)
      rwa [List.length_nil, Nat.zero_add] at hle
    | null | closed | deleted => exact Nat.zero_le _
  obtain ⟨opened, -, hrest⟩ := Fault.of_bind_ok h
  dsimp only at hrest
  by_cases hconnected : opened.2 = true
  · rw [if_pos hconnected] at hrest
    cases hparse : remoteParseResponse (opened.1.receiveResponse net).1 (cfg.nextCommandID + 1) with
    | error e =>
      rw [hparse] at hrest
      obtain rfl := Except.ok.inj hrest
      exact Nat.zero_le _
    | ok answer =>
      obtain ⟨status, response⟩ := answer
      rw [hparse] at hrest
      obtain rfl := Except.ok.inj hrest
      cases response with
      | none => exact Nat.zero_le _
      | some response =>
        show (blankLineEnds response).length ≤ _
        rw [blankLineEnds, List.length_map]
        exact Nat.le_trans (length_remoteParseResponse_le hparse) (hraw opened.1)
  · rw [if_neg hconnected] at hrest
    obtain rfl := Except.ok.inj hrest
    exact Nat.zero_le _

/-- The names in a response of this length are all read. -/
theorem names_of_response {response : Text} (hlen : response.length ≤ 2 ^ 31) :
    ∃ found names, items response = .ok found ∧ found.mapM readerName = .ok names := by
  have htrimmed : (trimmed response).length ≤ response.length := by
    have hreverse : response.reverse.length = response.length := List.length_reverse
    rw [trimmed, List.length_reverse, ← hreverse]
    exact (List.dropWhile_suffix isBlank).length_le
  obtain ⟨found, hfound, hshort⟩ : ∃ found, items response = .ok found ∧
      ∀ item ∈ found, item.length ≤ (trimmed response).length :=
    SeparatedNames.parse_ok (by decide) (by omega)
  refine ⟨found, found.map fun item => if item.getLast? = some 61 then Base64.decodeText item else item,
    hfound, ?_⟩
  rw [mapM_ok_iff, List.forall₂_map_right_iff, List.forall₂_same]
  intro item hitem
  have hle := hshort item hitem
  unfold readerName
  split_ifs
  · exact Base64Loops.base64Decode_eq (by omega)
  · rfl

/-- A transmit over a socket returns if there is room for the response. -/
theorem remoteSCardTransmit_ok {targetReader : Text} {pbSendBuffer pbRecvBuffer : List UInt8}
    {request : Requested} (pcbRecvLength : UInt32) (hsocket : cfg.pSocket ≠ .null)
    (hroom : 260 ≤ pbRecvBuffer.length) (h : cfg.drawCommandID.remoteSendRequest net targetReader cmdApdu
      (byteConvertFromArrayToHexString pbSendBuffer false) [] = .ok request) :
    ∃ transmitted, cfg.remoteSCardTransmit net targetReader pbSendBuffer pbRecvBuffer pcbRecvLength =
      .ok transmitted ∧ transmitted.sent = request.sent ∧ transmitted.cfg = request.cfg := by
  rw [RemoteConfig.remoteSCardTransmit, if_pos hsocket, Fault.bind_ok h]
  dsimp only
  split_ifs
  · obtain ⟨decoded, hdecoded⟩ : ∃ decoded,
        byteConvertFromHexStringToArray (trimmed request.response) pbRecvBuffer 260 = .ok decoded := by
      rcases Nat.lt_or_ge (260 : UInt32).toNat
        (TextNumbers.byteConvertFromHexString (trimmed request.response)).length with hlong | hfits
      · exact ⟨_, byteConvertFromHexStringToArray_long hlong⟩
      · exact ⟨_, byteConvertFromHexStringToArray_ok hfits (Nat.le_trans hfits hroom)⟩
    rw [Fault.bind_ok hdecoded]
    exact ⟨_, rfl, rfl, rfl⟩
  · exact ⟨_, rfl, rfl, rfl⟩

/-- A call over a socket is its request, whatever the response is used for. -/
theorem run_of_send (hsocket : cfg.pSocket ≠ .null) (hroom : call.HasRoom net) :
    call.run cfg remoteTag net =
      (call.send cfg remoteTag net).map fun request => (request.sent, request.cfg) := by
  cases call with
  | listReaders =>
    cases hsend : RemoteCall.listReaders.send cfg remoteTag net with
    | error e =>
      rw [RemoteCall.run, remoteListReaders, if_pos hsocket]
      exact congrArg (· >>= _) (Fault.bind_error hsend)
    | ok request =>
      obtain ⟨found, names, hfound, hnames⟩ :=
        names_of_response (Nat.le_trans (length_response_le hsend) hroom)
      have hlist : remoteListReaders cfg remoteTag net [] =
          .ok (scardSSuccess, names, request.cfg, request.sent) := by
        rw [remoteListReaders, if_pos hsocket]
        refine (Fault.bind_ok hsend).trans ?_
        rw [Fault.bind_ok hfound, Fault.bind_ok hnames]
        rfl
      rw [RemoteCall.run, hlist]
      rfl
  | scardConnect targetReader =>
    rw [RemoteCall.run, RemoteConfig.remoteSCardConnect, if_pos hsocket]
    cases hsend : (RemoteCall.scardConnect targetReader).send cfg remoteTag net with
    | error e => exact congrArg (· >>= _) (Fault.bind_error hsend)
    | ok request => exact congrArg (· >>= _) (Fault.bind_ok hsend)
  | scardTransmit targetReader pbSendBuffer pbRecvBuffer pcbRecvLength =>
    cases hsend : (RemoteCall.scardTransmit targetReader pbSendBuffer pbRecvBuffer pcbRecvLength).send cfg
        remoteTag net with
    | error e =>
      rw [RemoteCall.run, RemoteConfig.remoteSCardTransmit, if_pos hsocket]
      exact congrArg (· >>= _) (Fault.bind_error hsend)
    | ok request =>
      obtain ⟨transmitted, htransmit, hsent, hcfg⟩ :=
        remoteSCardTransmit_ok pcbRecvLength hsocket hroom hsend
      refine (Fault.bind_ok htransmit).trans ?_
      rw [hsent, hcfg]
      rfl

/-- There is a socket that was not deleted. -/
def Usable (pSocket : SocketPointer) : Prop := pSocket ≠ .null ∧ pSocket ≠ .deleted

/-- What a request over a socket leaves behind. -/
structure Sent (cfg : RemoteConfig) (parts : RequestParts) (sent : List Text)
    (cfg' : RemoteConfig) : Prop where
  /-- The request has the next number. -/
  sent : sent = [remoteFormatRequest parts.targetReader (cfg.nextCommandID + 1) parts.command
    parts.commandData []
    cmdLineSeparator ++ [10]]
  /-- That number was drawn. -/
  number : cfg'.nextCommandID = cfg.nextCommandID + 1
  /-- The socket is still there. -/
  usable : Usable cfg'.pSocket
  /-- The setting stays. -/
  setting : cfg'.bOpenSocketForEveryCommand = cfg.bOpenSocketForEveryCommand

/-- A socket stays usable when a response is received. -/
theorem usable_receiveResponse {pSocket : SocketPointer} (h : Usable pSocket) (net : Network) :
    Usable (pSocket.receiveResponse net).2 := by
  cases pSocket with
  | connected unread => exact ⟨SocketPointer.noConfusion, SocketPointer.noConfusion⟩
  | null | closed | deleted => exact h

/-- A request over a socket, whatever comes back. -/
theorem remoteSendRequest_sent {pSocket : SocketPointer}
    (hopen : cfg.openSocket net.connects = .ok (pSocket, true))
    (husable : Usable pSocket) (parts : RequestParts) (pResponse : Text) :
    ∃ request, cfg.remoteSendRequest net parts.targetReader parts.command parts.commandData pResponse =
      .ok request ∧ Sent cfg parts request.sent request.cfg := by
  have hreceived := usable_receiveResponse husable net
  rw [RemoteConfig.remoteSendRequest, Fault.bind_ok hopen]
  dsimp only
  rw [if_pos rfl]
  cases remoteParseResponse (pSocket.receiveResponse net).1 (cfg.nextCommandID + 1) with
  | error e => exact ⟨_, rfl, rfl, rfl, hreceived, rfl⟩
  | ok answer =>
    obtain ⟨status, response⟩ := answer
    refine ⟨_, rfl, rfl, ?_, ?_, ?_⟩
    · dsimp only
      split_ifs <;> rfl
    · dsimp only
      split_ifs
      · exact ⟨SocketPointer.noConfusion, SocketPointer.noConfusion⟩
      · exact hreceived
    · dsimp only
      split_ifs <;> rfl

/-- A socket that cannot be renewed is lost. -/
theorem remoteSendRequest_lost (husable : Usable cfg.pSocket)
    (hsetting : cfg.bOpenSocketForEveryCommand = true)
    (hconnects : net.connects = false) (targetReader command commandData pResponse : Text) :
    ∃ request, cfg.remoteSendRequest net targetReader command commandData pResponse = .ok request ∧
      request.sent = [] ∧ request.cfg.pSocket = .deleted := by
  have hopen : cfg.openSocket false = .ok (.deleted, false) := by
    rw [openSocket_live husable.1 husable.2, if_pos hsetting, if_neg Bool.false_ne_true]
  rw [RemoteConfig.remoteSendRequest, hconnects, Fault.bind_ok hopen]
  exact ⟨_, rfl, rfl, rfl⟩

theorem prepare_eq (call : RemoteCall) (cfg : RemoteConfig) : (call.prepare cfg).pSocket = cfg.pSocket ∧
    (call.prepare cfg).bOpenSocketForEveryCommand = cfg.bOpenSocketForEveryCommand ∧
    (call.prepare cfg).nextCommandID = cfg.nextCommandID + UInt32.ofNat call.skipped := by
  cases call <;> refine ⟨rfl, rfl, ?_⟩ <;>
    simp [RemoteCall.prepare, RemoteCall.skipped, RemoteConfig.drawCommandID]

/-- A call over a socket. -/
theorem run_sent (remoteTag : Text) (call : RemoteCall) (hroom : call.HasRoom net)
    (husable : Usable cfg.pSocket) (hconnects : cfg.bOpenSocketForEveryCommand = true →
    net.connects = true) : ∃ sent cfg', call.run cfg remoteTag net = .ok (sent, cfg') ∧
      Sent (call.prepare cfg) (call.request remoteTag) sent cfg' := by
  obtain ⟨hsocket, hsetting, -⟩ := prepare_eq call cfg
  have husable' : Usable (call.prepare cfg).pSocket := hsocket ▸ husable
  obtain ⟨pSocket, hopen, hpSocket⟩ : ∃ pSocket,
      (call.prepare cfg).openSocket net.connects = .ok (pSocket, true) ∧ Usable pSocket := by
    rw [openSocket_live husable'.1 husable'.2]
    split_ifs with hevery hnew
    · exact ⟨_, rfl, SocketPointer.noConfusion, SocketPointer.noConfusion⟩
    · exact absurd (hconnects (hsetting ▸ hevery)) hnew
    · exact ⟨_, rfl, husable'⟩
  obtain ⟨request, hrequest, hsent⟩ := remoteSendRequest_sent hopen hpSocket (call.request remoteTag) []
  refine ⟨request.sent, request.cfg, ?_, hsent⟩
  rw [run_of_send husable.1 hroom, RemoteCall.send, hrequest]
  rfl

/-- A call that loses the socket. -/
theorem run_lost (remoteTag : Text) (call : RemoteCall) (hroom : call.HasRoom net)
    (husable : Usable cfg.pSocket)
    (hsetting : cfg.bOpenSocketForEveryCommand = true)
    (hconnects : net.connects = false) :
    ∃ cfg', call.run cfg remoteTag net = .ok ([], cfg') ∧ cfg'.pSocket = .deleted := by
  obtain ⟨hsocket, hsetting', -⟩ := prepare_eq call cfg
  have husable' : Usable (call.prepare cfg).pSocket := hsocket ▸ husable
  obtain ⟨request, hrequest, hsent, hdeleted⟩ := remoteSendRequest_lost husable' (hsetting'.trans hsetting)
    hconnects (call.request remoteTag).targetReader (call.request remoteTag).command
    (call.request remoteTag).commandData []
  refine ⟨request.cfg, ?_, hdeleted⟩
  rw [run_of_send husable.1 hroom, RemoteCall.send, hrequest, ← hsent]
  rfl

/-- A call after that uses the socket that was deleted. -/
theorem run_deleted (hroom : call.HasRoom net) (hdeleted : cfg.pSocket = .deleted) :
    call.run cfg remoteTag net = .error .outOfBounds := by
  have hsocket : (call.prepare cfg).pSocket = .deleted := (prepare_eq call cfg).1.trans hdeleted
  rw [run_of_send (by rw [hdeleted]; exact SocketPointer.noConfusion) hroom, RemoteCall.send,
    remoteSendRequest_of_deleted hsocket]
  rfl

/-- Without a socket a call does nothing. -/
theorem run_null (hnull : cfg.pSocket = .null) : call.run cfg remoteTag net = .ok ([], cfg) := by
  have hnone : ¬ cfg.pSocket ≠ .null := not_not.mpr hnull
  cases call with
  | listReaders => rw [RemoteCall.run, remoteListReaders, if_neg hnone]; rfl
  | scardConnect targetReader => rw [RemoteCall.run, RemoteConfig.remoteSCardConnect, if_neg hnone]; rfl
  | scardTransmit targetReader pbSendBuffer pbRecvBuffer pcbRecvLength =>
    rw [RemoteCall.run, RemoteConfig.remoteSCardTransmit, if_neg hnone]
    rfl

/-- A request and its number. -/
structure NumberedRequest extends RequestParts where
  /-- The number. -/
  uniqueCmdID : UInt32
  deriving DecidableEq, Repr

/-- The line of a request. -/
def NumberedRequest.line (r : NumberedRequest) : Text :=
  remoteFormatRequest r.targetReader r.uniqueCmdID r.command r.commandData [] cmdLineSeparator ++ [10]

/-- The request that the lines are, if they are one: the reader up to the first bar,
number and command up to colons, and the data up to the bar and the line ends at the
end. -/
def readRequest (line : Text) : Option NumberedRequest :=
  match line with
  | 62 :: rest =>
    match rest.dropWhile (· != 124) with
    | 124 :: 10 :: 62 :: body =>
      let afterNumber := (body.dropWhile (· != 58)).drop 1
      let commandData := (afterNumber.dropWhile (· != 58)).drop 1
      some ⟨⟨rest.takeWhile (· != 124), afterNumber.takeWhile (· != 58),
        commandData.take (commandData.length - 3)⟩, toDword (atoi (body.takeWhile (· != 58)))⟩
    | _ => none
  | _ => none

/-- The requests of calls: each has the next number, and a call that cannot renew the
socket has none. -/
def requestsOf (bOpenSocketForEveryCommand : Bool) (remoteTag : Text) :
    UInt32 → List (RemoteCall × Network) → List NumberedRequest
  | _, [] => []
  | id, (call, net) :: calls =>
    let uniqueCmdID := id + UInt32.ofNat call.skipped + 1
    if bOpenSocketForEveryCommand && !net.connects then []
    else ⟨call.request remoteTag, uniqueCmdID⟩ ::
      requestsOf bOpenSocketForEveryCommand remoteTag uniqueCmdID calls

/-- Every call but the last one can connect, or the socket is kept anyway. -/
def Renewed (bOpenSocketForEveryCommand : Bool) (calls : List (RemoteCall × Network)) : Prop :=
  bOpenSocketForEveryCommand = true → ∀ c ∈ calls.dropLast, c.2.connects = true

/-- The last call cannot connect again. -/
def Loses (bOpenSocketForEveryCommand : Bool) (calls : List (RemoteCall × Network)) : Prop :=
  bOpenSocketForEveryCommand = true ∧ ∃ c ∈ calls.getLast?, c.2.connects = false

variable {calls : List (RemoteCall × Network)} {id : UInt32}

theorem span_until {a b : Text} {sep : UInt8} (ha : sep ∉ a) :
    (a ++ sep :: b).takeWhile (· != sep) = a ∧ (a ++ sep :: b).dropWhile (· != sep) = sep :: b := by
  have hall : ∀ c ∈ a, (c != sep) = true := fun c hc => bne_iff_ne.mpr fun heq => ha (heq ▸ hc)
  constructor
  · rw [List.takeWhile_append_of_pos hall, List.takeWhile_cons_of_neg (by simp), List.append_nil]
  · rw [List.dropWhile_append_of_pos hall, List.dropWhile_cons_of_neg (by simp)]

/-- Nothing is cut from a text without zero characters. -/
theorem cStr_eq {text : Text} (h : 0 ∉ text) : cStr text = text :=
  List.takeWhile_eq_self_iff.mpr fun _ hc => decide_eq_true fun he => h (he ▸ hc)

theorem zero_notMem_cStr (text : Text) : 0 ∉ cStr text := by
  intro h
  have hne := List.mem_takeWhile_imp (p := fun c : UInt8 => decide (c ≠ 0)) h
  exact absurd rfl (of_decide_eq_true hne)

/-- Hexadecimal strings have none. -/
theorem zero_notMem_hexString (bytes : List UInt8) : 0 ∉ byteConvertFromArrayToHexString bytes false := by
  intro h
  obtain ⟨b, -, hb⟩ := List.mem_flatMap.mp ((List.rdropWhile_prefix _ _).subset h)
  have hdigit := TextNumbers.digit_of_mem_pairs (.cons (hexPair_hexNum b) .nil) 0 (by simpa using hb)
  exact absurd hdigit (by decide)

/-- The parts can be written into lines and told apart again: none has a zero character
in it, the reader no bar and the command no colon. -/
structure Separable (parts : RequestParts) : Prop where
  /-- No bar in the name of the reader. -/
  bar : 124 ∉ parts.targetReader
  /-- No colon in the command. -/
  colon : 58 ∉ parts.command
  /-- No zero character. -/
  zero : 0 ∉ parts.targetReader ∧ 0 ∉ parts.command ∧ 0 ∉ parts.commandData

/-- Then the request is read back. -/
theorem readRequest_line (r : NumberedRequest) (hparts : Separable r.toRequestParts) :
    readRequest r.line = some r := by
  obtain ⟨hreader, hcommand, hzero, hzero', hzero''⟩ := hparts
  have hseparator : cStr cmdLineSeparator = [124] := by decide
  have hnotes : cStr [] = [] := rfl
  have hline : r.line = 62 :: (r.targetReader ++ 124 :: 10 :: 62 :: (printedID r.uniqueCmdID ++ 58 ::
      (r.command ++ 58 :: (r.commandData ++ [124, 10, 10])))) := by
    rw [NumberedRequest.line, remoteFormatRequest, cStr_eq hzero, cStr_eq hzero', cStr_eq hzero'',
      hseparator, hnotes]
    simp [cmdSeparator]
  obtain ⟨hreader₁, hreader₂⟩ := span_until (b := 10 :: 62 :: (printedID r.uniqueCmdID ++ 58 ::
      (r.command ++ 58 :: (r.commandData ++ [124, 10, 10])))) hreader
  obtain ⟨hnumber₁, hnumber₂⟩ := span_until (b := r.command ++ 58 :: (r.commandData ++ [124, 10, 10]))
    (separator_notMem_printedID r.uniqueCmdID)
  obtain ⟨hcommand₁, hcommand₂⟩ := span_until (b := r.commandData ++ [124, 10, 10]) hcommand
  rw [hline]
  simp only [readRequest, hreader₁, hreader₂, hnumber₁, hnumber₂, List.drop_one, List.tail_cons, hcommand₁,
    hcommand₂, toDword_atoi_printedID]
  simp

/-- The parts of a call can, if the name of its reader has neither in it. -/
theorem separable_request (call : RemoteCall) (hreader : 124 ∉ (call.request remoteTag).targetReader ∧
    0 ∉ (call.request remoteTag).targetReader) : Separable (call.request remoteTag) := by
  have hcommands : ∀ command ∈ [cmdReaders, cmdReset, cmdApdu], 58 ∉ command ∧ 0 ∉ command := by decide
  have hcommand : (call.request remoteTag).command ∈ [cmdReaders, cmdReset, cmdApdu] := by
    cases call <;> simp [RemoteCall.request]
  refine ⟨hreader.1, (hcommands _ hcommand).1, hreader.2, (hcommands _ hcommand).2, ?_⟩
  cases call with
  | listReaders =>
    intro hmem
    rcases List.mem_append.mp hmem with hmem | hend
    · rcases List.mem_append.mp hmem with htag | hseparator
      · exact zero_notMem_cStr _ htag
      · exact absurd hseparator (by decide)
    · exact absurd hend (by decide)
  | scardConnect targetReader => exact List.not_mem_nil
  | scardTransmit targetReader pbSendBuffer _ _ => exact zero_notMem_hexString pbSendBuffer

/-- A call that can connect changes neither. -/
theorem renewed_cons (call : RemoteCall) (calls : List (RemoteCall × Network)) {net : Network}
    {bOpenSocketForEveryCommand : Bool}
    (hconnects : bOpenSocketForEveryCommand = true → net.connects = true) :
    (Renewed bOpenSocketForEveryCommand ((call, net) :: calls) ↔ Renewed bOpenSocketForEveryCommand calls) ∧
      (Loses bOpenSocketForEveryCommand ((call, net) :: calls) ↔ Loses bOpenSocketForEveryCommand calls) := by
  cases calls with
  | nil =>
    refine ⟨by simp [Renewed], ?_⟩
    simp only [Loses, List.getLast?_singleton, Option.mem_def, Option.some.injEq, exists_eq_left',
      List.getLast?_nil,
      reduceCtorEq, false_and, exists_false, and_false, iff_false, not_and, Bool.not_eq_false]
    exact hconnects
  | cons next calls =>
    simp only [Renewed, Loses, List.dropLast_cons_cons, List.forall_mem_cons,
      List.getLast?_cons_cons, and_true]
    exact ⟨fun h ho => (h ho).2, fun h ho => ⟨hconnects ho, h ho⟩⟩

/-- Calls go well exactly if each but the last one can connect, and then each has sent
its request. -/
theorem runCalls_usable (remoteTag : Text) (husable : Usable cfg.pSocket)
    (calls : List (RemoteCall × Network)) (hrooms : ∀ c ∈ calls, c.1.HasRoom c.2) :
    (Renewed cfg.bOpenSocketForEveryCommand calls → ∃ cfg', runCalls remoteTag cfg calls =
        .ok ((requestsOf cfg.bOpenSocketForEveryCommand remoteTag cfg.nextCommandID calls).map
          NumberedRequest.line, cfg') ∧
        (cfg'.pSocket = .deleted ↔ Loses cfg.bOpenSocketForEveryCommand calls)) ∧
      (¬ Renewed cfg.bOpenSocketForEveryCommand calls →
        runCalls remoteTag cfg calls = .error .outOfBounds) := by
  induction calls generalizing cfg with
  | nil =>
    refine ⟨fun _ => ⟨cfg, rfl, ?_⟩, fun hnot => absurd (fun _ c hc => by cases hc) hnot⟩
    simp [Loses, husable.2]
  | cons first calls ih =>
    obtain ⟨call, net⟩ := first
    obtain ⟨hroom, hrooms⟩ := List.forall_mem_cons.mp hrooms
    by_cases hconnects : cfg.bOpenSocketForEveryCommand = true → net.connects = true
    · obtain ⟨sent, cfg₁, hrun, hsent, hnumber, husable₁, hsetting⟩ :=
        run_sent remoteTag call hroom husable hconnects
      obtain ⟨-, hsetting', hskipped⟩ := prepare_eq call cfg
      rw [hskipped] at hsent hnumber
      rw [hsetting'] at hsetting
      obtain ⟨hrenewed, hloses⟩ := renewed_cons call calls hconnects
      have hkept : (cfg.bOpenSocketForEveryCommand && !net.connects) = false := by
        cases hset : cfg.bOpenSocketForEveryCommand with
        | false => rfl
        | true => rw [hconnects hset]; rfl
      have hrest := ih husable₁ hrooms
      rw [hsetting, hnumber] at hrest
      rw [hrenewed, hloses, runCalls, Fault.bind_ok hrun, requestsOf, hkept, if_neg Bool.false_ne_true]
      dsimp only
      refine ⟨fun hr => ?_, fun hr => ?_⟩
      · obtain ⟨cfg', hcalls, hlost⟩ := hrest.1 hr
        refine ⟨cfg', ?_, hlost⟩
        rw [Fault.bind_ok hcalls, hsent]
        rfl
      · rw [Fault.bind_error (hrest.2 hr)]
    · obtain ⟨hsetting, hfails⟩ := Classical.not_imp.mp hconnects
      have hconnects : net.connects = false := Bool.eq_false_iff.mpr hfails
      obtain ⟨cfg₁, hrun, hdeleted⟩ := run_lost remoteTag call hroom husable hsetting hconnects
      rw [runCalls, Fault.bind_ok hrun, requestsOf, hsetting, hconnects]
      cases calls with
      | nil =>
        refine ⟨fun _ => ⟨cfg₁, rfl, ?_⟩, fun hnot => absurd (fun _ c hc => by cases hc) hnot⟩
        simp [Loses, hdeleted, hconnects]
      | cons next calls =>
        obtain ⟨nextCall, nextNet⟩ := next
        refine ⟨fun hr => ?_, fun _ => ?_⟩
        · have hfirst := hr rfl (call, net) (by simp)
          exact absurd hfirst hfails
        · dsimp only
          rw [runCalls, Fault.bind_error (run_deleted (List.forall_mem_cons.mp hrooms).1 hdeleted)]
          rfl

/-- The calls before the first one that cannot renew the socket. -/
def answered (bOpenSocketForEveryCommand : Bool) (calls : List (RemoteCall × Network)) :
    List (RemoteCall × Network) :=
  calls.takeWhile fun c => !(bOpenSocketForEveryCommand && !c.2.connects)

/-- The requests are those of the calls that are answered, in order. -/
theorem requestsOf_parts (bOpenSocketForEveryCommand : Bool) (id : UInt32)
    (calls : List (RemoteCall × Network)) :
    (requestsOf bOpenSocketForEveryCommand remoteTag id calls).map NumberedRequest.toRequestParts =
      (answered bOpenSocketForEveryCommand calls).map fun c => c.1.request remoteTag := by
  induction calls generalizing id with
  | nil => rfl
  | cons first calls ih =>
    obtain ⟨call, net⟩ := first
    rw [requestsOf, answered]
    cases hkept : bOpenSocketForEveryCommand && !net.connects with
    | true => rw [if_pos rfl, List.takeWhile_cons_of_neg (by simp [hkept]), List.map_nil, List.map_nil]
    | false =>
      rw [if_neg Bool.false_ne_true, List.takeWhile_cons_of_pos (by simp [hkept]), List.map_cons,
        List.map_cons,
        ih, answered]

theorem skipped_le (call : RemoteCall) : call.skipped ≤ 1 := by
  cases call <;> simp [RemoteCall.skipped]

/-- Numbers go up, at most by two for each call. -/
theorem requestsOf_numbers (remoteTag : Text) (bOpenSocketForEveryCommand : Bool) (id : UInt32)
    (calls : List (RemoteCall × Network))
    (hcount : id.toNat + 2 * calls.length < 2 ^ 32) :
    ((requestsOf bOpenSocketForEveryCommand remoteTag id calls).map fun r =>
      r.uniqueCmdID.toNat).Pairwise (· < ·) ∧
      ∀ r ∈ requestsOf bOpenSocketForEveryCommand remoteTag id calls, id.toNat < r.uniqueCmdID.toNat := by
  induction calls generalizing id with
  | nil => exact ⟨List.Pairwise.nil, fun r hr => by cases hr⟩
  | cons first calls ih =>
    obtain ⟨call, net⟩ := first
    have hskipped := skipped_le call
    rw [List.length_cons] at hcount
    have hnumber : (id + UInt32.ofNat call.skipped + 1).toNat = id.toNat + call.skipped + 1 := by
      simp only [UInt32.toNat_add, UInt32.toNat_ofNat', UInt32.toNat_one]
      omega
    obtain ⟨hpairwise, hlarger⟩ := ih (id + UInt32.ofNat call.skipped + 1) (by omega)
    rw [requestsOf]
    split_ifs
    · exact ⟨List.Pairwise.nil, fun r hr => by cases hr⟩
    · rw [List.map_cons, List.pairwise_cons, List.forall_mem_cons, hnumber]
      rw [hnumber] at hlarger
      refine ⟨⟨?_, hpairwise⟩, by omega, fun r hr => by have := hlarger r hr; omega⟩
      intro n hn
      obtain ⟨r, hr, rfl⟩ := List.mem_map.mp hn
      exact hlarger r hr

/-- The proxy is there when the library is loaded, and is sent a string. -/
def Live (remoteTag : Text) (reachable : Bool) (net : Network) : Prop :=
  reachable = true ∧ remoteTag ≠ [] ∧ net.connects = true

/-- The requests of a run, the personalization first. -/
def loadedRequests (bOpenSocketForEveryCommand : Bool) (remoteTag : Text)
    (calls : List (RemoteCall × Network)) :
    List NumberedRequest :=
  ⟨⟨noReader, cmdPersonalize, remoteTag⟩, 2⟩ :: requestsOf bOpenSocketForEveryCommand remoteTag 2 calls

/-- Without a socket nothing is sent. -/
theorem runCalls_null (hnull : cfg.pSocket = .null) (calls : List (RemoteCall × Network)) :
    runCalls remoteTag cfg calls = .ok ([], cfg) := by
  induction calls with
  | nil => rfl
  | cons first calls ih =>
    rw [runCalls, Fault.bind_ok (run_null hnull), Fault.bind_ok ih]
    rfl

/-- Without a string or a connection there is no socket afterwards. -/
theorem remoteConnect_not_live {reachable : Bool} (bOpenSocketForEveryCommand : Bool)
    (hlive : ¬ Live remoteTag reachable net) : ∃ cfg',
      remoteConnect ⟨bOpenSocketForEveryCommand, .null, 1⟩ remoteTag reachable net = .ok ([], cfg') ∧
        cfg'.pSocket = .null := by
  unfold remoteConnect
  split_ifs with hreachable htag
  · have hconnects : net.connects = false :=
      Bool.eq_false_iff.mpr fun hc => hlive ⟨hreachable, List.ne_nil_of_length_pos htag, hc⟩
    rw [RemoteConfig.remoteSendRequest, RemoteConfig.openSocket, hconnects]
    exact ⟨_, rfl, rfl⟩
  · exact ⟨_, rfl, rfl⟩
  · exact ⟨_, rfl, rfl⟩

/-- A proxy that can be reached gets the personalization string. -/
theorem remoteConnect_live {reachable : Bool} (bOpenSocketForEveryCommand : Bool)
    (hlive : Live remoteTag reachable net) : ∃ cfg',
      remoteConnect ⟨bOpenSocketForEveryCommand, .null, 1⟩ remoteTag reachable net =
          .ok ([(NumberedRequest.mk ⟨noReader, cmdPersonalize, remoteTag⟩ 2).line], cfg') ∧
        Usable cfg'.pSocket ∧ cfg'.nextCommandID = 2 ∧
          cfg'.bOpenSocketForEveryCommand = bOpenSocketForEveryCommand := by
  obtain ⟨hreachable, htag, hconnects⟩ := hlive
  have hopen : (RemoteConfig.mk bOpenSocketForEveryCommand .null 1).openSocket net.connects =
      .ok (.connected [], true) := by
    rw [RemoteConfig.openSocket, hconnects]
    rfl
  obtain ⟨request, hrequest, hsent, hnumber, husable, hsetting⟩ := remoteSendRequest_sent hopen
    ⟨SocketPointer.noConfusion, SocketPointer.noConfusion⟩ ⟨noReader, cmdPersonalize, remoteTag⟩ []
  refine ⟨request.cfg, ?_, husable, hnumber, hsetting⟩
  rw [remoteConnect, if_pos hreachable, if_pos (List.length_pos_of_ne_nil htag), Fault.bind_ok hrequest,
    hsent]
  rfl

/-- Only a socket that has been deleted is deleted again. -/
theorem unload_error_iff (cfg : RemoteConfig) : unload cfg = .error .outOfBounds ↔
    cfg.pSocket = .deleted := by
  cases hp : cfg.pSocket <;> simp [unload, hp]

/-- The requests of a run have numbers of their own and are read back. -/
theorem loadedRequests_read (bOpenSocketForEveryCommand : Bool) (calls : List (RemoteCall × Network))
    (hcount : 2 + 2 * calls.length < 2 ^ 32)
    (htag : 0 ∉ remoteTag) (hreaders : ∀ c ∈ calls,
      124 ∉ (c.1.request remoteTag).targetReader ∧ 0 ∉ (c.1.request remoteTag).targetReader) :
    ((loadedRequests bOpenSocketForEveryCommand remoteTag calls).map NumberedRequest.uniqueCmdID).Nodup ∧
      ∀ r ∈ loadedRequests bOpenSocketForEveryCommand remoteTag calls, readRequest r.line = some r := by
  obtain ⟨hpairwise, hlarger⟩ := requestsOf_numbers remoteTag bOpenSocketForEveryCommand 2 calls hcount
  constructor
  · have hnumbers : ((loadedRequests bOpenSocketForEveryCommand remoteTag calls).map
        fun r => r.uniqueCmdID.toNat).Pairwise (· < ·) := by
      rw [loadedRequests, List.map_cons, List.pairwise_cons]
      refine ⟨fun n hn => ?_, hpairwise⟩
      obtain ⟨r, hr, rfl⟩ := List.mem_map.mp hn
      exact hlarger r hr
    rw [List.pairwise_map] at hnumbers
    rw [List.Nodup, List.pairwise_map]
    exact hnumbers.imp fun h heq => (heq ▸ h).ne rfl
  · intro r hr
    rcases List.mem_cons.mp hr with rfl | hr
    · exact readRequest_line _ ⟨(by decide : 124 ∉ noReader), (by decide : 58 ∉ cmdPersonalize),
        (by decide : 0 ∉ noReader), (by decide : 0 ∉ cmdPersonalize), htag⟩
    · have hparts := List.mem_map_of_mem (f := NumberedRequest.toRequestParts) hr
      rw [requestsOf_parts] at hparts
      obtain ⟨c, hc, heq⟩ := List.mem_map.mp hparts
      have hc : c ∈ calls := (List.takeWhile_sublist _).subset hc
      exact readRequest_line r (heq ▸ separable_request c.1 (hreaders c hc))

/-- Over a whole run from loading to unloading. Without a personalization string, or if it
cannot be sent, nothing is ever sent and nothing fails. Otherwise the run uses a deleted
socket exactly if a call follows one that could not connect again, and unloading deletes
one twice exactly if that was the last call; else each call sends its request, in order,
under a number of its own, and all of them are read back from their lines. -/
theorem runLoaded_requests (bOpenSocketForEveryCommand : Bool) (remoteTag : Text) (reachable : Bool)
    (net : Network)
    (calls : List (RemoteCall × Network)) (hcount : 2 + 2 * calls.length < 2 ^ 32)
    (hrooms : ∀ c ∈ calls, c.1.HasRoom c.2) (htag : 0 ∉ remoteTag) (hreaders : ∀ c ∈ calls,
      124 ∉ (c.1.request remoteTag).targetReader ∧ 0 ∉ (c.1.request remoteTag).targetReader) :
    (¬ Live remoteTag reachable net →
      ∃ cfg', runLoaded bOpenSocketForEveryCommand remoteTag reachable net calls = .ok ([], cfg') ∧
        unload cfg' = .ok ()) ∧
    (Live remoteTag reachable net → ¬ Renewed bOpenSocketForEveryCommand calls →
      runLoaded bOpenSocketForEveryCommand remoteTag reachable net calls = .error .outOfBounds) ∧
    (Live remoteTag reachable net → Renewed bOpenSocketForEveryCommand calls →
      ∃ (lines : List Text) (requests : List NumberedRequest) (cfg' : RemoteConfig),
        runLoaded bOpenSocketForEveryCommand remoteTag reachable net calls = .ok (lines, cfg') ∧
        lines.map readRequest = requests.map some ∧
        (requests.map NumberedRequest.uniqueCmdID).Nodup ∧
        requests.map NumberedRequest.toRequestParts = ⟨noReader, cmdPersonalize, remoteTag⟩ ::
          (answered bOpenSocketForEveryCommand calls).map (fun c => c.1.request remoteTag) ∧
        (unload cfg' = .error .outOfBounds ↔ Loses bOpenSocketForEveryCommand calls)) := by
  refine ⟨fun hlive => ?_, fun hlive hnot => ?_, fun hlive hr => ?_⟩
  · obtain ⟨cfg', hconnect, hnull⟩ := remoteConnect_not_live bOpenSocketForEveryCommand hlive
    refine ⟨cfg', ?_, ?_⟩
    · rw [runLoaded, Fault.bind_ok hconnect, Fault.bind_ok (runCalls_null hnull calls)]
      rfl
    · rw [unload, hnull]
  · obtain ⟨cfg', hconnect, husable, hnumber, hsetting⟩ := remoteConnect_live bOpenSocketForEveryCommand hlive
    have hcalls := (runCalls_usable remoteTag husable calls hrooms).2 (hsetting.symm ▸ hnot)
    rw [runLoaded, Fault.bind_ok hconnect, Fault.bind_error hcalls]
  · obtain ⟨cfg', hconnect, husable, hnumber, hsetting⟩ := remoteConnect_live bOpenSocketForEveryCommand hlive
    have hcalls := (runCalls_usable remoteTag husable calls hrooms).1
    rw [hsetting, hnumber] at hcalls
    obtain ⟨cfg'', hcalls, hlost⟩ := hcalls hr
    obtain ⟨hnodup, hread⟩ := loadedRequests_read bOpenSocketForEveryCommand calls hcount htag hreaders
    refine ⟨(loadedRequests bOpenSocketForEveryCommand remoteTag calls).map NumberedRequest.line,
      loadedRequests bOpenSocketForEveryCommand remoteTag calls, cfg'', ?_, ?_, hnodup, ?_, ?_⟩
    · rw [runLoaded, Fault.bind_ok hconnect, Fault.bind_ok hcalls]
      rfl
    · rw [List.map_map]
      exact List.map_congr_left hread
    · rw [loadedRequests, List.map_cons, requestsOf_parts]
    · rw [unload_error_iff, hlost]

/-- A card is reset and sent an APDU. -/
def resetAndTransmit : List (RemoteCall × Network) :=
  [(.scardConnect (ascii "R"), ⟨true, [], []⟩),
    (.scardTransmit (ascii "R") [0] (List.replicate 260 0) 260, ⟨false, [], []⟩)]

/-- The second connection fails. -/
theorem runLoaded_requests_lost :
    ∃ (lines : List Text) (requests : List NumberedRequest) (cfg' : RemoteConfig),
      runLoaded true (ascii "tag") true ⟨true, [], []⟩ resetAndTransmit = .ok (lines, cfg') ∧
      lines.map readRequest = requests.map some ∧ (requests.map NumberedRequest.uniqueCmdID).Nodup ∧
      requests.map NumberedRequest.toRequestParts =
        [⟨noReader, cmdPersonalize, ascii "tag"⟩, ⟨ascii "R", cmdReset, []⟩] ∧
      unload cfg' = .error .outOfBounds := by
  obtain ⟨lines, requests, cfg', hrun, hread, hnodup, hparts, hunload⟩ :=
    (runLoaded_requests true (ascii "tag") true ⟨true, [], []⟩ resetAndTransmit (by decide)
      (by simp [resetAndTransmit, RemoteCall.HasRoom, -List.reduceReplicate]) (by decide) (by decide)).2.2
        ⟨rfl, by decide, rfl⟩ (by simp [Renewed, resetAndTransmit, -List.reduceReplicate])
  exact ⟨lines, requests, cfg', hrun, hread, hnodup, hparts,
    hunload.mpr (by simp [Loses, resetAndTransmit, -List.reduceReplicate])⟩

end ApduPlay.RemoteLifetimes
