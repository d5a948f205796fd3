import ApduPlay.HandleRouting
import ApduPlay.Library.HiddenSteps
import ApduPlay.ResponseReadout

/-!
# What the original library is asked

Calls for local readers and cards go on to the original library, which may be any
machine, and calls for remote ones go to the proxy or are answered at once. With
rules and readouts switched off the application cannot tell the library from the
original one in what it does with local readers.
-/

namespace ApduPlay.ForwardedCalls

open ApduRules CardSession HandleRouting HiddenSteps ResponseReadout Transmit

/-- `SCARD_SHARE_SHARED` -/
def scardShareShared : UInt32 := 2

/-- `SCARD_SPECIFIC` -/
def scardSpecific : UInt32 := 6

/-- `SCARD_PROTOCOL_T1` -/
def scardProtocolT1 : UInt32 := 2

/-- The functions that are forwarded unless their card is remote. -/
inductive CardCall
  /-- `SCardReconnect` -/
  | reconnect
  /-- `SCardBeginTransaction` -/
  | beginTransaction
  /-- `SCardEndTransaction` -/
  | endTransaction
  /-- `SCardCancelTransaction` -/
  | cancelTransaction
  /-- `SCardControl` -/
  | control
  /-- `SCardGetAttrib` -/
  | getAttrib
  /-- `SCardSetAttrib` -/
  | setAttrib
  /-- `SCardDisconnect` -/
  | disconnect
  /-- `SCardStatus` -/
  | status
  /-- `SCardStatusW` -/
  | statusW
  /-- `SCardState` -/
  | state
  deriving DecidableEq, Repr

/-- The functions that are always forwarded. -/
inductive ContextCall
  /-- `SCardIsValidContext` -/
  | isValidContext
  /-- `SCardCancel` -/
  | cancel
  /-- `SCardListReaderGroups` -/
  | listReaderGroups
  /-- `SCardListReaderGroupsW` -/
  | listReaderGroupsW
  deriving DecidableEq, Repr

/-- Arguments of a call for a card, and what its out parameters point to. -/
structure CardArgs (α : Type) where
  /-- `*pdwState` -/
  pdwState : UInt32
  /-- `*pdwProtocol` -/
  pdwProtocol : UInt32
  /-- Everything else. -/
  other : α

/-- A call of the application. -/
inductive Request (α : Type)
  /-- `SCardEstablishContext` -/
  | establishContext (args : α)
  /-- `SCardReleaseContext` -/
  | releaseContext (hContext : CardContext)
  /-- `SCardConnect` -/
  | connect (hContext : CardContext) (szReader : Text) (dwShareMode : UInt32) (args : α)
  /-- A function for a card. -/
  | onCard (call : CardCall) (hCard : CardHandle) (args : CardArgs α)
  /-- `SCardTransmit` -/
  | transmit (hCard : CardHandle) (pbSendBuffer : List UInt8) (cbSendLength : UInt32)
    (pbRecvBuffer : List UInt8)
    (pcbRecvLength : UInt32)
  /-- A function that is always forwarded. -/
  | forwarded (call : ContextCall) (args : α)

/-- What the application gets back. -/
inductive Reply (α : Type)
  /-- A status, and the out parameters. -/
  | done (status : Status) (args : α)
  /-- A status. -/
  | released (status : Status)
  /-- A status, the handle and the other out parameters. -/
  | connected (status : Status) (phCard : CardHandle) (args : α)
  /-- A status, and the out parameters of a function for a card. -/
  | onCard (status : Status) (args : CardArgs α)
  /-- A status, the memory of the buffer and its length variable. -/
  | transmitted (status : Status) (pbRecvBuffer : List UInt8) (pcbRecvLength : UInt32)

/-- The original library. -/
structure OriginalLibrary (σ α : Type) where
  /-- `Original_SCardEstablishContext` -/
  establishContext : σ → α → (Status × α) × σ
  /-- `Original_SCardReleaseContext` -/
  releaseContext : σ → CardContext → Status × σ
  /-- `Original_SCardConnect` -/
  connect : σ → CardContext → Text → UInt32 → α → (Status × CardHandle × α) × σ
  /-- The functions for cards. -/
  onCard : CardCall → σ → CardHandle → CardArgs α → (Status × CardArgs α) × σ
  /-- `Original_SCardTransmit` -/
  transmit : σ → CardHandle → List UInt8 → UInt32 → Answer × σ
  /-- The other functions. -/
  forwarded : ContextCall → σ → α → (Status × α) × σ

/-- The proxy with the remote cards. -/
structure RemoteProxy (ρ : Type) where
  /-- The response to a reset. -/
  reset : ρ → Text → Text × ρ
  /-- An APDU for a reader. -/
  transmit : ρ → Text → List UInt8 → UInt32 → Answer × ρ

/-- The library between the application and the original one. -/
structure Shim (σ ρ : Type) where
  /-- Tables of handles. -/
  session : Session
  /-- Rules and history. -/
  app : WinscardApp
  /-- State of the original library. -/
  original : σ
  /-- State of the proxy. -/
  proxy : ρ

/-- The settings. -/
structure ShimConfig extends TransmitConfig where
  /-- `bFORCE_CONNECT_SHARED_MODE` -/
  forceConnectSharedMode : Bool

variable {σ ρ α : Type}

/-- Where APDUs go. -/
def link (original : OriginalLibrary σ α) (proxy : RemoteProxy ρ) : Link (σ × ρ) :=
  fun world hCard destination command length =>
    match destination with
    | .originalLibrary =>
      let answer := original.transmit world.1 hCard command length
      (answer.1, (answer.2, world.2))
    | .remoteReader name =>
      let answer := proxy.transmit world.2 name command length
      (answer.1, (world.1, answer.2))

/-- What a remote card answers to the functions that do nothing for it. -/
def remoteArgs (call : CardCall) (args : CardArgs α) : CardArgs α :=
  match call with
  | .status => { args with pdwState := scardSpecific, pdwProtocol := scardProtocolT1 }
  | _ => args

variable (cfg : ShimConfig) (original : OriginalLibrary σ α) (proxy : RemoteProxy ρ)
  (locals : Locals) (fuel : ℕ)

/-- The share mode that is asked for. -/
def shareMode (dwShareMode : UInt32) : UInt32 :=
  if cfg.forceConnectSharedMode then scardShareShared else dwShareMode

/-- `SCardConnect` -/
def Shim.connect (shim : Shim σ ρ) (hContext : CardContext) (szReader : Text) (dwShareMode : UInt32)
    (args : α) :
    Reply α × Shim σ ρ :=
  if shim.session.isRemoteReader szReader then
    let response := proxy.reset shim.proxy szReader
    let connected := shim.session.scardConnect szReader (scardSSuccess, 0) response.1
    (.connected connected.1 connected.2.1 args, { shim with session := connected.2.2, proxy := response.2 })
  else
    let answer := original.connect shim.original hContext szReader (shareMode cfg dwShareMode) args
    let connected := shim.session.scardConnect szReader (answer.1.1, answer.1.2.1) []
    (.connected connected.1 connected.2.1 answer.1.2.2,
      { shim with session := connected.2.2, original := answer.2 })

/-- `SCardTransmit` -/
def Shim.transmit (shim : Shim σ ρ) (hCard : CardHandle) (pbSendBuffer : List UInt8) (cbSendLength : UInt32)
    (pbRecvBuffer : List UInt8) (pcbRecvLength : UInt32) : Except Fault (Reply α × Shim σ ρ) := do
  let v : Exchange (σ × ρ) :=
    ⟨shim.app, shim.session, (shim.original, shim.proxy), pbRecvBuffer, pcbRecvLength, scardSSuccess, []⟩
  match ← scardTransmit cfg.toTransmitConfig (link original proxy) hCard locals fuel v pbSendBuffer
    cbSendLength with
  | none => .error .endlessLoop
  | some v => return (.transmitted v.result v.pbRecvBuffer v.pcbRecvLength,
    ⟨v.session, v.app, v.card.1, v.card.2⟩)

/-- One call of the application. -/
def Shim.step (shim : Shim σ ρ) : Request α → Except Fault (Reply α × Shim σ ρ)
  | .establishContext args =>
    let answer := original.establishContext shim.original args
    .ok (.done answer.1.1 answer.1.2,
      { shim with session := shim.session.remoteSCardReleaseContext, original := answer.2 })
  | .releaseContext hContext =>
    let answer := original.releaseContext shim.original hContext
    .ok (.released answer.1,
      { shim with session := shim.session.remoteSCardReleaseContext, original := answer.2 })
  | .connect hContext szReader dwShareMode args =>
    .ok (shim.connect cfg original proxy hContext szReader dwShareMode args)
  | .onCard call hCard args =>
    if shim.session.isRemoteCard hCard then .ok (.onCard scardSSuccess (remoteArgs call args), shim)
    else
      let answer := original.onCard call shim.original hCard args
      .ok (.onCard answer.1.1 answer.1.2, { shim with original := answer.2 })
  | .transmit hCard pbSendBuffer cbSendLength pbRecvBuffer pcbRecvLength =>
    shim.transmit cfg original proxy locals fuel hCard pbSendBuffer cbSendLength pbRecvBuffer pcbRecvLength
  | .forwarded call args =>
    let answer := original.forwarded call shim.original args
    .ok (.done answer.1.1 answer.1.2, { shim with original := answer.2 })

/-- The length of a response, which is zero after a failure. -/
def keptLength (answer : Answer) : UInt32 := if answer.status ≠ scardSSuccess then 0 else answer.length

/-- One call of an application that uses the original library alone. The length of a
response is zero after a failure, and the share mode is the one that is asked for. -/
def direct (s : σ) : Request α → Reply α × σ
  | .establishContext args =>
    let answer := original.establishContext s args
    (.done answer.1.1 answer.1.2, answer.2)
  | .releaseContext hContext =>
    let answer := original.releaseContext s hContext
    (.released answer.1, answer.2)
  | .connect hContext szReader dwShareMode args =>
    let answer := original.connect s hContext szReader (shareMode cfg dwShareMode) args
    (.connected answer.1.1 answer.1.2.1 answer.1.2.2, answer.2)
  | .onCard call hCard args =>
    let answer := original.onCard call s hCard args
    (.onCard answer.1.1 answer.1.2, answer.2)
  | .transmit hCard pbSendBuffer cbSendLength pbRecvBuffer pcbRecvLength =>
    let answer := original.transmit s hCard (pbSendBuffer.take cbSendLength.toNat) pcbRecvLength
    (.transmitted answer.1.status (Buffer.overwrite pbRecvBuffer 0 answer.1.bytes) (keptLength answer.1),
      answer.2)
  | .forwarded call args =>
    let answer := original.forwarded call s args
    (.done answer.1.1 answer.1.2, answer.2)

/-- Nothing is changed on the way. -/
def ShimConfig.Plain : Prop :=
  cfg.modifyApduByRules = false ∧ cfg.forceApduNonzeroInputData = false ∧ cfg.autoRequestData = false

/-- The calls that reach the original library. -/
def forwarded (shim : Shim σ ρ) : Request α → Bool
  | .connect _ szReader _ _ => !shim.session.isRemoteReader szReader
  | .onCard _ hCard _ => !shim.session.isRemoteCard hCard
  | .transmit hCard _ _ _ _ => !shim.session.isRemoteCard hCard
  | _ => true

/-- The calls that should reach it: readers that are not virtual, and handles that are
not numbers of remote cards. -/
def isLocal (listVirtualReaders : List Text) : Request α → Bool
  | .connect _ szReader _ _ => !listVirtualReaders.contains szReader
  | .onCard _ hCard _ => decide (UInt32.size ≤ hCard.toNat) || listVirtualReaders.isEmpty
  | .transmit hCard _ _ _ _ => decide (UInt32.size ≤ hCard.toNat) || listVirtualReaders.isEmpty
  | _ => true

/-- The library as it is loaded. -/
def Shim.loaded (listVirtualReaders : List Text) (socket : Bool) (app : WinscardApp) (s : σ)
    (r : ρ) : Shim σ ρ :=
  ⟨Session.initial listVirtualReaders socket, app, s, r⟩

/-- A response stays inside what is announced for it. -/
def KeepsLength (answer : Answer) (length : UInt32) : Prop :=
  answer.bytes.length ≤ length.toNat ∧ (answer.status = scardSSuccess → answer.length.toNat ≤ length.toNat)

/-- The buffers of a transmit are as long as announced and no longer than the buffers of
the library. -/
def Request.Fits : Request α → Prop
  | .transmit _ pbSendBuffer cbSendLength pbRecvBuffer pcbRecvLength =>
    cbSendLength.toNat ≤ min pbSendBuffer.length maxApduLength ∧
      pcbRecvLength.toNat ≤ min pbRecvBuffer.length maxApduLength
  | _ => True

section Exchanges

variable {v v' : Exchange σ} {tcfg : TransmitConfig} {tlink : Link σ} {hCard : CardHandle} {tlocals : Locals}
  {rounds : ℕ} {pbSendBuffer : List UInt8} {cbSendLength : UInt32}

/-- Everything read or written in a call lies inside its buffer. -/
structure InBounds (v : Exchange σ) (answer : Answer) (pbSendBuffer : List UInt8) (cbSendLength : UInt32) :
    Prop where
  /-- The command is there. -/
  command : cbSendLength.toNat ≤ pbSendBuffer.length
  /-- It can be saved. -/
  saved : cbSendLength.toNat ≤ maxApduLength
  /-- There is room for the response. -/
  response : answer.bytes.length ≤ v.pbRecvBuffer.length
  /-- It is in the caller's buffer. -/
  kept : (keptLength answer).toNat ≤ v.pbRecvBuffer.length
  /-- It can be saved. -/
  savedResponse : (keptLength answer).toNat ≤ maxApduLength

theorem save_eq_ok {apdu : List UInt8} {saved : ApduBuffer} (h : ApduBuffer.save apdu = .ok saved) :
    apdu.length ≤ maxApduLength := by
  unfold ApduBuffer.save at h
  split_ifs at h with hlength
  exact hlength

/-- A command that is sent was read and saved. -/
theorem sendCommand_inBounds (h : sendCommand tcfg tlink hCard tlocals v pbSendBuffer cbSendLength = .ok v') :
    cbSendLength.toNat ≤ pbSendBuffer.length ∧ cbSendLength.toNat ≤ maxApduLength := by
  unfold sendCommand at h
  obtain ⟨apdu, hread, h⟩ := Fault.of_bind_ok h
  obtain ⟨saved, hsave, h⟩ := Fault.of_bind_ok h
  obtain ⟨hlength, rfl⟩ := Buffer.read_eq_ok hread
  have hsaved := save_eq_ok hsave
  rw [List.length_take, List.length_drop] at hsaved
  omega

/-- A response that is saved is there. -/
theorem finish_inBounds (h : finish tcfg tlocals v = .ok v') :
    (if v.result ≠ scardSSuccess then 0 else v.pcbRecvLength).toNat ≤ v.pbRecvBuffer.length ∧
      (if v.result ≠ scardSSuccess then 0 else v.pcbRecvLength).toNat ≤ maxApduLength := by
  unfold finish at h
  obtain ⟨apdu, hread, h⟩ := Fault.of_bind_ok h
  obtain ⟨saved, hsave, h⟩ := Fault.of_bind_ok h
  obtain ⟨hlength, rfl⟩ := Buffer.read_eq_ok hread
  have hsaved := save_eq_ok hsave
  rw [List.length_take, List.length_drop] at hsaved
  omega

/-- Without rules nothing else happens to it. -/
theorem finish_plain (hmodify : tcfg.modifyApduByRules = false)
    (hlength : (if v.result ≠ scardSSuccess then 0 else v.pcbRecvLength).toNat ≤ v.pbRecvBuffer.length)
    (hmax : (if v.result ≠ scardSSuccess then 0 else v.pcbRecvLength).toNat ≤ maxApduLength) :
    ∃ app, finish tcfg tlocals v =
      .ok { v with app := app, pcbRecvLength :=
        if v.result ≠ scardSSuccess then 0 else v.pcbRecvLength } := by
  generalize hkept : (if v.result ≠ scardSSuccess then 0 else v.pcbRecvLength) = kept at hlength hmax ⊢
  have hsize : ((v.pbRecvBuffer.drop 0).take kept.toNat).length ≤ maxApduLength := by
    rw [List.length_take, List.length_drop]
    omega
  refine ⟨{ v.app with apduOutList := ApduBuffer.padded _ hsize :: v.app.apduOutList }, ?_⟩
  unfold finish
  rw [hkept]
  refine (Fault.bind_ok (Buffer.read_ok (by omega))).trans
    ((Fault.bind_ok (ApduBuffer.save_ok hsize)).trans ?_)
  exact if_neg (by rw [hmodify]; exact Bool.false_ne_true)

/-- Without readouts a response stays as it is. -/
theorem readout_plain (hauto : tcfg.autoRequestData = false) (v : Exchange σ) :
    readout tcfg tlink hCard rounds v = .ok (some v) :=
  if_neg fun hboth => by simp [hauto] at hboth

/-- Where a command goes and what comes back. -/
def received (tlink : Link σ) (hCard : CardHandle) (v : Exchange σ) (pbSendBuffer : List UInt8)
    (cbSendLength : UInt32) : Answer × σ :=
  tlink v.card hCard (v.session.transmitDestination hCard).1 (pbSendBuffer.take cbSendLength.toNat)
    v.pcbRecvLength

/-- The variables after a command that is sent as it is. -/
def answered (tlink : Link σ) (hCard : CardHandle) (v : Exchange σ) (pbSendBuffer : List UInt8)
    (cbSendLength : UInt32) (app : WinscardApp) : Exchange σ :=
  let answer := received tlink hCard v pbSendBuffer cbSendLength
  let dest := v.session.transmitDestination hCard
  ⟨app, dest.2, answer.2, Buffer.overwrite v.pbRecvBuffer 0 answer.1.bytes, answer.1.length,
    answer.1.status, v.sent ++ [(dest.1, pbSendBuffer.take cbSendLength.toNat)]⟩

/-- A command is sent as it is. -/
theorem sendCommand_answered (hmodify : tcfg.modifyApduByRules = false)
    (hforce : tcfg.forceApduNonzeroInputData = false) (hcommand : cbSendLength.toNat ≤ pbSendBuffer.length)
    (hsaved : cbSendLength.toNat ≤ maxApduLength)
    (hresponse : (received tlink hCard v pbSendBuffer cbSendLength).1.bytes.length ≤ v.pbRecvBuffer.length) :
    ∃ app, sendCommand tcfg tlink hCard tlocals v pbSendBuffer cbSendLength =
      .ok (answered tlink hCard v pbSendBuffer cbSendLength app) := by
  obtain ⟨app, hplain⟩ : ∃ app, sendCommand tcfg tlink hCard tlocals v pbSendBuffer cbSendLength =
      transmitTo tlink hCard { v with app := app } (pbSendBuffer.take cbSendLength.toNat) 0 :=
    sendCommand_plain hmodify hforce hcommand hsaved
  exact ⟨app, hplain.trans (Fault.bind_ok (Buffer.write_ok (by rw [Nat.zero_add]; exact hresponse)))⟩

/-- There is room for a response that was received. -/
theorem response_room (hmodify : tcfg.modifyApduByRules = false)
    (hforce : tcfg.forceApduNonzeroInputData = false)
    (h : sendCommand tcfg tlink hCard tlocals v pbSendBuffer cbSendLength = .ok v') :
    (received tlink hCard v pbSendBuffer cbSendLength).1.bytes.length ≤ v.pbRecvBuffer.length := by
  obtain ⟨hcommand, hsaved⟩ := sendCommand_inBounds h
  obtain ⟨app, hplain⟩ : ∃ app, sendCommand tcfg tlink hCard tlocals v pbSendBuffer cbSendLength =
      transmitTo tlink hCard { v with app := app } (pbSendBuffer.take cbSendLength.toNat) 0 :=
    sendCommand_plain hmodify hforce hcommand hsaved
  rw [hplain] at h
  obtain ⟨buf, hwrite, -⟩ := Fault.of_bind_ok h
  have hroom := (Buffer.write_eq_ok hwrite).1
  rwa [Nat.zero_add] at hroom

variable (hmodify : tcfg.modifyApduByRules = false) (hforce : tcfg.forceApduNonzeroInputData = false)
  (hauto : tcfg.autoRequestData = false)

include hmodify hforce hauto

/-- Without rules, forced data and readouts an APDU and its response are handed on. -/
theorem scardTransmit_plain
    (h : InBounds v (received tlink hCard v pbSendBuffer cbSendLength).1 pbSendBuffer cbSendLength) :
    ∃ app, scardTransmit tcfg tlink hCard tlocals rounds v pbSendBuffer cbSendLength =
      .ok (some { answered tlink hCard v pbSendBuffer cbSendLength app with
        pcbRecvLength := keptLength (received tlink hCard v pbSendBuffer cbSendLength).1 }) := by
  obtain ⟨app, hsend⟩ : ∃ app, sendCommand tcfg tlink hCard tlocals v pbSendBuffer cbSendLength =
      .ok (answered tlink hCard v pbSendBuffer cbSendLength app) :=
    sendCommand_answered hmodify hforce h.command h.saved h.response
  have hbuf : (answered tlink hCard v pbSendBuffer cbSendLength app).pbRecvBuffer.length =
      v.pbRecvBuffer.length :=
    Buffer.length_overwrite (by rw [Nat.zero_add]; exact h.response)
  have hkept := h.kept
  rw [← hbuf] at hkept
  obtain ⟨app', hfinish⟩ : ∃ app',
    finish tcfg tlocals (answered tlink hCard v pbSendBuffer cbSendLength app) =
      .ok { answered tlink hCard v pbSendBuffer cbSendLength app with
        app := app'
        pcbRecvLength := keptLength (received tlink hCard v pbSendBuffer cbSendLength).1 } :=
    finish_plain hmodify hkept h.savedResponse
  refine ⟨app', ?_⟩
  unfold scardTransmit
  exact (Fault.bind_ok hsend).trans ((Fault.bind_ok (readout_plain hauto _)).trans (Fault.bind_ok hfinish))

/-- A call without a fault stays in all buffers. -/
theorem inBounds_of_ok {r : Option (Exchange σ)}
    (h : scardTransmit tcfg tlink hCard tlocals rounds v pbSendBuffer cbSendLength = .ok r) :
    InBounds v (received tlink hCard v pbSendBuffer cbSendLength).1 pbSendBuffer cbSendLength := by
  unfold scardTransmit at h
  obtain ⟨v₁, hsend, h⟩ := Fault.of_bind_ok h
  obtain ⟨hcommand, hsaved⟩ := sendCommand_inBounds hsend
  have hresponse := response_room hmodify hforce hsend
  obtain ⟨app, hanswered⟩ : ∃ app, sendCommand tcfg tlink hCard tlocals v pbSendBuffer cbSendLength =
      .ok (answered tlink hCard v pbSendBuffer cbSendLength app) :=
    sendCommand_answered hmodify hforce hcommand hsaved hresponse
  rw [hanswered] at hsend
  cases hsend
  rw [Fault.bind_ok (readout_plain hauto _)] at h
  obtain ⟨v₂, hfinish, -⟩ := Fault.of_bind_ok h
  obtain ⟨hkept, hsavedResponse⟩ := finish_inBounds hfinish
  have hbuf : (answered tlink hCard v pbSendBuffer cbSendLength app).pbRecvBuffer.length =
      v.pbRecvBuffer.length :=
    Buffer.length_overwrite (by rw [Nat.zero_add]; exact hresponse)
  rw [hbuf] at hkept
  exact ⟨hcommand, hsaved, hresponse, hkept, hsavedResponse⟩

end Exchanges

variable {cfg original proxy locals fuel} {shim shim' : Shim σ ρ} {hCard : CardHandle}
  {pbSendBuffer pbRecvBuffer : List UInt8} {cbSendLength pcbRecvLength : UInt32} {reply : Reply α}

/-- The variables at the start of a transmit. -/
def Shim.exchange (shim : Shim σ ρ) (pbRecvBuffer : List UInt8) (pcbRecvLength : UInt32) : Exchange (σ × ρ) :=
  ⟨shim.app, shim.session, (shim.original, shim.proxy), pbRecvBuffer, pcbRecvLength, scardSSuccess, []⟩

/-- What a transmit gives. -/
theorem transmit_ok (hplain : cfg.Plain)
    (h : shim.transmit cfg original proxy locals fuel hCard pbSendBuffer cbSendLength pbRecvBuffer
      pcbRecvLength = .ok (reply, shim')) :
    let answer := received (link original proxy) hCard (shim.exchange pbRecvBuffer pcbRecvLength) pbSendBuffer
      cbSendLength
    reply = .transmitted answer.1.status (Buffer.overwrite pbRecvBuffer 0 answer.1.bytes)
      (keptLength answer.1) ∧
      shim'.original = answer.2.1 ∧ shim'.session = (shim.session.transmitDestination hCard).2 := by
  obtain ⟨hmodify, hforce, hauto⟩ := hplain
  obtain ⟨r, hr, h⟩ := Fault.of_bind_ok h
  obtain ⟨app, hpassed⟩ := scardTransmit_plain hmodify hforce hauto (inBounds_of_ok hmodify hforce hauto hr)
  cases hr.symm.trans hpassed
  cases h
  exact ⟨rfl, rfl, rfl⟩

/-- A transmit for a local card is one of the original library. -/
theorem transmit_forwarded (hplain : cfg.Plain) (hlocal : shim.session.isRemoteCard hCard = false)
    (h : shim.transmit cfg original proxy locals fuel hCard pbSendBuffer cbSendLength pbRecvBuffer
      pcbRecvLength = .ok (reply, shim')) :
    direct cfg original shim.original (.transmit hCard pbSendBuffer cbSendLength pbRecvBuffer pcbRecvLength) =
      (reply, shim'.original) := by
  obtain ⟨rfl, hshim, -⟩ := transmit_ok hplain h
  have hdest : shim.session.transmitDestination hCard = (.originalLibrary, shim.session) := by
    rw [Session.transmitDestination, if_neg (by rw [hlocal]; exact Bool.false_ne_true)]
  rw [hshim, received, Shim.exchange]
  dsimp only
  rw [hdest]
  rfl

/-- A transmit for a remote card does not reach it. -/
theorem transmit_hidden (hplain : cfg.Plain) (hremote : shim.session.isRemoteCard hCard = true)
    (h : shim.transmit cfg original proxy locals fuel hCard pbSendBuffer cbSendLength pbRecvBuffer
      pcbRecvLength = .ok (reply, shim')) : shim'.original = shim.original := by
  obtain ⟨-, hshim, -⟩ := transmit_ok hplain h
  rw [hshim, received, Shim.exchange]
  dsimp only
  rw [Session.transmitDestination, if_pos hremote]
  rfl

/-- A transmit that fits is no fault. -/
theorem transmit_fits (hplain : cfg.Plain)
    (hcommand : cbSendLength.toNat ≤ min pbSendBuffer.length maxApduLength)
    (hresponse : pcbRecvLength.toNat ≤ min pbRecvBuffer.length maxApduLength)
    (hlink : ∀ world destination command, KeepsLength
      (link original proxy world hCard destination command pcbRecvLength).1 pcbRecvLength) :
    ∃ (reply : Reply α) (shim' : Shim σ ρ), shim.transmit cfg original proxy locals fuel hCard pbSendBuffer
      cbSendLength pbRecvBuffer pcbRecvLength = .ok (reply, shim') := by
  obtain ⟨hmodify, hforce, hauto⟩ := hplain
  obtain ⟨hbytes, hlength⟩ : KeepsLength (received (link original proxy) hCard
      (shim.exchange pbRecvBuffer pcbRecvLength) pbSendBuffer cbSendLength).1 pcbRecvLength := hlink _ _ _
  have hkept : (keptLength (received (link original proxy) hCard (shim.exchange pbRecvBuffer pcbRecvLength)
      pbSendBuffer cbSendLength).1).toNat ≤ pcbRecvLength.toNat := by
    unfold keptLength
    split_ifs with hfailed
    · exact Nat.zero_le _
    · exact hlength (not_not.mp hfailed)
  have hsize : pbRecvBuffer.length = (shim.exchange pbRecvBuffer pcbRecvLength).pbRecvBuffer.length := rfl
  obtain ⟨app, hpassed⟩ : ∃ app, scardTransmit cfg.toTransmitConfig (link original proxy) hCard locals fuel
      (shim.exchange pbRecvBuffer pcbRecvLength) pbSendBuffer cbSendLength = .ok (some _) :=
    scardTransmit_plain hmodify hforce hauto
      ⟨by omega, by omega, by omega, by omega, by omega⟩
  exact ⟨_, _, Fault.bind_ok hpassed⟩

/-- The library seen from the original one. -/
theorem shows (hplain : cfg.Plain) : Shows (Shim.step cfg original proxy locals fuel) (direct cfg original)
    forwarded Shim.original where
  visible shim request reply shim' hforwarded h := by
    cases request with
    | establishContext args | releaseContext hContext | forwarded call args =>
      cases h
      rfl
    | connect hContext szReader dwShareMode args =>
      have hlocal : shim.session.isRemoteReader szReader = false := by simpa [forwarded] using hforwarded
      have hstep : shim.connect cfg original proxy hContext szReader dwShareMode args = (reply, shim') :=
        Except.ok.inj h
      rw [Shim.connect, if_neg (by simp [hlocal])] at hstep
      cases hstep
      simp [direct, Session.scardConnect, hlocal]
    | onCard call hCard args =>
      have hlocal : shim.session.isRemoteCard hCard = false := by simpa [forwarded] using hforwarded
      rw [Shim.step, if_neg (by simp [hlocal])] at h
      cases h
      rfl
    | transmit hCard pbSendBuffer cbSendLength pbRecvBuffer pcbRecvLength =>
      exact transmit_forwarded hplain (by simpa [forwarded] using hforwarded) h
  hidden shim request reply shim' hforwarded h := by
    cases request with
    | establishContext args | releaseContext hContext | forwarded call args => cases hforwarded
    | connect hContext szReader dwShareMode args =>
      have hremote : shim.session.isRemoteReader szReader = true := by simpa [forwarded] using hforwarded
      have hstep : shim.connect cfg original proxy hContext szReader dwShareMode args = (reply, shim') :=
        Except.ok.inj h
      rw [Shim.connect, if_pos hremote] at hstep
      cases hstep
      rfl
    | onCard call hCard args =>
      have hremote : shim.session.isRemoteCard hCard = true := by simpa [forwarded] using hforwarded
      rw [Shim.step, if_pos hremote] at h
      cases h
      rfl
    | transmit hCard pbSendBuffer cbSendLength pbRecvBuffer pcbRecvLength =>
      exact transmit_hidden hplain (by simpa [forwarded] using hforwarded) h

/-- The handles in the table are numbers of virtual readers. -/
structure Numbered (listVirtualReaders : List Text) (shim : Shim σ ρ) : Prop where
  /-- The readers are those of the settings. -/
  readers : shim.session.listVirtualReaders = listVirtualReaders
  /-- A remote handle is a number, and there is a reader for it. -/
  handles : ∀ hCard, shim.session.isRemoteCard hCard = true →
    hCard.toNat < UInt32.size ∧ listVirtualReaders ≠ []

variable {listVirtualReaders : List Text}

theorem numbered_loaded (socket : Bool) (app : WinscardApp) (s : σ) (r : ρ) :
    Numbered listVirtualReaders (Shim.loaded listVirtualReaders socket app s r) :=
  ⟨rfl, fun _ h => nomatch h⟩

/-- Only the names and the table of remote handles matter. -/
theorem Numbered.of_session (h : Numbered listVirtualReaders shim)
    (hreaders : shim'.session.listVirtualReaders = shim.session.listVirtualReaders)
    (hremote : shim'.session.remoteReadersMap = shim.session.remoteReadersMap) :
    Numbered listVirtualReaders shim' := by
  refine ⟨hreaders.trans h.readers, fun hCard hCard' => h.handles hCard ?_⟩
  rwa [Session.isRemoteCard, hremote] at hCard'

theorem listVirtualReaders_transmitDestination (s : Session) (hCard : CardHandle) :
    (s.transmitDestination hCard).2.listVirtualReaders = s.listVirtualReaders := by
  unfold Session.transmitDestination Session.getReaderName
  split_ifs
  · cases s.cardReaderMap hCard <;> rfl
  · rfl

/-- A new remote handle is a number. -/
theorem numbered_connect (h : Numbered listVirtualReaders shim) (hContext : CardContext) (szReader : Text)
    (dwShareMode : UInt32) (args : α) :
    Numbered listVirtualReaders (shim.connect cfg original proxy hContext szReader dwShareMode args).2 := by
  unfold Shim.connect
  split_ifs with hremote
  · obtain ⟨hreaders, hhandles⟩ := h
    have hmem : szReader ∈ listVirtualReaders := by
      rw [Session.isRemoteReader, hreaders, List.contains_iff_mem] at hremote
      exact hremote
    refine ⟨?_, fun hCard hCard' => ?_⟩
    · simp [Session.scardConnect, hremote, Session.addRemoteCard, Session.storeReader, hreaders]
    · simp only [Session.scardConnect, hremote, if_true, Session.addRemoteCard, Session.storeReader] at hCard'
      have hentry : (hCard == (shim.session.nextRemoteCardID + 1).toUInt64 ||
        shim.session.isRemoteCard hCard) =
          true :=
        (isRemoteCard_update shim.session hCard (shim.session.nextRemoteCardID + 1).toUInt64
          szReader).symm.trans
          hCard'
      rw [Bool.or_eq_true, beq_iff_eq] at hentry
      refine ⟨?_, List.ne_nil_of_mem hmem⟩
      obtain rfl | hold := hentry
      · exact UInt32.toNat_lt _
      · exact (hhandles hCard hold).1
  · refine h.of_session ?_ ?_ <;> simp [Session.scardConnect, hremote, Session.storeReader]

/-- Every call keeps the handles apart. -/
theorem numbered_step (hplain : cfg.Plain) (request : Request α) (h : Numbered listVirtualReaders shim)
    (hstep : shim.step cfg original proxy locals fuel request = .ok (reply, shim')) :
    Numbered listVirtualReaders shim' := by
  cases request with
  | establishContext args | releaseContext hContext =>
    cases hstep
    exact ⟨h.readers, fun _ hremote => nomatch hremote⟩
  | forwarded call args =>
    cases hstep
    exact h.of_session rfl rfl
  | connect hContext szReader dwShareMode args =>
    have hkept : Numbered listVirtualReaders
        (shim.connect cfg original proxy hContext szReader dwShareMode args).2 :=
      numbered_connect h hContext szReader dwShareMode args
    rwa [show shim.connect cfg original proxy hContext szReader dwShareMode args = (reply, shim') from
      Except.ok.inj hstep] at hkept
  | onCard call hCard args =>
    rw [Shim.step] at hstep
    split_ifs at hstep <;> cases hstep <;> exact h.of_session rfl rfl
  | transmit hCard pbSendBuffer cbSendLength pbRecvBuffer pcbRecvLength =>
    obtain ⟨-, -, hsession⟩ := transmit_ok hplain hstep
    refine h.of_session ?_ ?_
    · rw [hsession, listVirtualReaders_transmitDestination]
    · rw [hsession, remoteReadersMap_transmitDestination]

/-- Calls for local readers and cards are forwarded. -/
theorem forwarded_of_isLocal (h : Numbered listVirtualReaders shim) {request : Request α}
    (hlocal : isLocal listVirtualReaders request = true) : forwarded shim request = true := by
  have hhandle (hCard : CardHandle)
      (hCard' : (decide (UInt32.size ≤ hCard.toNat) || listVirtualReaders.isEmpty) = true) :
      shim.session.isRemoteCard hCard = false := by
    rw [Bool.or_eq_true, decide_eq_true_iff, List.isEmpty_iff] at hCard'
    refine Bool.eq_false_iff.mpr fun hremote => ?_
    obtain ⟨hnumber, hreaders⟩ := h.handles hCard hremote
    obtain hlarge | hnone := hCard'
    · omega
    · exact hreaders hnone
  cases request with
  | establishContext args | releaseContext hContext | forwarded call args => rfl
  | connect hContext szReader dwShareMode args =>
    rw [forwarded, Session.isRemoteReader, h.readers]
    exact hlocal
  | onCard call hCard args => simp [forwarded, hhandle hCard hlocal]
  | transmit hCard pbSendBuffer cbSendLength pbRecvBuffer pcbRecvLength =>
    simp [forwarded, hhandle hCard hlocal]

/-- A call that fits is no fault. -/
theorem step_fits (hplain : cfg.Plain) (request : Request α) (hfits : request.Fits)
    (hlink : ∀ world hCard destination command length,
      KeepsLength (link original proxy world hCard destination command length).1 length) (shim : Shim σ ρ) :
    ∃ reply shim', shim.step cfg original proxy locals fuel request = .ok (reply, shim') := by
  cases request with
  | transmit hCard pbSendBuffer cbSendLength pbRecvBuffer pcbRecvLength =>
    exact transmit_fits hplain hfits.1 hfits.2 fun world destination command =>
      hlink world hCard destination command _
  | onCard call hCard args =>
    rw [Shim.step]
    split_ifs <;> exact ⟨_, _, rfl⟩
  | establishContext args | releaseContext hContext | forwarded call args
  | connect hContext szReader dwShareMode args => exact ⟨_, _, rfl⟩

/-- With rules and readouts switched off the calls that are forwarded are answered as
the original library alone answers them, whatever happens in between, and every call
for a local reader or card is among them. No call is a fault if all buffers fit. -/
theorem run_forwarded (hplain : cfg.Plain) (listVirtualReaders : List Text) (socket : Bool)
    (app : WinscardApp)
    (s : σ) (r : ρ) (requests : List (Request α)) :
    (∀ events shim', run (Shim.step cfg original proxy locals fuel)
        (Shim.loaded listVirtualReaders socket app s r) requests = .ok (events, shim') →
      events.map Event.request = requests ∧
        runTotal (direct cfg original) s ((shownEvents forwarded events).map Event.request) =
          ((shownEvents forwarded events).map Event.answer, shim'.original) ∧
        ∀ e ∈ events, isLocal listVirtualReaders e.request = true → forwarded e.state e.request = true) ∧
      ((∀ world hCard destination command length,
          KeepsLength (link original proxy world hCard destination command length).1 length) →
        (∀ request ∈ requests, request.Fits) →
        ∃ events shim', run (Shim.step cfg original proxy locals fuel)
          (Shim.loaded listVirtualReaders socket app s r) requests = .ok (events, shim')) := by
  refine ⟨fun events shim' h => ⟨run_requests h, (shows hplain).run h, fun e he hlocal => ?_⟩, ?_⟩
  · have hnumbered := run_invariant (I := Numbered listVirtualReaders)
      (fun shim request reply shim' => numbered_step hplain request) (numbered_loaded socket app s r) h
    exact forwarded_of_isLocal (hnumbered e he) hlocal
  · exact fun hlink hfits => run_ok fun request hrequest shim =>
      step_fits hplain request (hfits request hrequest) hlink shim

/-- A library that counts the calls. -/
def countingLibrary : OriginalLibrary ℕ Unit where
  establishContext n _ := ((scardSSuccess, ()), n + 1)
  releaseContext n _ := (scardSSuccess, n + 1)
  connect n _ _ _ _ := ((scardSSuccess, 0xEA00000000, ()), n + 1)
  onCard _ n _ args := ((scardSSuccess, args), n + 1)
  transmit n _ _ length := (⟨scardSSuccess, [0x90, 0x00].take length.toNat,
    if length < 2 then length else 2⟩, n + 1)
  forwarded _ n _ := ((scardSSuccess, ()), n + 1)

/-- A proxy whose cards answer nothing. -/
def silentProxy : RemoteProxy Unit where
  reset _ _ := ([], ())
  transmit _ _ _ _ := (⟨scardSSuccess, [], 0⟩, ())

/-- Nothing is switched on. -/
def plainConfig : ShimConfig := ⟨⟨false, false, false⟩, false⟩

/-- A virtual reader and a real one are used in turn. -/
def bothReaders : List (Request Unit) :=
  [.connect 1 (ascii "v") 2 (), .connect 1 (ascii "r") 2 (), .transmit 2 [0, 0xA4, 4, 0] 4 [0, 0] 2,
    .transmit 0xEA00000000 [0, 0xA4, 4, 0] 4 [0, 0] 2, .onCard .disconnect 2 ⟨0, 0, ()⟩]

theorem run_forwarded_bothReaders : ∃ events shim',
    run (Shim.step plainConfig countingLibrary silentProxy ⟨.zero, .zero, .zero⟩ 1)
      (Shim.loaded [ascii "v"] true ⟨true, [], [], []⟩ 0 ()) bothReaders = .ok (events, shim') ∧
    runTotal (direct plainConfig countingLibrary) 0 ((shownEvents forwarded events).map Event.request) =
      ((shownEvents forwarded events).map Event.answer, shim'.original) := by
  obtain ⟨hshown, htotal⟩ := @run_forwarded ℕ Unit Unit plainConfig countingLibrary silentProxy
    ⟨.zero, .zero, .zero⟩ 1 ⟨rfl, rfl, rfl⟩ [ascii "v"] true ⟨true, [], [], []⟩ 0 () bothReaders
  obtain ⟨events, shim', hrun⟩ := htotal
    (by
      intro world hCard destination command length
      cases destination with
      | originalLibrary =>
        refine ⟨List.length_take_le _ _, fun _ => ?_⟩
        change (if length < 2 then length else 2).toNat ≤ length.toNat
        split_ifs with hshort
        · exact Nat.le_refl _
        · exact Nat.not_lt.mp fun hlt => hshort (UInt32.lt_iff_toNat_lt.mpr hlt)
      | remoteReader name => exact ⟨Nat.zero_le _, fun _ => Nat.zero_le _⟩)
    (by
      intro request hrequest
      simp only [bothReaders, List.mem_cons, List.not_mem_nil, or_false] at hrequest
      obtain rfl | rfl | rfl | rfl | rfl := hrequest <;> simp [Request.Fits, maxApduLength])
  exact ⟨events, shim', hrun, (hshown events shim' hrun).2.1⟩

end ApduPlay.ForwardedCalls
