import ApduPlay.ApduRules
import ApduPlay.CardSession

/-!
# Exchanging an APDU

`SCardTransmit` applies the rules for incoming APDUs, sends the command to the
original library or to the remote proxy, reads out further response data on
behalf of the reader if that is switched on, and applies the rules for outgoing
APDUs. What lies behind the two destinations is an argument.
-/

namespace ApduPlay.Transmit

open ApduRules CardSession

/-- The settings used by `SCardTransmit`. -/
structure TransmitConfig where
  /-- `bMODIFY_APDU_BY_RULES` -/
  modifyApduByRules : Bool
  /-- `bFORCE_APDU_NONZERO_INPUT_DATA` -/
  forceApduNonzeroInputData : Bool
  /-- `bAUTO_REQUEST_DATA` -/
  autoRequestData : Bool

/-- What a transmit leaves behind. -/
structure Answer where
  /-- Returned status. -/
  status : Status
  /-- Bytes written to the place passed for the response. -/
  bytes : List UInt8
  /-- The length variable. -/
  length : UInt32

/-- How cards answer, for the original library and for every remote reader:
state of the world, handle, destination, command and length variable. -/
abbrev Link (σ : Type) := σ → CardHandle → Destination → List UInt8 → UInt32 → Answer × σ

/-- What local variables contain before they are written. -/
structure Locals where
  /-- `sendBuffer` -/
  sendBuffer : ApduBuffer
  /-- `newBuffer` when the incoming rules are applied. -/
  newBufferIn : ApduBuffer
  /-- `newBuffer` when the outgoing rules are applied. -/
  newBufferOut : ApduBuffer

/-- The variables that change during a call. -/
structure Exchange (σ : Type) where
  /-- Rules and history. -/
  app : WinscardApp
  /-- Tables of card handles. -/
  session : Session
  /-- State of what lies behind the destinations. -/
  card : σ
  /-- Memory of the caller's buffer. -/
  pbRecvBuffer : List UInt8
  /-- The length variable of the caller. -/
  pcbRecvLength : UInt32
  /-- Status of the last transmit. -/
  result : Status
  /-- Commands sent so far and where to. -/
  sent : List (Destination × List UInt8)

variable {σ : Type} (cfg : TransmitConfig) (link : Link σ) (hCard : CardHandle) (locals : Locals)

/-- Send a command; the response goes to the caller's buffer from an offset on. -/
def transmitTo (v : Exchange σ) (command : List UInt8) (offset : ℕ) : Except Fault (Exchange σ) := do
  let dest := v.session.transmitDestination hCard
  let answer := link v.card hCard dest.1 command v.pcbRecvLength
  let buf ← Buffer.write .outOfBounds v.pbRecvBuffer offset answer.1.bytes
  return { v with
    session := dest.2
    card := answer.2
    pbRecvBuffer := buf
    pcbRecvLength := answer.1.length
    result := answer.1.status
    sent := v.sent ++ [(dest.1, command)] }

/-- The rules for incoming APDUs, if they are used. -/
def applyIncoming (app : WinscardApp) (sendBuffer : List UInt8) (cbSendLength : UInt32) :
    Except Fault (List UInt8 × UInt32) :=
  if cfg.modifyApduByRules then app.applyRules locals.newBufferIn sendBuffer cbSendLength inputApdu
  else .ok (sendBuffer, cbSendLength)

/-- If required, at least one byte is sent to a local card. -/
def forceData (isRemote : Bool) (sendBuffer : List UInt8) (cbSendLength : UInt32) : List UInt8 × UInt32 :=
  if ¬ isRemote ∧ cfg.forceApduNonzeroInputData ∧ cbSendLength < 6 then
    ((sendBuffer.set 4 1).set 5 0, cbSendLength + 1)
  else (sendBuffer, cbSendLength)

/-- Save the incoming APDU, apply the rules to it and send it. -/
def sendCommand (v : Exchange σ) (pbSendBuffer : List UInt8) (cbSendLength : UInt32) :
    Except Fault (Exchange σ) := do
  let apdu ← Buffer.read .outOfBounds pbSendBuffer 0 cbSendLength.toNat
  let saved ← ApduBuffer.save apdu
  let app := { v.app with apduInList := saved :: v.app.apduInList }
  let sendBuffer ← Buffer.write .outOfBounds locals.sendBuffer.buffer 0 apdu
  let ruled ← applyIncoming cfg locals app sendBuffer cbSendLength
  let forced := forceData cfg (v.session.isRemoteCard hCard) ruled.1 ruled.2
  let command ← Buffer.read .outOfBounds forced.1 0 forced.2.toNat
  transmitTo link hCard { v with app := app } command 0

/-- Number of bytes that a response announces. Zero stands for 254. -/
def announced (sw2 : UInt8) : UInt8 := if sw2 = 0 then 254 else sw2

/-- GET DATA APDU -/
def getResponse (le : UInt8) : List UInt8 := [0x00, 0xC0, 0x00, 0x00, le]

/-- The loop that reads out all data, for a number of rounds. -/
def readoutLoop : ℕ → Exchange σ → UInt32 → Except Fault (Option (Exchange σ))
  | 0, _, _ => .ok none
  | fuel + 1, v, recvOffset => do
    let sw1 ← byteAt v.pbRecvBuffer recvOffset.toNat
    if sw1 = 0x61 ∨ sw1 = 0x6C then
      let sw2 ← byteAt v.pbRecvBuffer (v.pcbRecvLength - 1).toNat
      let le := announced sw2
      let v ← transmitTo link hCard { v with pcbRecvLength := le.toUInt32 + 2 } (getResponse le)
        recvOffset.toNat
      readoutLoop fuel v (v.pcbRecvLength - 2)
    else return some v

/-- Data are read out on behalf of the reader after a response of two bytes. -/
def readout (fuel : ℕ) (v : Exchange σ) : Except Fault (Option (Exchange σ)) :=
  if v.pcbRecvLength = 2 ∧ cfg.autoRequestData then readoutLoop link hCard fuel v 0 else .ok (some v)

/-- Save the outgoing APDU and apply the rules to it. -/
def finish (v : Exchange σ) : Except Fault (Exchange σ) := do
  let pcbRecvLength := if v.result ≠ scardSSuccess then 0 else v.pcbRecvLength
  let apdu ← Buffer.read .outOfBounds v.pbRecvBuffer 0 pcbRecvLength.toNat
  let saved ← ApduBuffer.save apdu
  let app := { v.app with apduOutList := saved :: v.app.apduOutList }
  if cfg.modifyApduByRules then
    let ruled ← app.applyRules locals.newBufferOut v.pbRecvBuffer pcbRecvLength outputApdu
    return { v with app := app, pbRecvBuffer := ruled.1, pcbRecvLength := ruled.2 }
  else return { v with app := app, pcbRecvLength := pcbRecvLength }

/-- `SCardTransmit`, with a bound on the rounds of the readout. -/
def scardTransmit (fuel : ℕ) (v : Exchange σ) (pbSendBuffer : List UInt8) (cbSendLength : UInt32) :
    Except Fault (Option (Exchange σ)) := do
  let v ← sendCommand cfg link hCard locals v pbSendBuffer cbSendLength
  match ← readout cfg link hCard fuel v with
  | none => return none
  | some v => return some (← finish cfg locals v)

end ApduPlay.Transmit
