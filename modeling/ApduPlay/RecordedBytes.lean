import Mathlib.Data.List.Forall2
import ApduPlay.ResponseReadout
import ApduPlay.SuppliedBytes

/-!
# Bytes that conditions refer to

The history keeps every APDU in a cleared buffer of the same size, and the
status of a lookup is ignored. A condition on a byte that was never exchanged
is compared with what lies in its place, and a lookup may leave the history
altogether.
-/

namespace ApduPlay.RecordedBytes

open ApduRules CardSession ResponseReadout RuleEvaluation SuppliedBytes Transmit
open HistoryLookup (getApduFromHistory_in getApduFromHistory_out testMatch_eq)

/-- APDUs exchanged so far, the last ones first. -/
structure Exchanged where
  /-- As the application sent them. -/
  commands : List (List UInt8)
  /-- As the card answered, empty for a transmit that failed. -/
  responses : List (List UInt8)
  deriving DecidableEq, Repr

/-- The APDUs of a direction. -/
def Exchanged.apdus (exchanged : Exchanged) (apduDirection : ℤ) : List (List UInt8) :=
  if apduDirection = inputApdu then exchanged.commands else exchanged.responses

/-- The byte that a condition refers to, if it was exchanged. -/
def Exchanged.byte (exchanged : Exchanged) (r : ApduSingleRule) : Option UInt8 :=
  if 0 ≤ r.history ∧ 0 ≤ r.element then
    (exchanged.apdus r.apduDirection)[r.history.toNat]?.bind fun apdu => apdu[r.element.toNat]?
  else none

/-- What lies in place of a byte that was not. A negative number stands for the
last APDU. -/
def Exchanged.substitute (exchanged : Exchanged) (r : ApduSingleRule) : UInt8 :=
  if r.history < 0 then
    ((exchanged.apdus r.apduDirection)[0]?.bind fun apdu => apdu[r.element.toNat]?).getD 0
  else 0

/-- The lookup ends, and the place is inside the buffer. -/
def Exchanged.LooksAt (exchanged : Exchanged) (r : ApduSingleRule) : Prop :=
  0 ≤ r.element ∧ r.element < maxApduLength ∧
    if r.apduDirection = inputApdu then r.history ≤ exchanged.commands.length
    else r.history ≤ 0 ∧ exchanged.responses ≠ []

/-- The condition expects what lies in place of a byte that was not exchanged. -/
def Exchanged.Misleading (exchanged : Exchanged) (r : ApduSingleRule) : Prop :=
  exchanged.byte r = none ∧ r.value = exchanged.substitute r

/-- The lookup leaves the list, or the place is outside the buffer, so that any
byte may be found. A lookup that never ends finds none. -/
def Exchanged.Strays (exchanged : Exchanged) (r : ApduSingleRule) : Prop :=
  if r.apduDirection = inputApdu then
    exchanged.commands.length < r.history ∨ ¬ (0 ≤ r.element ∧ r.element < maxApduLength)
  else r.history ≤ 0 ∧ (exchanged.responses = [] ∨ ¬ (0 ≤ r.element ∧ r.element < maxApduLength))

/-- The condition is tested with success. -/
def Exchanged.Passes (exchanged : Exchanged) (r : ApduSingleRule) : Prop :=
  exchanged.LooksAt r ∧ (exchanged.byte r = some r.value ∨ exchanged.Misleading r)

/-- A rule for this direction has a misleading condition, and all its others
are met or misleading too. Or one of its lookups strays, and the conditions
before it are met or misleading. -/
def Exchanged.Misleads (exchanged : Exchanged) (direction : ℤ) (rule : ApduRule) : Prop :=
  (rule.direction = direction ∧ rule.usage = 1) ∧
    (((∃ r ∈ rule.matchRules, exchanged.Misleading r) ∧ ∀ r ∈ rule.matchRules, exchanged.Passes r) ∨
      ∃ before r after, rule.matchRules = before ++ r :: after ∧ (∀ b ∈ before, exchanged.Passes b) ∧
        exchanged.Strays r)

/-- One call of `ApplyRules`, with what was exchanged before it. -/
structure Pass where
  /-- Rules and history. -/
  app : WinscardApp
  /-- Exchanged APDUs. -/
  exchanged : Exchanged
  /-- `newBuffer` before it is written. -/
  newBuffer : ApduBuffer
  /-- Memory of the APDU. -/
  pbBuffer : List UInt8
  /-- Its length. -/
  pcbLength : UInt32
  /-- Its direction. -/
  direction : ℤ

/-- What the call leaves, if rules are used. -/
def Pass.ruled (p : Pass) (cfg : TransmitConfig) : Except Fault (List UInt8 × UInt32) :=
  if cfg.modifyApduByRules then p.app.applyRules p.newBuffer p.pbBuffer p.pcbLength p.direction
  else .ok (p.pbBuffer, p.pcbLength)

/-- A computation succeeds, or it leaves an object, after which anything may
happen. It does not hang or stop. -/
def GoesOn {α : Type} (e : Except Fault α) : Prop :=
  ∀ fault, e = .error fault → fault = .outOfBounds

/-- The evaluation of the rules before this one goes on. -/
def Pass.Reaches (p : Pass) (rule : ApduRule) : Prop :=
  p.app.rulesActive = true ∧ ∃ before after, p.app.rulesList = before ++ rule :: after ∧
    GoesOn (before.foldlM (p.app.applyRule p.direction)
      ⟨copied p.newBuffer p.pbBuffer p.pcbLength, p.pcbLength, false⟩)

/-- The rule is used, and its conditions are tested with success or with a
lookup that strays. -/
def Pass.MayFire (p : Pass) (rule : ApduRule) : Prop :=
  p.Reaches rule ∧ (rule.direction = p.direction ∧ rule.usage = 1) ∧
    (p.app.testAllMatch rule.matchRules = .ok true ∨
      p.app.testAllMatch rule.matchRules = .error .outOfBounds)

/-- Every rule that may fire compares bytes that were exchanged, and rightly. -/
def Pass.FiresOnRecorded (p : Pass) : Prop :=
  ∀ rule, p.MayFire rule → ∀ r ∈ rule.matchRules, p.exchanged.byte r = some r.value

variable {σ : Type}

/-- The call of `ApplyRules` before a command is sent. -/
def incomingPass (locals : Locals) (v : Exchange σ) (exchanged : Exchanged) (pbSendBuffer : List UInt8)
    (cbSendLength : UInt32) : Except Fault Pass := do
  let apdu ← Buffer.read .outOfBounds pbSendBuffer 0 cbSendLength.toNat
  let saved ← ApduBuffer.save apdu
  let sendBuffer ← Buffer.write .outOfBounds locals.sendBuffer.buffer 0 apdu
  return ⟨afterIncoming v saved, { exchanged with commands := apdu :: exchanged.commands },
    locals.newBufferIn, sendBuffer, cbSendLength, inputApdu⟩

/-- The call of `ApplyRules` for the response. -/
def outgoingPass (locals : Locals) (v : Exchange σ) (exchanged : Exchanged) : Except Fault Pass := do
  let pcbRecvLength := if v.result ≠ scardSSuccess then 0 else v.pcbRecvLength
  let apdu ← Buffer.read .outOfBounds v.pbRecvBuffer 0 pcbRecvLength.toNat
  let saved ← ApduBuffer.save apdu
  return ⟨afterOutgoing v saved, { exchanged with responses := apdu :: exchanged.responses },
    locals.newBufferOut, v.pbRecvBuffer, pcbRecvLength, outputApdu⟩

/-- A run of exchanges. Other calls in between leave rules and history alone. -/
inductive Run (cfg : TransmitConfig) (link : Link σ) : WinscardApp → Exchanged → Prop
  /-- Nothing exchanged yet. -/
  | start {app : WinscardApp} (hin : app.apduInList = []) (hout : app.apduOutList = []) :
    Run cfg link app ⟨[], []⟩
  /-- One more call of `SCardTransmit`. -/
  | exchange {hCard : CardHandle} {locals : Locals} {fuel : ℕ} {v v₁ v₂ v₃ : Exchange σ}
    {pbSendBuffer : List UInt8} {cbSendLength : UInt32} {exchanged : Exchanged} {p q : Pass}
    (before : Run cfg link v.app exchanged)
    (hin : incomingPass locals v exchanged pbSendBuffer cbSendLength = .ok p)
    (hsend : sendCommand cfg link hCard locals v pbSendBuffer cbSendLength = .ok v₁)
    (hread : readout cfg link hCard fuel v₁ = .ok (some v₂))
    (hout : outgoingPass locals v₂ p.exchanged = .ok q)
    (hfinish : finish cfg locals v₂ = .ok v₃) : Run cfg link v₃.app q.exchanged

/-- The calls of `ApplyRules` in runs. -/
inductive Pass.Occurs (cfg : TransmitConfig) (link : Link σ) : Pass → Prop
  /-- Before a command is sent. -/
  | incoming {locals : Locals} {v : Exchange σ} {pbSendBuffer : List UInt8} {cbSendLength : UInt32}
    {exchanged : Exchanged} {p : Pass} (hmodify : cfg.modifyApduByRules = true)
    (before : Run cfg link v.app exchanged)
    (hin : incomingPass locals v exchanged pbSendBuffer cbSendLength = .ok p) : Occurs cfg link p
  /-- After the response. -/
  | outgoing {hCard : CardHandle} {locals : Locals} {fuel : ℕ} {v v₁ v₂ : Exchange σ}
    {pbSendBuffer : List UInt8} {cbSendLength : UInt32} {exchanged : Exchanged} {p q : Pass}
    (hmodify : cfg.modifyApduByRules = true) (before : Run cfg link v.app exchanged)
    (hin : incomingPass locals v exchanged pbSendBuffer cbSendLength = .ok p)
    (hsend : sendCommand cfg link hCard locals v pbSendBuffer cbSendLength = .ok v₁)
    (hread : readout cfg link hCard fuel v₁ = .ok (some v₂))
    (hout : outgoingPass locals v₂ p.exchanged = .ok q) : Occurs cfg link q

variable {cfg : TransmitConfig} {link : Link σ} {hCard : CardHandle} {locals : Locals}
  {fuel : ℕ} {v v₁ v₂ v₃ : Exchange σ} {pbSendBuffer : List UInt8} {cbSendLength : UInt32}
  {app : WinscardApp} {exchanged : Exchanged} {p q : Pass} {r : ApduSingleRule} {rule : ApduRule}

/-- A command is sent after the call for it. -/
theorem sendCommand_eq (exchanged : Exchanged) :
    sendCommand cfg link hCard locals v pbSendBuffer cbSendLength = (do
      let p ← incomingPass locals v exchanged pbSendBuffer cbSendLength
      let ruled ← p.ruled cfg
      let forced := forceData cfg (v.session.isRemoteCard hCard) ruled.1 ruled.2
      let command ← Buffer.read .outOfBounds forced.1 0 forced.2.toNat
      transmitTo link hCard { v with app := p.app } command 0) := by
  unfold sendCommand incomingPass
  simp only [bind_assoc, pure_bind]
  rfl

/-- A call ends after the call of `ApplyRules` for the response. -/
theorem finish_eq (exchanged : Exchanged) :
    finish cfg locals v = (do
      let p ← outgoingPass locals v exchanged
      let ruled ← p.ruled cfg
      return { v with app := p.app, pbRecvBuffer := ruled.1, pcbRecvLength := ruled.2 }) := by
  unfold finish outgoingPass Pass.ruled
  simp only [bind_assoc, pure_bind]
  split_ifs <;> rfl

/-- The history consists of the exchanged APDUs in cleared buffers. -/
def Keeps (app : WinscardApp) (exchanged : Exchanged) : Prop :=
  List.Forall₂ (fun apdu buffer => ApduBuffer.save apdu = .ok buffer) exchanged.commands app.apduInList ∧
    List.Forall₂ (fun apdu buffer => ApduBuffer.save apdu = .ok buffer) exchanged.responses app.apduOutList

/-- The history goes on with the command. -/
theorem keeps_incoming (h : Keeps v.app exchanged)
    (hin : incomingPass locals v exchanged pbSendBuffer cbSendLength = .ok p) :
    Keeps p.app p.exchanged := by
  obtain ⟨apdu, -, hin⟩ := Fault.of_bind_ok hin
  obtain ⟨saved, hsaved, hin⟩ := Fault.of_bind_ok hin
  obtain ⟨sendBuffer, -, hin⟩ := Fault.of_bind_ok hin
  cases hin
  exact ⟨.cons hsaved h.1, h.2⟩

/-- It goes on with the response. -/
theorem keeps_outgoing (h : Keeps v.app exchanged) (hout : outgoingPass locals v exchanged = .ok p) :
    Keeps p.app p.exchanged := by
  obtain ⟨apdu, -, hout⟩ := Fault.of_bind_ok hout
  obtain ⟨saved, hsaved, hout⟩ := Fault.of_bind_ok hout
  cases hout
  exact ⟨h.1, .cons hsaved h.2⟩

/-- Sending a command leaves the history of the call for it. -/
theorem sendCommand_app (hin : incomingPass locals v exchanged pbSendBuffer cbSendLength = .ok p)
    (hsend : sendCommand cfg link hCard locals v pbSendBuffer cbSendLength = .ok v₁) : v₁.app = p.app := by
  rw [sendCommand_eq exchanged, Fault.bind_ok hin] at hsend
  obtain ⟨ruled, -, hsend⟩ := Fault.of_bind_ok hsend
  obtain ⟨command, -, hsend⟩ := Fault.of_bind_ok hsend
  exact (transmitTo_ok hsend).1

/-- Reading out leaves rules and history alone. -/
theorem readoutLoop_app {offset : UInt32} (h : readoutLoop link hCard fuel v offset = .ok (some v₁)) :
    v₁.app = v.app := by
  induction fuel generalizing v offset with
  | zero => cases h
  | succ fuel ih =>
    obtain rfl | ⟨rounds, le, next, hrounds, hnext, hloop⟩ := readoutLoop_cases h
    · rfl
    · obtain rfl := Nat.succ.inj hrounds
      exact (ih hloop).trans (transmitTo_ok hnext).1

theorem readout_app (h : readout cfg link hCard fuel v = .ok (some v₁)) : v₁.app = v.app := by
  unfold readout at h
  split_ifs at h
  · exact readoutLoop_app h
  · cases h
    rfl

theorem finish_app (hout : outgoingPass locals v exchanged = .ok p) (h : finish cfg locals v = .ok v₁) :
    v₁.app = p.app := by
  rw [finish_eq exchanged, Fault.bind_ok hout] at h
  obtain ⟨ruled, -, h⟩ := Fault.of_bind_ok h
  cases h
  rfl

/-- In every run the history consists of the exchanged APDUs. -/
theorem Run.keeps (h : Run cfg link app exchanged) : Keeps app exchanged := by
  induction h with
  | start hin hout => exact ⟨hin ▸ .nil, hout ▸ .nil⟩
  | exchange before hin hsend hread hout hfinish ih =>
    have hp := keeps_incoming ih hin
    rw [← sendCommand_app hin hsend, ← readout_app hread] at hp
    rw [finish_app hout hfinish]
    exact keeps_outgoing hp hout

/-- In a pass that occurs the history is what was exchanged. -/
theorem Pass.Occurs.keeps (h : p.Occurs cfg link) : Keeps p.app p.exchanged := by
  cases h with
  | incoming hmodify before hin => exact keeps_incoming before.keeps hin
  | outgoing hmodify before hin hsend hread hout =>
    have hp := keeps_incoming before.keeps hin
    rw [← sendCommand_app hin hsend, ← readout_app hread] at hp
    exact keeps_outgoing hp hout

/-- Behind the APDUs and in each of them behind its end there are zeroes. -/
theorem byte_of_saved {apdus : List (List UInt8)} {buffers : List ApduBuffer}
    (h : List.Forall₂ (fun apdu buffer => ApduBuffer.save apdu = .ok buffer) apdus buffers) (i : ℕ) {k : ℕ}
    (hk : k < maxApduLength) :
    (buffers[i]?.getD ApduBuffer.zero).buffer[k]? = some ((apdus[i]?.bind fun apdu => apdu[k]?).getD 0) := by
  induction h generalizing i with
  | nil =>
    show (List.replicate maxApduLength (0 : UInt8))[k]? = some 0
    rw [List.getElem?_replicate, if_pos hk]
  | @cons apdu buffer apdus buffers hsaved hrest ih =>
    cases i with
    | succ i => exact ih i
    | zero =>
      unfold ApduBuffer.save at hsaved
      split_ifs at hsaved with hlen
      cases hsaved
      show (apdu ++ List.replicate (maxApduLength - apdu.length) 0)[k]? = some (apdu[k]?.getD 0)
      by_cases hin : k < apdu.length
      · rw [List.getElem?_append_left hin, List.getElem?_eq_getElem hin]
        rfl
      · rw [List.getElem?_append_right (Nat.le_of_not_lt hin), List.getElem?_replicate, if_pos (by omega),
          List.getElem?_eq_none (Nat.le_of_not_lt hin)]
        rfl

/-- The byte that a condition sees. -/
theorem referredApdu_byte (h : Keeps app exchanged) (hlow : 0 ≤ r.element)
    (hhigh : r.element < maxApduLength) :
    (referredApdu app r)[r.element.toNat]? = some ((exchanged.byte r).getD (exchanged.substitute r)) := by
  have hk : r.element.toNat < maxApduLength := by omega
  have hsaved : List.Forall₂ (fun apdu buffer => ApduBuffer.save apdu = .ok buffer)
      (exchanged.apdus r.apduDirection)
      (if r.apduDirection = inputApdu then app.apduInList else app.apduOutList) := by
    unfold Exchanged.apdus
    split_ifs
    · exact h.1
    · exact h.2
  rw [referredApdu, byte_of_saved hsaved _ hk]
  unfold Exchanged.byte Exchanged.substitute
  by_cases hneg : r.history < 0
  · have hzero : r.history.toNat = 0 := by omega
    rw [if_neg (by omega), if_pos hneg, hzero]
    rfl
  · rw [if_pos ⟨by omega, hlow⟩, if_neg hneg]

/-- A condition looks at what was exchanged. -/
theorem readable_iff_looksAt (h : Keeps app exchanged) : Readable app r ↔ exchanged.LooksAt r := by
  have hin : app.apduInList.length = exchanged.commands.length := h.1.length_eq.symm
  have hout : app.apduOutList = [] ↔ exchanged.responses = [] := by
    rw [← List.length_eq_zero_iff, ← List.length_eq_zero_iff, h.2.length_eq]
  unfold Readable Exchanged.LooksAt
  rw [hin, ne_eq, ne_eq, hout]

/-- A test succeeds if the byte is right, or if the condition is misleading. -/
theorem testMatch_exchanged_iff (h : Keeps app exchanged) :
    app.testMatch r = .ok true ↔ exchanged.Passes r := by
  unfold Exchanged.Passes
  rw [testMatch_true_iff, ← readable_iff_looksAt h]
  refine and_congr_right fun hread => ?_
  rw [Holds, referredApdu_byte h hread.1 hread.2.1, Option.some.injEq]
  unfold Exchanged.Misleading
  cases exchanged.byte r <;> simp [eq_comm]

/-- An array is left at an index that is none of its own. -/
theorem byteAt_outOfBounds_iff {buffer : List UInt8} {element : ℤ} :
    byteAt buffer element = .error .outOfBounds ↔ ¬ (0 ≤ element ∧ element < buffer.length) := by
  refine ⟨fun herror hin => ?_, byteAt_error⟩
  have hlt : element.toNat < buffer.length := by omega
  rw [byteAt_ok hin.1 (List.getElem?_eq_getElem hlt)] at herror
  cases herror

/-- A test leaves an object if its lookup strays. -/
theorem testMatch_outOfBounds_iff (h : Keeps app exchanged) :
    app.testMatch r = .error .outOfBounds ↔ exchanged.Strays r := by
  have hin : app.apduInList.length = exchanged.commands.length := h.1.length_eq.symm
  have hout : app.apduOutList = [] ↔ exchanged.responses = [] := by
    rw [← List.length_eq_zero_iff, ← List.length_eq_zero_iff, h.2.length_eq]
  have hfound : ∀ found,
      HistoryLookup.getApduFromHistory app ApduBuffer.zero r.history r.apduDirection = .ok found →
        (app.testMatch r = .error .outOfBounds ↔ ¬ (0 ≤ r.element ∧ r.element < maxApduLength)) := by
    intro found hfound
    rw [← ApduBuffer.length_eq found.2, ← byteAt_outOfBounds_iff, testMatch_eq, Fault.bind_ok hfound]
    cases byteAt found.2.buffer r.element with
    | error e =>
      rw [Fault.bind_error rfl]
      simp only [Except.error.injEq]
    | ok b => exact iff_of_false (fun h => by cases h) fun h => by cases h
  have hfails : ∀ e,
      HistoryLookup.getApduFromHistory app ApduBuffer.zero r.history r.apduDirection = .error e →
        app.testMatch r = .error e :=
    fun e he => (testMatch_eq app r).trans (Fault.bind_error he)
  unfold Exchanged.Strays
  rw [← hin, ← hout]
  by_cases hdir : r.apduDirection = inputApdu
  · rw [if_pos hdir]
    rw [getApduFromHistory_in _ hdir] at hfound hfails
    by_cases hle : r.history.toNat ≤ app.apduInList.length
    · rw [hfound _ (if_pos hle), or_iff_right (by omega)]
    · exact iff_of_true (hfails _ (if_neg hle)) (Or.inl (by omega))
  · rw [if_neg hdir]
    rw [getApduFromHistory_out _ hdir] at hfound hfails
    by_cases hpos : r.history > 0
    · rw [hfails _ (if_pos hpos)]
      exact iff_of_false (fun h => by cases h) fun h => absurd h.1 (by omega)
    · rw [if_neg hpos] at hfound hfails
      rw [and_iff_right (by omega)]
      cases hlist : app.apduOutList with
      | nil =>
        rw [hlist] at hfails
        exact iff_of_true (hfails _ rfl) (Or.inl rfl)
      | cons apdu rest =>
        rw [hlist] at hfound
        rw [hfound _ rfl, or_iff_right (List.cons_ne_nil _ _)]

/-- Where a lookup strays, there is no exchanged byte. -/
theorem byte_of_strays (h : Keeps app exchanged) (hstrays : exchanged.Strays r) :
    exchanged.byte r = none := by
  have hsaved : ∀ (apdus : List (List UInt8)) (buffers : List ApduBuffer),
      List.Forall₂ (fun apdu buffer => ApduBuffer.save apdu = .ok buffer) apdus buffers →
        ∀ apdu ∈ apdus, apdu.length ≤ maxApduLength := by
    intro apdus buffers hsaved
    induction hsaved with
    | nil => exact List.forall_mem_nil _
    | cons hhead htail ih =>
      refine List.forall_mem_cons.mpr ⟨?_, ih⟩
      unfold ApduBuffer.save at hhead
      split_ifs at hhead with hlen
      exact hlen
  have hlengths : ∀ apdu ∈ exchanged.apdus r.apduDirection, apdu.length ≤ maxApduLength := by
    unfold Exchanged.apdus
    split_ifs
    · exact hsaved _ _ h.1
    · exact hsaved _ _ h.2
  unfold Exchanged.byte
  split_ifs with hsigns
  · rw [Option.bind_eq_none_iff]
    intro apdu hapdu
    have hlength := hlengths apdu (List.mem_of_getElem? hapdu)
    obtain ⟨hplace, -⟩ := List.getElem?_eq_some_iff.mp hapdu
    unfold Exchanged.apdus at hplace
    unfold Exchanged.Strays at hstrays
    refine List.getElem?_eq_none ?_
    split_ifs at hplace hstrays with hdir
    · omega
    · have hne : exchanged.responses ≠ [] := List.ne_nil_of_length_pos (by omega)
      have hout := hstrays.2.resolve_left hne
      omega
  · rfl

/-- Conditions are tested up to the first fault. -/
theorem testAllMatch_error_iff {rs : List ApduSingleRule} {e : Fault} :
    app.testAllMatch rs = .error e ↔ ∃ before r after, rs = before ++ r :: after ∧
      (∀ b ∈ before, app.testMatch b = .ok true) ∧ app.testMatch r = .error e := by
  induction rs with
  | nil => exact iff_of_false (fun h => by cases h) fun ⟨before, r, after, h, _⟩ => by simp at h
  | cons r rest ih =>
    rw [WinscardApp.testAllMatch]
    constructor
    · intro herror
      cases htest : app.testMatch r with
      | error fault =>
        rw [htest] at herror
        cases herror
        exact ⟨[], r, rest, rfl, List.forall_mem_nil _, htest⟩
      | ok b =>
        rw [htest] at herror
        cases b with
        | false => cases herror
        | true =>
          obtain ⟨before, bad, after, rfl, hbefore, hbad⟩ := ih.mp herror
          exact ⟨r :: before, bad, after, rfl, List.forall_mem_cons.mpr ⟨htest, hbefore⟩, hbad⟩
    · rintro ⟨before, bad, after, hsplit, hbefore, hbad⟩
      cases before with
      | nil =>
        cases hsplit
        exact Fault.bind_error hbad
      | cons b before =>
        cases hsplit
        obtain ⟨hb, hbefore⟩ := List.forall_mem_cons.mp hbefore
        rw [hb]
        exact ih.mpr ⟨before, bad, after, rfl, hbefore, hbad⟩

/-- In every run rules fire on exchanged bytes alone exactly if no rule that is
reached is misled. -/
theorem firesOnRecorded_iff (h : p.Occurs cfg link) :
    p.FiresOnRecorded ↔ ∀ rule, p.Reaches rule → ¬ p.exchanged.Misleads p.direction rule := by
  have haccepts : ∀ rs : List ApduSingleRule, p.app.testAllMatch rs = .ok true ↔
      ∀ r ∈ rs, p.exchanged.Passes r := fun rs =>
    testAllMatch_true_iff.trans (forall₂_congr fun r _ => testMatch_exchanged_iff h.keeps)
  have hleaves : ∀ rs : List ApduSingleRule, p.app.testAllMatch rs = .error .outOfBounds ↔
      ∃ before r after, rs = before ++ r :: after ∧ (∀ b ∈ before, p.exchanged.Passes b) ∧
        p.exchanged.Strays r := by
    intro rs
    rw [testAllMatch_error_iff]
    simp only [testMatch_exchanged_iff h.keeps, testMatch_outOfBounds_iff h.keeps]
  constructor
  · rintro hfires rule hreach ⟨hsel, ⟨⟨r, hr, hmissing, -⟩, hall⟩ | hstray⟩
    · have hbyte := hfires rule ⟨hreach, hsel, Or.inl ((haccepts _).mpr hall)⟩ r hr
      rw [hmissing] at hbyte
      cases hbyte
    · have hbytes := hfires rule ⟨hreach, hsel, Or.inr ((hleaves _).mpr hstray)⟩
      obtain ⟨before, r, after, hsplit, -, hstrays⟩ := hstray
      have hbyte := hbytes r (hsplit ▸ List.mem_append_right before List.mem_cons_self)
      rw [byte_of_strays h.keeps hstrays] at hbyte
      cases hbyte
  · rintro hclear rule ⟨hreach, hsel, hall | hleft⟩ r hr
    · rw [haccepts] at hall
      refine (hall r hr).2.resolve_right fun hmis => ?_
      exact hclear rule hreach ⟨hsel, Or.inl ⟨⟨r, hr, hmis⟩, hall⟩⟩
    · exact absurd ⟨hsel, Or.inr ((hleaves _).mp hleft)⟩ (hclear rule hreach)

/-- The first command of an application. -/
def firstCommand : List UInt8 := [0xA0, 0xA4, 0x00, 0x00, 0x00]

/-- The class of a command is compared with a value. -/
def classRule (history : ℤ) (value : UInt8) : ApduRule :=
  { ApduRule.initial with usage := 1, matchRules := [⟨true, history, inputApdu, 0, value⟩] }

/-- This rule alone, before the first exchange. -/
def comparing (history : ℤ) (value : UInt8) : WinscardApp := ⟨true, [classRule history value], [], []⟩

/-- Rules are used and nothing else. -/
def rulesOnly : TransmitConfig := ⟨true, false, false⟩

/-- A card that accepts every command. -/
def accepting : Link Unit := fun _ _ _ _ _ => (⟨scardSSuccess, [0x90, 0x00], 2⟩, ())

/-- The rules are applied to the first command. -/
def firstPass (app : WinscardApp) : Pass where
  app := { app with apduInList := [ApduBuffer.padded firstCommand (by decide)] }
  exchanged := ⟨[firstCommand], []⟩
  newBuffer := ApduBuffer.zero
  pbBuffer := Buffer.overwrite ApduBuffer.zero.buffer 0 firstCommand
  pcbLength := 5
  direction := inputApdu

theorem occurs_firstPass (history : ℤ) (value : UInt8) :
    (firstPass (comparing history value)).Occurs rulesOnly accepting := by
  have hwrite : Buffer.write Fault.outOfBounds ApduBuffer.zero.buffer 0 firstCommand =
      .ok (Buffer.overwrite ApduBuffer.zero.buffer 0 firstCommand) :=
    Buffer.write_ok (by rw [ApduBuffer.length_eq]; decide)
  have hin : incomingPass ⟨ApduBuffer.zero, ApduBuffer.zero, ApduBuffer.zero⟩
      ⟨comparing history value, Session.initial [] false, (), [], 0, scardSSuccess, []⟩ ⟨[], []⟩
      firstCommand 5 =
        .ok (firstPass (comparing history value)) := by
    refine (Fault.bind_ok (a := firstCommand) rfl).trans ?_
    refine (Fault.bind_ok (ApduBuffer.save_ok (by decide))).trans ?_
    exact Fault.bind_ok hwrite
  exact .incoming rfl (.start rfl rfl) hin

theorem reaches_classRule (history : ℤ) (value : UInt8) :
    (firstPass (comparing history value)).Reaches (classRule history value) :=
  ⟨rfl, [], [], rfl, fun _ h => by cases h⟩

/-- A condition on the current command compares one of its bytes. -/
theorem firesOnRecorded_current :
    (firstPass (comparing 0 0xA0)).MayFire (classRule 0 0xA0) ∧
      (firstPass (comparing 0 0xA0)).FiresOnRecorded := by
  refine ⟨⟨reaches_classRule 0 0xA0, ⟨rfl, rfl⟩, Or.inl rfl⟩, ?_⟩
  rw [firesOnRecorded_iff (occurs_firstPass 0 0xA0)]
  rintro rule ⟨-, before, after, hlist, -⟩ ⟨-, hmisled⟩
  have hrule : rule ∈ (comparing 0 0xA0).rulesList :=
    hlist ▸ List.mem_append_right before List.mem_cons_self
  obtain rfl := List.mem_singleton.mp hrule
  obtain ⟨⟨r, hr, hmissing, -⟩, -⟩ | ⟨before, r, after, hsplit, -, hstrays⟩ := hmisled
  · obtain rfl := List.mem_singleton.mp hr
    cases hmissing
  · have hr : r ∈ (classRule 0 0xA0).matchRules :=
      hsplit ▸ List.mem_append_right before List.mem_cons_self
    obtain rfl := List.mem_singleton.mp hr
    exact hstrays.elim (by decide) fun hout => hout (by decide)

/-- Before the first command there was none, but its class is taken to be zero. -/
theorem not_firesOnRecorded_previous :
    (firstPass (comparing 1 0x00)).Occurs rulesOnly accepting ∧
      ¬ (firstPass (comparing 1 0x00)).FiresOnRecorded := by
  refine ⟨occurs_firstPass 1 0x00, fun h => ?_⟩
  have hbyte := h (classRule 1 0x00) ⟨reaches_classRule 1 0x00, ⟨rfl, rfl⟩, Or.inl rfl⟩ _
    List.mem_cons_self
  cases hbyte

end ApduPlay.RecordedBytes
