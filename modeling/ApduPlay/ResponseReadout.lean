import ApduPlay.RuleEvaluation
import ApduPlay.Transmit

/-!
# Reading out response data

A card that announces more data is asked for them again and again. Each chunk
is stored behind the previous one only, at the length of that chunk, so the
response comes out right only if all chunks before the last are empty.
-/

namespace ApduPlay.ResponseReadout

open ApduRules CardSession Transmit RuleEvaluation

variable {σ : Type} {cfg : TransmitConfig} {link : Link σ} {hCard : CardHandle} {locals : Locals}
  {dest : Destination} {v v' : Exchange σ} {fuel : ℕ} {offset : UInt32}

/-- The last chunk of a response, with a status word that ends it. -/
structure LastChunk where
  /-- Response data. -/
  data : List UInt8
  /-- First byte of the status word. -/
  sw1 : UInt8
  /-- Second byte of the status word. -/
  sw2 : UInt8
  /-- No more data are announced. -/
  ends : ¬ (sw1 = 0x61 ∨ sw1 = 0x6C)

/-- A request for data is answered. The original library returns no more than
announced, and an answer of the remote proxy is decoded into 260 bytes. -/
def Replies (link : Link σ) (hCard : CardHandle) (dest : Destination) (c : σ) (le : UInt8)
    (data : List UInt8) (sw1 sw2 : UInt8) (c' : σ) : Prop :=
  data.length + 2 ≤ 260 ∧ link c hCard dest (getResponse le) (le.toUInt32 + 2) =
    (⟨scardSSuccess, data ++ [sw1, sw2], UInt32.ofNat (data.length + 2)⟩, c')

/-- The chain of answers after an announcement: data with the second byte of a
status word 61xx, and in the end the last chunk. -/
def Chain (link : Link σ) (hCard : CardHandle) (dest : Destination) :
    σ → UInt8 → List (List UInt8 × UInt8) → LastChunk → Prop
  | c, a, [], last => ∃ c', Replies link hCard dest c (announced a) last.data last.sw1 last.sw2 c'
  | c, a, (data, b) :: rest, last =>
    ∃ c', Replies link hCard dest c (announced a) data 0x61 b c' ∧ Chain link hCard dest c' b rest last

/-- One request for every announcement. -/
def requests (dest : Destination) (a : UInt8) (earlier : List (List UInt8 × UInt8)) :
    List (Destination × List UInt8) :=
  (a :: earlier.map (·.2)).map fun sw2 => (dest, getResponse (announced sw2))

/-- The response in one piece. -/
def response (earlier : List (List UInt8 × UInt8)) (last : LastChunk) : List UInt8 :=
  earlier.flatMap (·.1) ++ last.data ++ [last.sw1, last.sw2]

/-- The rules change no outgoing APDU. -/
def NoOutgoingRules (cfg : TransmitConfig) (app : WinscardApp) : Prop :=
  cfg.modifyApduByRules = true → app.rulesActive = true →
    ∀ rule ∈ app.rulesList, ¬ (rule.direction = outputApdu ∧ rule.usage = 1)

/-- After a command and one request for every announcement the caller's buffer
begins with the whole response and the length is that of the response: before
outgoing rules, and at the end unless they change it. -/
def ReadsOut (cfg : TransmitConfig) (link : Link σ) (hCard : CardHandle) (locals : Locals)
    (v : Exchange σ) (pbSendBuffer : List UInt8) (cbSendLength : UInt32) (dest : Destination)
    (a : UInt8) (earlier : List (List UInt8 × UInt8)) (last : LastChunk) : Prop :=
  ∃ fuel v₀ v₁, sendCommand cfg link hCard locals v pbSendBuffer cbSendLength = .ok v₀ ∧
    readout cfg link hCard fuel v₀ = .ok (some v₁) ∧
    v₁.sent = v₀.sent ++ requests dest a earlier ∧
    v₁.pcbRecvLength.toNat = (response earlier last).length ∧
    v₁.pbRecvBuffer.take (response earlier last).length = response earlier last ∧
    (NoOutgoingRules cfg v.app → ∃ v₂,
      scardTransmit cfg link hCard locals fuel v pbSendBuffer cbSendLength = .ok (some v₂) ∧
      v₂.sent = v₁.sent ∧ v₂.result = scardSSuccess ∧
      v₂.pcbRecvLength.toNat = (response earlier last).length ∧
      v₂.pbRecvBuffer.take (response earlier last).length = response earlier last)

/-- The tables of handles do not change any more after the first command. -/
theorem transmitDestination_settled (s : Session) (hCard : CardHandle) :
    (s.transmitDestination hCard).2.transmitDestination hCard =
      s.transmitDestination hCard := by
  unfold Session.transmitDestination
  by_cases hremote : s.isRemoteCard hCard = true
  · cases hname : s.cardReaderMap hCard with
    | none =>
      have hstill : Session.isRemoteCard { s with
          cardReaderMap := Function.update s.cardReaderMap hCard (some []) } hCard = true := hremote
      simp [hremote, Session.getReaderName, hname, hstill]
    | some name => simp [hremote, Session.getReaderName, hname]
  · simp [hremote]

/-- What one transmit changes. -/
theorem transmitTo_eq (hdest : v.session.transmitDestination hCard = (dest, v.session))
    {command : List UInt8} {answer : Answer} {c' : σ}
    (hlink : link v.card hCard dest command v.pcbRecvLength = (answer, c')) (pos : ℕ)
    (hroom : pos + answer.bytes.length ≤ v.pbRecvBuffer.length) :
    transmitTo link hCard v command pos = .ok { v with
      card := c'
      pbRecvBuffer := Buffer.overwrite v.pbRecvBuffer pos answer.bytes
      pcbRecvLength := answer.length
      result := answer.status
      sent := v.sent ++ [(dest, command)] } := by
  simp only [transmitTo, hdest, hlink]
  exact Fault.bind_ok (Buffer.write_ok hroom)

/-- What is known after a transmit that stays inside the buffer. -/
theorem transmitTo_ok {command : List UInt8} {pos : ℕ} (h : transmitTo link hCard v command pos = .ok v') :
    v'.app = v.app ∧ v'.session = (v.session.transmitDestination hCard).2 ∧
      v'.sent = v.sent ++ [((v.session.transmitDestination hCard).1, command)] ∧
      v'.card = (link v.card hCard (v.session.transmitDestination hCard).1 command v.pcbRecvLength).2 ∧
      v'.pcbRecvLength =
        (link v.card hCard (v.session.transmitDestination hCard).1 command v.pcbRecvLength).1.length := by
  obtain ⟨buf, -, hbuf⟩ := Fault.of_bind_ok h
  cases hbuf
  exact ⟨rfl, rfl, rfl, rfl, rfl⟩

/-- The loop has ended, or has sent a request and goes on. -/
theorem readoutLoop_cases (h : readoutLoop link hCard fuel v offset = .ok (some v')) :
    v' = v ∨ ∃ rounds le next, fuel = rounds + 1 ∧
      transmitTo link hCard { v with pcbRecvLength := le.toUInt32 + 2 } (getResponse le) offset.toNat =
        .ok next ∧
      readoutLoop link hCard rounds next (next.pcbRecvLength - 2) = .ok (some v') := by
  cases fuel with
  | zero => cases h
  | succ rounds =>
    rw [readoutLoop] at h
    obtain ⟨sw1, -, h⟩ := Fault.of_bind_ok h
    split_ifs at h with hmore
    · obtain ⟨sw2, -, h⟩ := Fault.of_bind_ok h
      obtain ⟨next, hnext, h⟩ := Fault.of_bind_ok h
      exact Or.inr ⟨rounds, announced sw2, next, rfl, hnext, h⟩
    · cases h
      exact Or.inl rfl

/-- Requests are only added. -/
theorem readoutLoop_sent (h : readoutLoop link hCard fuel v offset = .ok (some v')) :
    ∃ more, v'.sent = v.sent ++ more := by
  induction fuel generalizing v offset with
  | zero => cases h
  | succ fuel ih =>
    obtain rfl | ⟨rounds, le, next, hrounds, hnext, hloop⟩ := readoutLoop_cases h
    · exact ⟨[], (List.append_nil _).symm⟩
    · obtain rfl := Nat.succ.inj hrounds
      obtain ⟨more, hmore⟩ := ih hloop
      obtain ⟨-, -, hsent, -, -⟩ := transmitTo_ok hnext
      exact ⟨_, by rw [hmore, hsent, List.append_assoc]⟩

/-- If the next request is the announced one, the next answer is received. -/
theorem first_request {le : UInt8} {more : List (Destination × List UInt8)}
    (hdest : v.session.transmitDestination hCard = (dest, v.session))
    (h : readoutLoop link hCard fuel v offset = .ok (some v'))
    (hsent : v'.sent = v.sent ++ (dest, getResponse le) :: more) :
    ∃ rounds next, next.session = v.session ∧ v'.sent = next.sent ++ more ∧
      next.card = (link v.card hCard dest (getResponse le) (le.toUInt32 + 2)).2 ∧
      next.pcbRecvLength = (link v.card hCard dest (getResponse le) (le.toUInt32 + 2)).1.length ∧
      readoutLoop link hCard rounds next (next.pcbRecvLength - 2) = .ok (some v') := by
  obtain rfl | ⟨rounds, le', next, -, hnext, hloop⟩ := readoutLoop_cases h
  · simp at hsent
  · obtain ⟨-, hsession, hsent', hcard, hlength⟩ := transmitTo_ok hnext
    obtain ⟨more', hmore⟩ := readoutLoop_sent hloop
    rw [hdest] at hsession hsent' hcard hlength
    rw [hmore, hsent', List.append_assoc] at hsent
    have hcons : (dest, getResponse le') :: more' = (dest, getResponse le) :: more :=
      List.append_cancel_left hsent
    have hle : le' = le := by
      have hcommand : getResponse le' = getResponse le := congrArg Prod.snd (List.cons.inj hcons).1
      simpa [getResponse] using hcommand
    rw [hle] at hcard hlength
    exact ⟨rounds, next, hsession, by rw [hmore, (List.cons.inj hcons).2], hcard, hlength, hloop⟩

/-- With one request for every announcement the length variable holds in the
end the length of the last answer alone. -/
theorem length_of_requests {a : UInt8} {earlier : List (List UInt8 × UInt8)} {last : LastChunk}
    (hchain : Chain link hCard dest v.card a earlier last)
    (hdest : v.session.transmitDestination hCard = (dest, v.session))
    (h : readoutLoop link hCard fuel v offset = .ok (some v'))
    (hsent : v'.sent = v.sent ++ requests dest a earlier) :
    v'.pcbRecvLength.toNat = last.data.length + 2 := by
  induction earlier generalizing v a fuel offset with
  | nil =>
    obtain ⟨c', hsize, hlink⟩ := hchain
    obtain ⟨rounds, next, hsession, hsent', -, hlength, hloop⟩ := first_request hdest h hsent
    rw [hlink] at hlength
    obtain rfl | ⟨_, le, next', -, hnext, hloop'⟩ := readoutLoop_cases hloop
    · rw [hlength]
      exact UInt32.toNat_ofNat_of_lt' (by simp only [UInt32.size]; omega)
    · -- A further request would have been recorded.
      obtain ⟨-, -, hmore, -, -⟩ := transmitTo_ok hnext
      obtain ⟨more, hmore'⟩ := readoutLoop_sent hloop'
      rw [hmore', hmore] at hsent'
      simp at hsent'
  | cons chunk rest ih =>
    obtain ⟨c', ⟨-, hlink⟩, hrest⟩ := hchain
    obtain ⟨rounds, next, hsession, hsent', hcard, -, hloop⟩ := first_request hdest h hsent
    rw [hlink] at hcard
    exact ih (by rw [hcard]; exact hrest) (by rw [hsession]; exact hdest) hloop hsent'

/-- The exchange after a request for data at the beginning of the buffer. -/
def Exchange.received (v : Exchange σ) (dest : Destination) (le : UInt8) (answer : Answer) (c' : σ) :
    Exchange σ :=
  { v with
    card := c'
    pbRecvBuffer := Buffer.overwrite v.pbRecvBuffer 0 answer.bytes
    pcbRecvLength := answer.length
    result := answer.status
    sent := v.sent ++ [(dest, getResponse le)] }

/-- The last answer is a short one. -/
theorem Chain.length_last {c : σ} {a : UInt8} {earlier : List (List UInt8 × UInt8)} {last : LastChunk}
    (h : Chain link hCard dest c a earlier last) : last.data.length + 2 ≤ 260 := by
  induction earlier generalizing c a with
  | nil =>
    obtain ⟨c', hsize, -⟩ := h
    exact hsize
  | cons chunk rest ih =>
    obtain ⟨c', -, hrest⟩ := h
    exact ih hrest

/-- One round on an announcement at the beginning of the buffer. -/
theorem readoutLoop_round {a : UInt8} {buf : List UInt8} {answer : Answer} {c' : σ}
    (hdest : v.session.transmitDestination hCard = (dest, v.session))
    (hbuf : v.pbRecvBuffer = 0x61 :: a :: buf) (hlength : v.pcbRecvLength = 2)
    (hlink : link v.card hCard dest (getResponse (announced a)) ((announced a).toUInt32 + 2) = (answer, c'))
    (hfits : answer.bytes.length ≤ v.pbRecvBuffer.length) (rounds : ℕ) :
    readoutLoop link hCard (rounds + 1) v 0 =
      readoutLoop link hCard rounds (Exchange.received v dest (announced a) answer c')
        (answer.length - 2) := by
  have hfirst : byteAt v.pbRecvBuffer (0 : UInt32).toNat = .ok 0x61 := by rw [hbuf]; rfl
  have hsecond : byteAt v.pbRecvBuffer (v.pcbRecvLength - 1).toNat = .ok a := by rw [hbuf, hlength]; rfl
  have hnext := transmitTo_eq (v := { v with pcbRecvLength := (announced a).toUInt32 + 2 }) hdest hlink 0
    (by rw [Nat.zero_add]; exact hfits)
  rw [readoutLoop, Fault.bind_ok hfirst, if_pos (Or.inl rfl), Fault.bind_ok hsecond]
  exact Fault.bind_ok hnext

/-- The last answer ends the loop. -/
theorem readoutLoop_last {a : UInt8} {last : LastChunk} {buf : List UInt8}
    (hchain : Chain link hCard dest v.card a [] last)
    (hdest : v.session.transmitDestination hCard = (dest, v.session))
    (hbuf : v.pbRecvBuffer = 0x61 :: a :: buf) (hlength : v.pcbRecvLength = 2)
    (hroom : last.data.length ≤ buf.length) :
    ∃ c', readoutLoop link hCard 2 v 0 = .ok (some (Exchange.received v dest (announced a)
      ⟨scardSSuccess, last.data ++ [last.sw1, last.sw2], UInt32.ofNat (last.data.length + 2)⟩ c')) := by
  obtain ⟨c', hsize, hlink⟩ := hchain
  have hlast : (UInt32.ofNat (last.data.length + 2)).toNat = last.data.length + 2 :=
    UInt32.toNat_ofNat_of_lt' (by simp only [UInt32.size]; omega)
  have hoffset : (UInt32.ofNat (last.data.length + 2) - 2).toNat = last.data.length := by
    rw [UInt32.toNat_sub_of_le _ _ (by rw [UInt32.le_iff_toNat_le, hlast]; exact Nat.le_add_left _ _), hlast]
    rfl
  have hfits : (last.data ++ [last.sw1, last.sw2]).length ≤ v.pbRecvBuffer.length := by
    rw [List.length_append, hbuf]
    exact Nat.add_le_add_right hroom 2
  have hsw1 : byteAt (Buffer.overwrite v.pbRecvBuffer 0 (last.data ++ [last.sw1, last.sw2]))
      (UInt32.ofNat (last.data.length + 2) - 2).toNat = .ok last.sw1 := by
    refine byteAt_ok (Int.natCast_nonneg _) ?_
    rw [Int.toNat_natCast, hoffset, Buffer.overwrite, List.take_zero, List.nil_append, List.append_assoc,
      List.getElem?_append_right (Nat.le_refl _), Nat.sub_self]
    rfl
  refine ⟨c', (readoutLoop_round hdest hbuf hlength hlink hfits 1).trans ?_⟩
  rw [readoutLoop]
  refine (Fault.bind_ok hsw1).trans ?_
  rw [if_neg last.ends]
  rfl

/-- While only announcements arrive, they are written over each other. -/
theorem readoutLoop_chain {a : UInt8} {earlier : List (List UInt8 × UInt8)} {last : LastChunk}
    {buf : List UInt8} (hchain : Chain link hCard dest v.card a earlier last)
    (hdest : v.session.transmitDestination hCard = (dest, v.session))
    (hempty : ∀ chunk ∈ earlier, chunk.1 = []) (hbuf : v.pbRecvBuffer = 0x61 :: a :: buf)
    (hlength : v.pcbRecvLength = 2) (hroom : last.data.length ≤ buf.length) :
    ∃ v', readoutLoop link hCard (earlier.length + 2) v 0 = .ok (some v') ∧ v'.app = v.app ∧
      v'.sent = v.sent ++ requests dest a earlier ∧ v'.result = scardSSuccess ∧
      v'.pcbRecvLength = UInt32.ofNat (last.data.length + 2) ∧
      ∃ rest, v'.pbRecvBuffer = last.data ++ [last.sw1, last.sw2] ++ rest := by
  induction earlier generalizing v a with
  | nil =>
    obtain ⟨c', h⟩ := readoutLoop_last hchain hdest hbuf hlength hroom
    refine ⟨_, h, rfl, rfl, rfl, rfl, v.pbRecvBuffer.drop (last.data.length + 2), ?_⟩
    simp [Exchange.received, Buffer.overwrite]
  | cons chunk rest ih =>
    obtain ⟨data, b⟩ := chunk
    obtain ⟨hdata, hrest⟩ := List.forall_mem_cons.mp hempty
    obtain ⟨c', ⟨-, hlink⟩, hchain'⟩ := hchain
    obtain rfl : data = [] := hdata
    let next := Exchange.received v dest (announced a) ⟨scardSSuccess, [0x61, b], 2⟩ c'
    have hround : readoutLoop link hCard (rest.length + 2 + 1) v 0 =
        readoutLoop link hCard (rest.length + 2) next 0 :=
      (readoutLoop_round hdest hbuf hlength hlink (by rw [hbuf]; simp) (rest.length + 2)).trans
        (congrArg (readoutLoop link hCard (rest.length + 2) next) (show (2 : UInt32) - 2 = 0 from rfl))
    have hover : next.pbRecvBuffer = 0x61 :: b :: buf := by
      simp [next, Exchange.received, Buffer.overwrite, hbuf]
    obtain ⟨v', h, happ, hsent, hresult, hlength', hbuf'⟩ :=
      ih (v := next) hchain' hdest hrest hover rfl
    refine ⟨v', hround.trans h, happ, ?_, hresult, hlength', hbuf'⟩
    rw [hsent]
    simp [next, Exchange.received, requests]

/-- The command goes to the destination of the handle, which then stays. -/
theorem sendCommand_ok {pbSendBuffer : List UInt8} {cbSendLength : UInt32}
    (h : sendCommand cfg link hCard locals v pbSendBuffer cbSendLength = .ok v') :
    v'.session.transmitDestination hCard = ((v.session.transmitDestination hCard).1, v'.session) ∧
      v'.app.rulesActive = v.app.rulesActive ∧ v'.app.rulesList = v.app.rulesList := by
  unfold sendCommand at h
  obtain ⟨apdu, -, h⟩ := Fault.of_bind_ok h
  obtain ⟨saved, -, h⟩ := Fault.of_bind_ok h
  obtain ⟨sendBuffer, -, h⟩ := Fault.of_bind_ok h
  obtain ⟨ruled, -, h⟩ := Fault.of_bind_ok h
  obtain ⟨command, -, h⟩ := Fault.of_bind_ok h
  obtain ⟨happ, hsession, -, -, -⟩ := transmitTo_ok h
  rw [happ, hsession, transmitDestination_settled]
  exact ⟨rfl, rfl, rfl⟩

/-- A successful response is saved and kept. -/
theorem finish_ok (locals : Locals) (hresult : v.result = scardSSuccess)
    (hmax : v.pcbRecvLength.toNat ≤ maxApduLength)
    (hmem : v.pcbRecvLength.toNat ≤ v.pbRecvBuffer.length) (hrules : NoOutgoingRules cfg v.app) :
    ∃ v', finish cfg locals v = .ok v' ∧ v'.sent = v.sent ∧ v'.result = v.result ∧
      v'.pcbRecvLength = v.pcbRecvLength ∧ v'.pbRecvBuffer = v.pbRecvBuffer := by
  have hlen : ((v.pbRecvBuffer.drop 0).take v.pcbRecvLength.toNat).length ≤ maxApduLength :=
    Nat.le_trans (List.length_take_le _ _) hmax
  let app := { v.app with apduOutList := ApduBuffer.padded _ hlen :: v.app.apduOutList }
  have hsteps : finish cfg locals v = (if cfg.modifyApduByRules then do
      let ruled ← app.applyRules locals.newBufferOut v.pbRecvBuffer v.pcbRecvLength outputApdu
      return { v with app := app, pbRecvBuffer := ruled.1, pcbRecvLength := ruled.2 }
    else return { v with app := app, pcbRecvLength := v.pcbRecvLength }) := by
    unfold finish
    rw [if_neg (fun hne => hne hresult)]
    exact (Fault.bind_ok (Buffer.read_ok (by omega))).trans (Fault.bind_ok (ApduBuffer.save_ok hlen))
  rw [hsteps]
  split_ifs with hmodify
  · have hsame : app.applyRules locals.newBufferOut v.pbRecvBuffer v.pcbRecvLength outputApdu =
        .ok (v.pbRecvBuffer, v.pcbRecvLength) :=
      applyRules_unused hmax hmem (by decide) fun hactive => hrules hmodify hactive
    exact ⟨_, Fault.bind_ok hsame, rfl, rfl, rfl, rfl⟩
  · exact ⟨_, rfl, rfl, rfl, rfl, rfl⟩

theorem length_response (earlier : List (List UInt8 × UInt8)) (last : LastChunk) :
    (response earlier last).length = (earlier.map (·.1.length)).sum + (last.data.length + 2) := by
  simp [response, List.length_flatMap]

/-- The response is read out right exactly if all chunks before the last one
are empty. -/
theorem readsOut_iff {pbSendBuffer : List UInt8} {cbSendLength : UInt32} {v₀ : Exchange σ} {a : UInt8}
    {buf : List UInt8} {earlier : List (List UInt8 × UInt8)} {last : LastChunk}
    (hauto : cfg.autoRequestData = true)
    (hsend : sendCommand cfg link hCard locals v pbSendBuffer cbSendLength = .ok v₀)
    (hlength : v₀.pcbRecvLength = 2) (hbuf : v₀.pbRecvBuffer = 0x61 :: a :: buf)
    (hchain : Chain link hCard (v.session.transmitDestination hCard).1 v₀.card a earlier last)
    (hroom : (response earlier last).length ≤ v₀.pbRecvBuffer.length) :
    ReadsOut cfg link hCard locals v pbSendBuffer cbSendLength (v.session.transmitDestination hCard).1
      a earlier last ↔ ∀ chunk ∈ earlier, chunk.1 = [] := by
  obtain ⟨hdest, hactive, hlist⟩ := sendCommand_ok hsend
  have hreadout (fuel : ℕ) : readout cfg link hCard fuel v₀ = readoutLoop link hCard fuel v₀ 0 :=
    if_pos ⟨hlength, hauto⟩
  constructor
  · rintro ⟨fuel, v₀', v₁, hsend', hread, hsent, hlen, -⟩
    rw [hsend] at hsend'
    cases hsend'
    rw [hreadout] at hread
    rw [length_of_requests hchain hdest hread hsent, length_response] at hlen
    have hzero : (earlier.map (·.1.length)).sum = 0 := by omega
    intro chunk hchunk
    exact List.length_eq_zero_iff.mp (List.sum_eq_zero_iff_forall_eq_nat.mp hzero _
      (List.mem_map_of_mem hchunk))
  · intro hempty
    have hresponse : response earlier last = last.data ++ [last.sw1, last.sw2] := by
      have hnone : earlier.flatMap (·.1) = [] := List.flatMap_eq_nil_iff.mpr hempty
      rw [response, hnone, List.nil_append]
    have hlen : (response earlier last).length = last.data.length + 2 := by
      rw [hresponse, List.length_append]
      rfl
    obtain ⟨v₁, hread, happ, hsent, hresult, hlength', rest, hbuf'⟩ := readoutLoop_chain hchain hdest hempty
      hbuf hlength (by rw [hlen, hbuf] at hroom; simpa using hroom)
    have hsize := hchain.length_last
    have hnat : v₁.pcbRecvLength.toNat = (response earlier last).length := by
      rw [hlength', hlen]
      exact UInt32.toNat_ofNat_of_lt' (by simp only [UInt32.size]; omega)
    have htake : v₁.pbRecvBuffer.take (response earlier last).length = response earlier last := by
      rw [hbuf', ← hresponse, List.take_left]
    have hsmall : (response earlier last).length ≤ maxApduLength := by
      rw [hlen]
      exact Nat.le_trans hsize (by decide)
    rw [← hreadout] at hread
    refine ⟨_, v₀, v₁, hsend, hread, hsent, hnat, htake, fun hrules => ?_⟩
    have hrules' : NoOutgoingRules cfg v₁.app := by
      unfold NoOutgoingRules
      rw [happ, hactive, hlist]
      exact hrules
    have hmem : v₁.pcbRecvLength.toNat ≤ v₁.pbRecvBuffer.length := by
      rw [hnat, hbuf', ← hresponse, List.length_append]
      exact Nat.le_add_right _ _
    obtain ⟨v₂, hfinish, hsent₂, hresult₂, hlength₂, hbuf₂⟩ :=
      finish_ok locals hresult (by rw [hnat]; exact hsmall) hmem hrules'
    refine ⟨v₂, ?_, hsent₂, by rw [hresult₂, hresult], by rw [hlength₂, hnat], by rw [hbuf₂, htake]⟩
    unfold scardTransmit
    exact (Fault.bind_ok hsend).trans ((Fault.bind_ok hread).trans (Fault.bind_ok hfinish))

/-- With rules and forced data switched off a command is sent as it is. -/
theorem sendCommand_plain {pbSendBuffer : List UInt8} {cbSendLength : UInt32}
    (hmodify : cfg.modifyApduByRules = false) (hforce : cfg.forceApduNonzeroInputData = false)
    (hmem : cbSendLength.toNat ≤ pbSendBuffer.length) (hmax : cbSendLength.toNat ≤ maxApduLength) :
    ∃ app, sendCommand cfg link hCard locals v pbSendBuffer cbSendLength =
      transmitTo link hCard { v with app := app } (pbSendBuffer.take cbSendLength.toNat) 0 := by
  obtain ⟨apdu, hapdu⟩ : ∃ apdu, apdu = pbSendBuffer.take cbSendLength.toNat := ⟨_, rfl⟩
  have hlen : apdu.length = cbSendLength.toNat := by rw [hapdu]; exact List.length_take_of_le hmem
  have hread : Buffer.read Fault.outOfBounds pbSendBuffer 0 cbSendLength.toNat = .ok apdu := by
    rw [Buffer.read_ok (by omega), List.drop_zero, hapdu]
  have hroom : 0 + apdu.length ≤ locals.sendBuffer.buffer.length := by
    rw [locals.sendBuffer.length_eq]
    omega
  let app := { v.app with apduInList := ApduBuffer.padded apdu (by omega) :: v.app.apduInList }
  refine ⟨app, ?_⟩
  rw [← hapdu]
  unfold sendCommand
  refine (Fault.bind_ok hread).trans ((Fault.bind_ok (ApduBuffer.save_ok (by omega))).trans ?_)
  refine (Fault.bind_ok (Buffer.write_ok hroom)).trans ?_
  have hruled : applyIncoming cfg locals app (Buffer.overwrite locals.sendBuffer.buffer 0 apdu) cbSendLength =
      .ok (Buffer.overwrite locals.sendBuffer.buffer 0 apdu, cbSendLength) := by
    rw [applyIncoming, if_neg (by rw [hmodify]; exact Bool.false_ne_true)]
  refine (Fault.bind_ok hruled).trans ?_
  have hforced : forceData cfg (v.session.isRemoteCard hCard)
      (Buffer.overwrite locals.sendBuffer.buffer 0 apdu) cbSendLength =
        (Buffer.overwrite locals.sendBuffer.buffer 0 apdu, cbSendLength) := by
    rw [forceData, if_neg (by rw [hforce]; exact fun h => Bool.false_ne_true h.2.1)]
  rw [hforced]
  refine Fault.bind_ok ?_
  have hinside : 0 + cbSendLength.toNat ≤ (Buffer.overwrite locals.sendBuffer.buffer 0 apdu).length := by
    rw [Buffer.length_overwrite hroom, locals.sendBuffer.length_eq, Nat.zero_add]
    exact hmax
  rw [Buffer.read_ok hinside, List.drop_zero, Buffer.overwrite, List.take_zero, List.nil_append, ← hlen,
    List.take_left]

/-- A card that gives these answers, whatever it is asked. -/
def scripted (answers : List (List UInt8)) : Link ℕ := fun n _ _ _ _ =>
  let bytes := answers[n]?.getD []
  (⟨scardSSuccess, bytes, UInt32.ofNat bytes.length⟩, n + 1)

/-- A call with room for 16 bytes on a local card. -/
def localCall : Exchange ℕ where
  app := ⟨false, [], [], []⟩
  session := Session.initial [] false
  card := 0
  pbRecvBuffer := List.replicate 16 0
  pcbRecvLength := 16
  result := scardSSuccess
  sent := []

/-- Data are read out and nothing else is done. -/
def readoutOnly : TransmitConfig := ⟨false, false, true⟩

/-- All local variables are cleared. -/
def clearLocals : Locals := ⟨ApduBuffer.zero, ApduBuffer.zero, ApduBuffer.zero⟩

/-- SELECT of a file. -/
def selectFile : List UInt8 := [0x00, 0xA4, 0x00, 0x00, 0x02, 0x3F, 0x00]

/-- The call after an announcement of data. -/
theorem sendCommand_scripted (sw2 : UInt8) (answers : List (List UInt8)) :
    ∃ v₀, sendCommand readoutOnly (scripted ([0x61, sw2] :: answers)) 1 clearLocals localCall selectFile 7 =
      .ok v₀ ∧ v₀.pcbRecvLength = 2 ∧ v₀.pbRecvBuffer = 0x61 :: sw2 :: List.replicate 14 0 ∧ v₀.card = 1 ∧
      v₀.sent = [(.originalLibrary, selectFile)] := by
  obtain ⟨app, happ⟩ : ∃ app, sendCommand readoutOnly (scripted ([0x61, sw2] :: answers)) 1 clearLocals
      localCall selectFile 7 = transmitTo (scripted ([0x61, sw2] :: answers)) 1 { localCall with app := app }
        (selectFile.take 7) 0 :=
    sendCommand_plain rfl rfl (by decide) (by decide)
  rw [happ]
  exact ⟨_, rfl, rfl, rfl, rfl, rfl⟩

/-- The last chunk of two bytes, with status word 9000. -/
def twoBytes : LastChunk := ⟨[0x01, 0x02], 0x90, 0x00, by decide⟩

/-- An empty chunk does no harm, a byte before the last chunk does. -/
theorem readsOut_two_chunks :
    ReadsOut readoutOnly (scripted [[0x61, 0x02], [0x61, 0x02], [0x01, 0x02, 0x90, 0x00]]) 1 clearLocals
      localCall selectFile 7 .originalLibrary 0x02 [([], 0x02)] twoBytes ∧
    ¬ ReadsOut readoutOnly (scripted [[0x61, 0x01], [0xAA, 0x61, 0x02], [0x01, 0x02, 0x90, 0x00]]) 1
      clearLocals localCall selectFile 7 .originalLibrary 0x01 [([0xAA], 0x02)] twoBytes := by
  constructor
  · obtain ⟨v₀, hsend, hlength, hbuf, hcard, -⟩ := sendCommand_scripted 0x02
      [[0x61, 0x02], [0x01, 0x02, 0x90, 0x00]]
    refine (readsOut_iff rfl hsend hlength hbuf ?_ ?_).mpr (by decide)
    · rw [hcard]
      exact ⟨2, ⟨by decide, rfl⟩, 3, by decide, rfl⟩
    · rw [hbuf]
      decide
  · obtain ⟨v₀, hsend, hlength, hbuf, hcard, -⟩ := sendCommand_scripted 0x01
      [[0xAA, 0x61, 0x02], [0x01, 0x02, 0x90, 0x00]]
    intro hreads
    refine absurd ((readsOut_iff rfl hsend hlength hbuf ?_ ?_).mp hreads) (by decide)
    · rw [hcard]
      exact ⟨2, ⟨by decide, rfl⟩, 3, by decide, rfl⟩
    · rw [hbuf]
      decide

/-- The byte before the last chunk is missing from the length. -/
theorem not_readsOut_byte_before :
    Chain (scripted [[0x61, 0x01], [0xAA, 0x61, 0x02], [0x01, 0x02, 0x90, 0x00]]) 1 .originalLibrary 1
        0x01 [([0xAA], 0x02)] twoBytes ∧
      ¬ ReadsOut readoutOnly (scripted [[0x61, 0x01], [0xAA, 0x61, 0x02], [0x01, 0x02, 0x90, 0x00]]) 1
        clearLocals localCall selectFile 7 .originalLibrary 0x01 [([0xAA], 0x02)] twoBytes := by
  have hchain : Chain (scripted [[0x61, 0x01], [0xAA, 0x61, 0x02], [0x01, 0x02, 0x90, 0x00]]) 1
      .originalLibrary 1 0x01 [([0xAA], 0x02)] twoBytes :=
    ⟨2, ⟨by decide, rfl⟩, 3, by decide, rfl⟩
  refine ⟨hchain, ?_⟩
  rintro ⟨fuel, v₀, v₁, hsend, hread, hsent, hlen, -⟩
  obtain ⟨v₀', hsend', hlength, hbuf, hcard, -⟩ := sendCommand_scripted 0x01
    [[0xAA, 0x61, 0x02], [0x01, 0x02, 0x90, 0x00]]
  rw [hsend'] at hsend
  cases hsend
  rw [← hcard] at hchain
  rw [readout, if_pos ⟨hlength, rfl⟩] at hread
  rw [length_of_requests hchain (sendCommand_ok hsend').1 hread hsent] at hlen
  exact absurd hlen (by decide)

end ApduPlay.ResponseReadout
