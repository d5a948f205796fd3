import ApduPlay.ResponseReadout

/-!
# Bounds of the readout

What the loop that reads out response data does to the caller's buffer, as a
list of events. How much it reads and how much it lets the card write depends
on the answers alone: the capacity that the caller gave is overwritten, and
the status of an answer is not looked at.
-/

namespace ApduPlay.ReadoutBounds

open ApduRules CardSession ResponseReadout RuleEvaluation Transmit

/-- What the loop does. -/
inductive Event
  /-- A byte of the caller's buffer is read. -/
  | read (index : ℕ)
  /-- A request is sent with this length for the response. -/
  | announce (length : ℕ)
  /-- The request is answered, and two is subtracted from the length. -/
  | answered (result : Status) (length : UInt32)
  deriving DecidableEq, Repr

variable {σ : Type} (cfg : TransmitConfig) (link : Link σ) (hCard : CardHandle) (locals : Locals)

/-- The loop that reads out all data, with its events. -/
def readoutLoopEvents : ℕ → Exchange σ → UInt32 → List Event × Except Fault (Option (Exchange σ))
  | 0, _, _ => ([], .ok none)
  | fuel + 1, v, recvOffset =>
    let first := Event.read recvOffset.toNat
    match byteAt v.pbRecvBuffer recvOffset.toNat with
    | .error e => ([first], .error e)
    | .ok sw1 =>
      if sw1 = 0x61 ∨ sw1 = 0x6C then
        let second := Event.read (v.pcbRecvLength - 1).toNat
        match byteAt v.pbRecvBuffer (v.pcbRecvLength - 1).toNat with
        | .error e => ([first, second], .error e)
        | .ok sw2 =>
          let le := announced sw2
          let request := Event.announce (le.toNat + 2)
          match transmitTo link hCard { v with pcbRecvLength := le.toUInt32 + 2 } (getResponse le)
              recvOffset.toNat with
          | .error e => ([first, second, request], .error e)
          | .ok v =>
            let rest := readoutLoopEvents fuel v (v.pcbRecvLength - 2)
            (first :: second :: request :: .answered v.result v.pcbRecvLength :: rest.1, rest.2)
      else ([first], .ok (some v))

/-- The events of the readout after a first answer. -/
def readoutEvents (fuel : ℕ) (v : Exchange σ) : List Event :=
  if v.pcbRecvLength = 2 ∧ cfg.autoRequestData then (readoutLoopEvents link hCard fuel v 0).1 else []

/-- Nothing is requested after an answer that is no success. -/
def Stops : Status → List Event → Prop
  | _, [] => True
  | result, .announce _ :: events => result = scardSSuccess ∧ Stops result events
  | _, .answered result _ :: events => Stops result events
  | result, .read _ :: events => Stops result events

/-- The readout stops at the first answer that is no success, its offset does
not wrap around, and reads and requests stay within the capacity. -/
structure StaysWithin (capacity : ℕ) (result : Status) (events : List Event) : Prop where
  /-- Requests follow successful answers only. -/
  stops : Stops result events
  /-- Answers have a status word. -/
  offsets : ∀ {r n}, .answered r n ∈ events → 2 ≤ n.toNat
  /-- Reads are inside. -/
  reads : ∀ {i}, .read i ∈ events → i < capacity
  /-- Requests are inside. -/
  requests : ∀ {n}, .announce n ∈ events → n ≤ capacity

/-- The readout of a call stays within the capacity that the caller gave. -/
def CallStaysWithin (v : Exchange σ) (pbSendBuffer : List UInt8) (cbSendLength : UInt32) : Prop :=
  ∀ fuel v₁, sendCommand cfg link hCard locals v pbSendBuffer cbSendLength = .ok v₁ →
    StaysWithin v.pcbRecvLength.toNat v₁.result (readoutEvents cfg link hCard fuel v₁)

/-- The answer is asked about with another request. -/
def Continues (v : Exchange σ) : Prop :=
  v.pbRecvBuffer[(v.pcbRecvLength - 2).toNat]? = some 0x61 ∨
    v.pbRecvBuffer[(v.pcbRecvLength - 2).toNat]? = some 0x6C

/-- The answer has a status word. Its first byte is inside the capacity, and if
it announces more data, the second byte is inside too, the transmit was a
success, and what is announced fits. -/
def AnswerFits (capacity : ℕ) (v : Exchange σ) : Prop :=
  2 ≤ v.pcbRecvLength.toNat ∧ v.pcbRecvLength.toNat - 2 < capacity ∧
    (Continues v → v.pcbRecvLength.toNat ≤ capacity ∧
      ∀ sw2, v.pbRecvBuffer[(v.pcbRecvLength - 1).toNat]? = some sw2 →
        v.result = scardSSuccess ∧ (announced sw2).toNat + 2 ≤ capacity)

/-- The variables after the first answer and after each further one. -/
inductive Answered (link : Link σ) (hCard : CardHandle) (v₁ : Exchange σ) : Exchange σ → Prop
  /-- The first answer. -/
  | first : Answered link hCard v₁ v₁
  /-- One more request is answered. -/
  | next {v v' : Exchange σ} {sw2 : UInt8} (before : Answered link hCard v₁ v) (hmore : Continues v)
    (hsw2 : v.pbRecvBuffer[(v.pcbRecvLength - 1).toNat]? = some sw2)
    (hanswer : transmitTo link hCard { v with pcbRecvLength := (announced sw2).toUInt32 + 2 }
      (getResponse (announced sw2)) (v.pcbRecvLength - 2).toNat = .ok v') : Answered link hCard v₁ v'

variable {cfg : TransmitConfig} {link : Link σ} {hCard : CardHandle} {locals : Locals} {fuel capacity : ℕ}
  {v v₁ v' : Exchange σ} {recvOffset : UInt32} {pbSendBuffer : List UInt8} {cbSendLength : UInt32}
  {result r : Status} {events : List Event}

/-- Apart from its events it is the same loop. -/
theorem readoutLoopEvents_snd (fuel : ℕ) (v : Exchange σ) (recvOffset : UInt32) :
    (readoutLoopEvents link hCard fuel v recvOffset).2 = readoutLoop link hCard fuel v recvOffset := by
  induction fuel generalizing v recvOffset with
  | zero => rfl
  | succ fuel ih =>
    rw [readoutLoopEvents, readoutLoop]
    cases byteAt v.pbRecvBuffer recvOffset.toNat with
    | error e => rfl
    | ok sw1 =>
      rw [Fault.bind_ok rfl]
      dsimp only
      split_ifs
      · cases byteAt v.pbRecvBuffer (v.pcbRecvLength - 1).toNat with
        | error e => rfl
        | ok sw2 =>
          rw [Fault.bind_ok rfl]
          dsimp only
          cases transmitTo link hCard { v with pcbRecvLength := (announced sw2).toUInt32 + 2 }
              (getResponse (announced sw2)) recvOffset.toNat with
          | error e => rfl
          | ok v' => exact ih v' _
      · rfl

theorem byteAt_natCast {buffer : List UInt8} {i : ℕ} {b : UInt8} :
    byteAt buffer i = .ok b ↔ buffer[i]? = some b := by
  rw [byteAt, if_neg (by omega), Int.toNat_natCast]
  cases buffer[i]? <;> simp

theorem staysWithin_nil (capacity : ℕ) (result : Status) : StaysWithin capacity result [] :=
  ⟨trivial, fun h => absurd h List.not_mem_nil, fun h => absurd h List.not_mem_nil,
    fun h => absurd h List.not_mem_nil⟩

theorem staysWithin_read {i : ℕ} :
    StaysWithin capacity result (.read i :: events) ↔ i < capacity ∧ StaysWithin capacity result events := by
  constructor
  · rintro ⟨hstops, hoffsets, hreads, hrequests⟩
    exact ⟨hreads List.mem_cons_self, hstops, fun h => hoffsets (List.mem_cons_of_mem _ h),
      fun h => hreads (List.mem_cons_of_mem _ h), fun h => hrequests (List.mem_cons_of_mem _ h)⟩
  · rintro ⟨hi, hstops, hoffsets, hreads, hrequests⟩
    refine ⟨hstops, fun h => hoffsets (by simpa using h), fun h => ?_, fun h => hrequests (by simpa using h)⟩
    obtain h | h := List.mem_cons.mp h
    · cases h
      exact hi
    · exact hreads h

theorem staysWithin_announce {n : ℕ} :
    StaysWithin capacity result (.announce n :: events) ↔
      (result = scardSSuccess ∧ n ≤ capacity) ∧ StaysWithin capacity result events := by
  constructor
  · rintro ⟨hstops, hoffsets, hreads, hrequests⟩
    exact ⟨⟨hstops.1, hrequests List.mem_cons_self⟩, hstops.2, fun h => hoffsets (List.mem_cons_of_mem _ h),
      fun h => hreads (List.mem_cons_of_mem _ h), fun h => hrequests (List.mem_cons_of_mem _ h)⟩
  · rintro ⟨⟨hresult, hn⟩, hstops, hoffsets, hreads, hrequests⟩
    refine ⟨⟨hresult, hstops⟩, fun h => hoffsets (by simpa using h), fun h => hreads (by simpa using h),
      fun h => ?_⟩
    obtain h | h := List.mem_cons.mp h
    · cases h
      exact hn
    · exact hrequests h

theorem staysWithin_answered {n : UInt32} :
    StaysWithin capacity result (.answered r n :: events) ↔
      2 ≤ n.toNat ∧ StaysWithin capacity r events := by
  constructor
  · rintro ⟨hstops, hoffsets, hreads, hrequests⟩
    exact ⟨hoffsets List.mem_cons_self, hstops, fun h => hoffsets (List.mem_cons_of_mem _ h),
      fun h => hreads (List.mem_cons_of_mem _ h), fun h => hrequests (List.mem_cons_of_mem _ h)⟩
  · rintro ⟨hn, hstops, hoffsets, hreads, hrequests⟩
    refine ⟨hstops, fun h => ?_, fun h => hreads (by simpa using h), fun h => hrequests (by simpa using h)⟩
    obtain h | h := List.mem_cons.mp h
    · cases h
      exact hn
    · exact hoffsets h

/-- One round of the loop reads and requests inside the capacity. -/
def RoundFits (capacity : ℕ) (v : Exchange σ) : Prop :=
  (v.pcbRecvLength - 2).toNat < capacity ∧
    (Continues v → (v.pcbRecvLength - 1).toNat < capacity ∧
      ∀ sw2, v.pbRecvBuffer[(v.pcbRecvLength - 1).toNat]? = some sw2 →
        v.result = scardSSuccess ∧ (announced sw2).toNat + 2 ≤ capacity)

/-- The last round reads one byte. -/
theorem roundFits_of_stop (hend : ¬ Continues v) :
    RoundFits capacity v ↔ (v.pcbRecvLength - 2).toNat < capacity :=
  and_iff_left fun hmore => absurd hmore hend

/-- The events of a round, and those after it. -/
theorem staysWithin_round :
    StaysWithin capacity v.result (readoutLoopEvents link hCard (fuel + 1) v (v.pcbRecvLength - 2)).1 ↔
      RoundFits capacity v ∧ ∀ sw2 v', Continues v →
        v.pbRecvBuffer[(v.pcbRecvLength - 1).toNat]? = some sw2 →
        transmitTo link hCard { v with pcbRecvLength := (announced sw2).toUInt32 + 2 }
          (getResponse (announced sw2)) (v.pcbRecvLength - 2).toNat = .ok v' →
        2 ≤ v'.pcbRecvLength.toNat ∧
          StaysWithin capacity v'.result (readoutLoopEvents link hCard fuel v' (v'.pcbRecvLength - 2)).1 := by
  rw [readoutLoopEvents]
  cases hfirst : byteAt v.pbRecvBuffer (v.pcbRecvLength - 2).toNat with
  | error e =>
    have hend : ¬ Continues v := by
      rintro (hsw1 | hsw1) <;> rw [byteAt_natCast.mpr hsw1] at hfirst <;> cases hfirst
    rw [staysWithin_read, and_iff_left (staysWithin_nil _ _), roundFits_of_stop hend]
    exact (and_iff_left fun _ _ hmore => absurd hmore hend).symm
  | ok sw1 =>
    have hcontinues : Continues v ↔ sw1 = 0x61 ∨ sw1 = 0x6C := by
      rw [Continues, byteAt_natCast.mp hfirst, Option.some.injEq, Option.some.injEq]
    by_cases hmore : sw1 = 0x61 ∨ sw1 = 0x6C
    · dsimp only
      rw [if_pos hmore, RoundFits, forall_prop_of_true (hcontinues.mpr hmore)]
      simp only [forall_prop_of_true (hcontinues.mpr hmore)]
      cases hsecond : byteAt v.pbRecvBuffer (v.pcbRecvLength - 1).toNat with
      | error e =>
        have hnone : ∀ sw2, v.pbRecvBuffer[(v.pcbRecvLength - 1).toNat]? ≠ some sw2 := by
          intro sw2 hsw2
          rw [byteAt_natCast.mpr hsw2] at hsecond
          cases hsecond
        rw [staysWithin_read, staysWithin_read, and_iff_left (staysWithin_nil _ _)]
        exact ⟨fun h => ⟨⟨h.1, h.2, fun sw2 h' => absurd h' (hnone sw2)⟩,
          fun sw2 _ h' => absurd h' (hnone sw2)⟩,
          fun h => ⟨h.1.1, h.1.2.1⟩⟩
      | ok sw2 =>
        rw [byteAt_natCast.mp hsecond]
        simp only [Option.some.injEq, forall_eq']
        cases hanswer : transmitTo link hCard { v with pcbRecvLength := (announced sw2).toUInt32 + 2 }
            (getResponse (announced sw2)) (v.pcbRecvLength - 2).toNat with
        | error e =>
          rw [staysWithin_read, staysWithin_read, staysWithin_announce, and_iff_left (staysWithin_nil _ _)]
          refine (and_iff_left ?_).symm
          rintro _ v' rfl hok
          rw [hanswer] at hok
          cases hok
        | ok v' =>
          rw [staysWithin_read, staysWithin_read, staysWithin_announce, staysWithin_answered]
          constructor
          · rintro ⟨hfirst, hsecond, hrequest, hrest⟩
            refine ⟨⟨hfirst, hsecond, hrequest⟩, ?_⟩
            rintro _ next rfl hok
            rw [hanswer] at hok
            cases hok
            exact hrest
          · rintro ⟨⟨hfirst, hsecond, hrequest⟩, hrest⟩
            exact ⟨hfirst, hsecond, hrequest, hrest sw2 v' rfl hanswer⟩
    · dsimp only
      have hend : ¬ Continues v := fun h => hmore (hcontinues.mp h)
      rw [if_neg hmore, staysWithin_read, and_iff_left (staysWithin_nil _ _), roundFits_of_stop hend]
      exact (and_iff_left fun _ _ hmore => absurd hmore hend).symm

theorem answerFits_iff : AnswerFits capacity v ↔ 2 ≤ v.pcbRecvLength.toNat ∧ RoundFits capacity v := by
  unfold AnswerFits RoundFits
  refine and_congr_right fun hlen => ?_
  have htwo : (v.pcbRecvLength - 2).toNat = v.pcbRecvLength.toNat - 2 :=
    UInt32.toNat_sub_of_le _ _ (UInt32.le_iff_toNat_le.mpr hlen)
  have hone : (v.pcbRecvLength - 1).toNat = v.pcbRecvLength.toNat - 1 :=
    UInt32.toNat_sub_of_le _ _ (UInt32.le_iff_toNat_le.mpr (Nat.le_trans (by decide) hlen))
  have hroom : (v.pcbRecvLength - 1).toNat < capacity ↔ v.pcbRecvLength.toNat ≤ capacity := by omega
  rw [htwo, hroom]

/-- What is safe up to an answer is safe from there on. -/
theorem staysWithin_answers (hstart : ∀ fuel, StaysWithin capacity v₁.result
      (readoutLoopEvents link hCard fuel v₁ (v₁.pcbRecvLength - 2)).1)
    (hlen : 2 ≤ v₁.pcbRecvLength.toNat) (h : Answered link hCard v₁ v) :
    2 ≤ v.pcbRecvLength.toNat ∧ ∀ fuel, StaysWithin capacity v.result
      (readoutLoopEvents link hCard fuel v (v.pcbRecvLength - 2)).1 := by
  induction h with
  | first => exact ⟨hlen, hstart⟩
  | next before hmore hsw2 hanswer ih =>
    have hround (fuel : ℕ) := (staysWithin_round.mp (ih.2 (fuel + 1))).2 _ _ hmore hsw2 hanswer
    exact ⟨(hround 0).1, fun fuel => (hround fuel).2⟩

/-- If all answers fit, so do all rounds. -/
theorem staysWithin_of_answers (hfits : ∀ v', Answered link hCard v₁ v' → AnswerFits capacity v')
    (fuel : ℕ) (h : Answered link hCard v₁ v) :
    StaysWithin capacity v.result (readoutLoopEvents link hCard fuel v (v.pcbRecvLength - 2)).1 := by
  induction fuel generalizing v with
  | zero => exact staysWithin_nil _ _
  | succ fuel ih =>
    rw [staysWithin_round]
    refine ⟨(answerFits_iff.mp (hfits v h)).2, fun sw2 v' hmore hsw2 hanswer => ?_⟩
    have hnext : Answered link hCard v₁ v' := .next h hmore hsw2 hanswer
    exact ⟨(hfits v' hnext).1, ih hnext⟩

theorem readoutEvents_eq (hlen : v₁.pcbRecvLength = 2) (hauto : cfg.autoRequestData = true) (fuel : ℕ) :
    readoutEvents cfg link hCard fuel v₁ =
      (readoutLoopEvents link hCard fuel v₁ (v₁.pcbRecvLength - 2)).1 := by
  rw [readoutEvents, if_pos ⟨hlen, hauto⟩, hlen]
  rfl

/-- The readout of a call stays within the capacity exactly if every answer that
it gets fits. -/
theorem callStaysWithin_iff :
    CallStaysWithin cfg link hCard locals v pbSendBuffer cbSendLength ↔
      ∀ v₁, sendCommand cfg link hCard locals v pbSendBuffer cbSendLength = .ok v₁ →
        v₁.pcbRecvLength = 2 → cfg.autoRequestData = true →
        ∀ v', Answered link hCard v₁ v' → AnswerFits v.pcbRecvLength.toNat v' := by
  unfold CallStaysWithin
  rw [forall_comm]
  refine forall_congr' fun v₁ => ?_
  rw [forall_comm]
  refine imp_congr_right fun _ => ?_
  by_cases hread : v₁.pcbRecvLength = 2 ∧ cfg.autoRequestData = true
  · have hlen : 2 ≤ v₁.pcbRecvLength.toNat := by
      rw [hread.1]
      decide
    rw [forall_prop_of_true hread.1, forall_prop_of_true hread.2]
    simp only [readoutEvents_eq hread.1 hread.2]
    constructor
    · intro h v' hv'
      obtain ⟨hlen', hstays⟩ := staysWithin_answers h hlen hv'
      exact answerFits_iff.mpr ⟨hlen', (staysWithin_round.mp (hstays 1)).1⟩
    · exact fun h fuel => staysWithin_of_answers h fuel .first
  · have hnone (fuel : ℕ) : readoutEvents cfg link hCard fuel v₁ = [] := if_neg hread
    simp only [hnone]
    exact iff_of_true (fun _ => staysWithin_nil _ _) fun hlen hauto => absurd ⟨hlen, hauto⟩ hread

/-- An answer without a status word takes the offset back behind the end of all
memory. -/
theorem not_callStaysWithin_empty :
    ¬ CallStaysWithin readoutOnly (scripted [[0x61, 0x02], []]) 1 clearLocals localCall selectFile 7 := by
  intro h
  obtain ⟨v₀, hsend, hlength, hbuf, hcard, -⟩ := sendCommand_scripted 0x02 [[]]
  obtain ⟨hdest, -⟩ := sendCommand_ok hsend
  have hround := h 1 v₀ hsend
  rw [readoutEvents_eq hlength rfl, staysWithin_round] at hround
  have hoffset : v₀.pcbRecvLength - 2 = 0 := by
    rw [hlength]
    rfl
  have hmore : Continues v₀ := by
    rw [Continues, hoffset, hbuf]
    exact Or.inl rfl
  have hsw2 : v₀.pbRecvBuffer[(v₀.pcbRecvLength - 1).toNat]? = some 0x02 := by
    rw [hlength, hbuf]
    rfl
  have hlink : scripted [[0x61, 0x02], []] v₀.card 1 .originalLibrary (getResponse (announced 0x02))
      ((announced 0x02).toUInt32 + 2) = (⟨scardSSuccess, [], 0⟩, 2) := by
    rw [hcard]
    rfl
  have hanswer := transmitTo_eq (v := { v₀ with pcbRecvLength := (announced 0x02).toUInt32 + 2 })
    hdest hlink 0 (Nat.zero_le _)
  obtain ⟨hlen, -⟩ := hround.2 0x02 _ hmore hsw2 (by rw [hoffset]; exact hanswer)
  exact absurd (show 2 ≤ (0 : UInt32).toNat from hlen) (by decide)

end ApduPlay.ReadoutBounds
