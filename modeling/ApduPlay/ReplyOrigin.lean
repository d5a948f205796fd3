import ApduPlay.RemoteProxy
import ApduPlay.Library.FrameStream
import ApduPlay.Library.GuardedRuns

/-!
# Which reply a response comes from

Late replies and the rests of replies that were cut stay in the stream. They
belong to earlier requests or do not begin like a reply. So what is stored for a
request is taken from the reply to that request, unless a late reply was cut
where its number reads as the one of the request.
-/

namespace ApduPlay.ReplyOrigin

open RemoteProxy TextNumbers TextSearch FrameStream GuardedRuns

variable {r : Reply} {raw rest text : Text} {id : UInt32} {status : Status}

/-- Only the beginning of a reply looks like one. -/
theorem framed_line : Framed 62 Reply.line := by
  intro r
  refine ⟨_, rfl, fun hmem => ?_⟩
  rcases List.mem_append.mp hmem with hdigit | hmem
  · exact absurd (mem_printedID hdigit).2 (by decide)
  rcases List.mem_cons.mp hmem with hseparator | hmem
  · exact absurd hseparator (by decide)
  rcases List.mem_append.mp hmem with hbody | hend
  · exact (r.bare 62 hbody).1 rfl
  · exact absurd hend (by decide)

/-- A response is read from the beginning of the stream. -/
theorem receiveResponse_reads (endSeq ret : Text) (s : Socket) :
    ∃ read skipped, s.unread = read ++ (skipped ++ (s.receiveResponse endSeq ret).2.unread) ∧
      (s.receiveResponse endSeq ret).1 = ret ++ read := by
  induction ret, s using Socket.receiveResponse.induct endSeq with
  | case1 ret s hmore ih =>
    obtain ⟨line, hunread, -, hline⟩ := receiveLineFrom_reads s.recvs [] s.unread
    obtain ⟨read, skipped, hnext, hraw⟩ := ih
    have hfirst : s.receiveLine.1 = line := hline.resolve_right hmore.1
    rw [Socket.receiveResponse, if_pos hmore]
    refine ⟨line ++ read, skipped, ?_, ?_⟩
    · rw [List.append_assoc, ← hnext]
      exact hunread
    · rw [hraw, hfirst, List.append_assoc]
  | case2 ret s hstop =>
    obtain ⟨line, hunread, -, hline⟩ := receiveLineFrom_reads s.recvs [] s.unread
    rw [Socket.receiveResponse, if_neg hstop]
    rcases hline with hline | hline
    · exact ⟨line, [], hunread, congrArg (ret ++ ·) hline⟩
    · exact ⟨[], line, hunread, congrArg (ret ++ ·) hline⟩

/-- What is read of a reply ends in its number, or goes on behind it. -/
theorem read_cases (hraw : raw <+: r.line ++ rest) (hne : raw ≠ []) :
    (∃ k, raw = 62 :: (printedID r.id).take k) ∨
      ∃ t, raw = 62 :: (printedID r.id ++ 58 :: t) ∧ t <+: r.body ++ [64, 64, 10] ++ rest := by
  have hline : r.line ++ rest =
      (62 :: printedID r.id) ++ 58 :: (r.body ++ [64, 64, 10] ++ rest) := by
    simp [Reply.line]
  rw [hline] at hraw
  obtain hnumber | ⟨u, rfl, hu⟩ := cases_of_prefix_append hraw
  · obtain ⟨c, p, rfl⟩ := List.exists_cons_of_ne_nil hne
    obtain ⟨rfl, hp⟩ := List.cons_prefix_cons.mp hnumber
    exact Or.inl ⟨p.length, congrArg (62 :: ·) (List.prefix_iff_eq_take.mp hp)⟩
  · cases u with
    | nil => exact Or.inl ⟨(printedID r.id).length, by rw [List.take_length, List.append_nil]⟩
    | cons c t =>
      obtain ⟨rfl, ht⟩ := List.cons_prefix_cons.mp hu
      exact Or.inr ⟨t, rfl, ht⟩

/-- What is read behind the number ends in the body or before the second
character of the end sequence, or goes on behind that. -/
theorem body_cases {t : Text} (ht : t <+: r.body ++ [64, 64, 10] ++ rest) :
    t <+: r.body ++ [64] ∨ ∃ s, t = r.body ++ ([64] ++ 64 :: s) := by
  have hsplit : r.body ++ [64, 64, 10] ++ rest = (r.body ++ [64]) ++ 64 :: 10 :: rest := by simp
  rw [hsplit] at ht
  obtain hshort | ⟨u, rfl, hu⟩ := cases_of_prefix_append ht
  · exact Or.inl hshort
  · cases u with
    | nil => exact Or.inl (by rw [List.append_nil])
    | cons c s =>
      obtain ⟨rfl, -⟩ := List.cons_prefix_cons.mp hu
      exact Or.inr ⟨s, by simp⟩

/-- Without a separator everything behind the first character is the number,
and the response begins with the first character. -/
theorem remoteParseResponse_unseparated {p : Text} (hp : 58 ∉ p) :
    remoteParseResponse (62 :: p) id =
      if id ≠ toDword (atoi p) then .ok (scardFCommError, none)
      else .ok (scardSSuccess, some (substr (62 :: p) 0 (find remoteSocketEndseq (62 :: p)))) := by
  have hseparator : find cmdSeparator (62 :: p) = none :=
    find_singleton_eq_none (by simpa using hp)
  unfold remoteParseResponse
  simp only [hseparator, ne_eq, not_true_eq_false, if_false, Option.map_none, Option.elim_none,
    substr, List.drop_zero, List.drop_succ_cons]

/-- Without an end sequence it is the whole text. -/
theorem remoteParseResponse_number {p : Text} (hp : 58 ∉ p) (hend : 64 ∉ p) :
    remoteParseResponse (62 :: p) id =
      if id ≠ toDword (atoi p) then .ok (scardFCommError, none) else .ok (scardSSuccess, some (62 :: p)) := by
  have hendseq : find remoteSocketEndseq (62 :: p) = none := by
    cases hfind : find remoteSocketEndseq (62 :: p) with
    | none => rfl
    | some k =>
      have hmem : 64 ∈ 62 :: p := (infix_of_find hfind).subset List.mem_cons_self
      exact absurd hmem (by simpa using hend)
  rw [remoteParseResponse_unseparated hp, hendseq, substr, List.drop_zero]

/-- Behind the first separator stands the response. -/
theorem remoteParseResponse_reply {p t : Text} (hp : 58 ∉ p) :
    remoteParseResponse (62 :: (p ++ 58 :: t)) id =
      if id ≠ toDword (atoi p) then .ok (scardFCommError, none)
      else .ok (scardSSuccess, some (substr t 0 (find remoteSocketEndseq t))) := by
  have hseparator : find cmdSeparator (62 :: (p ++ 58 :: t)) = some (p.length + 1) :=
    find_singleton (t := 62 :: p) (by simpa using hp) t
  have hnumber : substr (62 :: (p ++ 58 :: t)) 1 (some (p.length + 1 - 1)) = p := by
    simp [substr]
  have hrest : (62 :: (p ++ 58 :: t)).drop (p.length + 1 + 1) = t := by
    simp [List.drop_append]
  unfold remoteParseResponse
  simp only [hseparator, Option.map_some, hnumber, Option.elim_some, ne_eq, not_true_eq_false, if_false,
    hrest]
  have hsame : ∀ n, substr (62 :: (p ++ 58 :: t)) (p.length + 1 + 1) n = substr t 0 n := by
    intro n
    cases n <;> simp only [substr, hrest, List.drop_zero]
  rw [hsame]

/-- Neighbours that are not both the end character. -/
def NotEndseq (a b : UInt8) : Prop := a ≠ 64 ∨ b ≠ 64

theorem isChain_body {body : Text} (h : ∀ c ∈ body, c ≠ 64) : (body ++ [64]).IsChain NotEndseq := by
  induction body with
  | nil => exact List.isChain_singleton 64
  | cons c body ih =>
    obtain ⟨hc, hbody⟩ := List.forall_mem_cons.mp h
    exact List.isChain_cons.mpr ⟨fun _ _ => Or.inl hc, ih hbody⟩

theorem not_isChain_endseq : ¬ remoteSocketEndseq.IsChain NotEndseq := fun h =>
  (List.isChain_cons_cons.mp h).1.elim (fun h => h rfl) fun h => h rfl

/-- There is no end in what comes before it. -/
theorem find_endseq_short {t : Text} (ht : t <+: r.body ++ [64]) : find remoteSocketEndseq t = none := by
  have hbody : (r.body ++ [64]).IsChain NotEndseq := isChain_body fun c hc => (r.bare c hc).2.2.1
  have hchain : t.IsChain NotEndseq := List.IsChain.infix hbody ht.isInfix
  exact find_eq_none hchain not_isChain_endseq

/-- Line ends are replaced only where there are some. -/
theorem map_newlines {s : Text} (h : 10 ∉ s) : s.map (fun c => if c = 10 then 32 else c) = s := by
  have hkeep : ∀ c ∈ s, (if c = 10 then 32 else c) = c := by
    intro c hc
    have hne : c ≠ 10 := fun he => h (he ▸ hc)
    exact if_neg hne
  exact (List.map_congr_left hkeep).trans (List.map_id' s)

/-- The end is found behind the body. -/
theorem find_endseq_full (s : Text) : find remoteSocketEndseq (r.body ++ ([64] ++ 64 :: s)) =
    some r.body.length :=
  find_append (isChain_body fun c hc => (r.bare c hc).2.2.1) not_isChain_endseq s

/-- A text that was read from the reply. -/
def TakenFrom (r : Reply) (raw text : Text) : Prop :=
  ∃ before after, r.line = before ++ text ++ after ∧ before ++ text <+: raw

/-- What is read of the body, possibly with one character more, is taken from it. -/
theorem takenFrom_body {t : Text} (htext : text <+: r.body ++ [64]) (hread : text <+: t) :
    10 ∉ text ∧ TakenFrom r (62 :: (printedID r.id ++ 58 :: t)) text := by
  constructor
  · intro hmem
    rcases List.mem_append.mp (htext.subset hmem) with hbody | hend
    · exact (r.bare 10 hbody).2.2.2 rfl
    · exact absurd hend (by decide)
  · obtain ⟨more, hmore⟩ := htext
    obtain ⟨unused, rfl⟩ := hread
    refine ⟨62 :: (printedID r.id ++ [58]), more ++ [64, 10], ?_, unused, by simp⟩
    have hbody : r.body ++ [64, 64, 10] = text ++ more ++ [64, 10] := by
      rw [hmore, List.append_assoc]
      rfl
    simp [Reply.line, hbody]

/-- What a read that begins with a reply stores belongs to that reply, and the
request has its number or one that is read from the beginning of it. -/
theorem stored_of_read (hraw : raw <+: r.line ++ rest)
    (hparse : remoteParseResponse raw id = .ok (status, some text)) :
    (r.id = id ∨ ∃ k, raw = 62 :: (printedID r.id).take k ∧ toDword (atoi ((printedID r.id).take k)) = id) ∧
      10 ∉ text ∧ TakenFrom r raw text := by
  have hne : raw ≠ [] := by
    rintro rfl
    cases hparse
  obtain ⟨k, rfl⟩ | ⟨t, rfl, ht⟩ := read_cases hraw hne
  · have hdigits : ∀ c ∈ (printedID r.id).take k, c.toNat ≤ 57 := fun c hc =>
      (mem_printedID (List.mem_of_mem_take hc)).2
    rw [remoteParseResponse_number (fun h => absurd (hdigits _ h) (by decide))
      (fun h => absurd (hdigits _ h) (by decide))] at hparse
    split_ifs at hparse with hid
    · cases hparse
    · cases hparse
      refine ⟨Or.inr ⟨k, rfl, (not_not.mp hid).symm⟩, ?_, [],
        (printedID r.id).drop k ++ 58 :: (r.body ++ [64, 64, 10]), ?_, List.prefix_rfl⟩
      · intro hmem
        rcases List.mem_cons.mp hmem with hfirst | hdigit
        · exact absurd hfirst (by decide)
        · exact absurd (mem_printedID (List.mem_of_mem_take hdigit)).1 (by decide)
      · simp [Reply.line, ← List.append_assoc]
  · rw [remoteParseResponse_reply (separator_notMem_printedID r.id), toDword_atoi_printedID] at hparse
    split_ifs at hparse with hid
    · cases hparse
    · cases hparse
      refine ⟨Or.inl (not_not.mp hid).symm, ?_⟩
      obtain hshort | ⟨s, rfl⟩ := body_cases ht
      · rw [find_endseq_short hshort, substr, List.drop_zero]
        exact takenFrom_body hshort List.prefix_rfl
      · rw [find_endseq_full, substr, List.drop_zero, List.take_left]
        exact takenFrom_body (List.prefix_append _ _) (List.prefix_append _ _)

/-- A whole reply ends with its line end. -/
theorem line_eq (r : Reply) :
    r.line = 62 :: (printedID r.id ++ 58 :: (r.body ++ [64, 64])) ++ [10] ∧
      10 ∉ 62 :: (printedID r.id ++ 58 :: (r.body ++ [64, 64])) := by
  constructor
  · simp [Reply.line]
  · intro hmem
    rcases List.mem_cons.mp hmem with hfirst | hmem
    · exact absurd hfirst (by decide)
    rcases List.mem_append.mp hmem with hdigit | hmem
    · exact absurd (mem_printedID hdigit).1 (by decide)
    rcases List.mem_cons.mp hmem with hseparator | hmem
    · exact absurd hseparator (by decide)
    rcases List.mem_append.mp hmem with hbody | hend
    · exact (r.bare 10 hbody).2.2.2 rfl
    · exact absurd hend (by decide)

/-- A stream begins with one number only. -/
theorem id_eq_of_line {r' : Reply} {rest' : Text} (h : r.line ++ rest = r'.line ++ rest') : r.id = r'.id := by
  have hnumber : printedID r.id ++ 58 :: (r.body ++ [64, 64, 10] ++ rest) =
      printedID r'.id ++ 58 :: (r'.body ++ [64, 64, 10] ++ rest') := by
    simpa [Reply.line] using h
  have hsame := (append_cons_inj (separator_notMem_printedID r.id) (separator_notMem_printedID r'.id)
    hnumber).1
  have hid := toDword_atoi_printedID r.id
  rwa [hsame, toDword_atoi_printedID, eq_comm] at hid

/-- The stream holds the rest of a reply and whole replies to requests that
were made, and the numbers of requests grow. -/
structure Consistent (t : Traced) : Prop where
  /-- What is unread. -/
  stream : ∃ replies, Unread 62 Reply.line replies t.session.unread ∧ ∀ r ∈ replies, r.id ∈ t.asked
  /-- Numbers drawn so far. -/
  asked_le : ∀ id ∈ t.asked, id.toNat ≤ t.session.nextCommandID.toNat
  /-- At most two for a request. -/
  bounded : t.session.nextCommandID.toNat ≤ 1 + 2 * t.asked.length

/-- At first nothing is pending. -/
theorem consistent_initial : Consistent Traced.initial where
  stream := ⟨[], unread_nil, List.forall_mem_nil _⟩
  asked_le := List.forall_mem_nil _
  bounded := by decide

variable {t : Traced} {request : Request}

/-- The text is taken from the reply to this request, with which the stream
begins. No other request has its number. -/
def OwnCharacters (t : Traced) (request : Request) (text : Text) : Prop :=
  t.session.unread = [] ∧ ∃ r rest, request.replies = r :: rest ∧
    r.id = t.session.commandID request ∧ r.id ∉ t.asked ∧ TakenFrom r (t.session.rawResponse request) text

/-- Preparing a request leaves the stream alone. -/
theorem prepare_unread (s : ProxySession) (request : Request) : (s.prepare request).unread = s.unread := by
  unfold ProxySession.prepare
  split_ifs <;> rfl

/-- The state after a request. -/
theorem request_session (s : ProxySession) (request : Request) :
    (s.request request).2 = ⟨s.commandID request,
      ((Socket.mk (s.unread ++ request.arriving) request.recvs).receiveResponse remoteSocketEndseq
        []).2.unread⟩ := by
  rw [ProxySession.request, ProxySession.exchange, prepare_unread]
  rfl

/-- What is stored is what was parsed, with blanks for line ends. -/
theorem request_stored {s : ProxySession} {request : Request} (h : (s.request request).1.stored = some text) :
    ∃ status parsed, remoteParseResponse (s.rawResponse request) (s.commandID request) =
      .ok (status, some parsed) ∧
      text = parsed.map fun c => if c = 10 then 32 else c := by
  rw [ProxySession.request, ProxySession.exchange, prepare_unread] at h
  dsimp only at h
  rw [← ProxySession.rawResponse, ← ProxySession.commandID] at h
  cases hparse : remoteParseResponse (s.rawResponse request) (s.commandID request) with
  | error e =>
    rw [hparse] at h
    cases h
  | ok answer =>
    obtain ⟨status, response⟩ := answer
    rw [hparse] at h
    obtain ⟨parsed, hparsed, htext⟩ := Option.map_eq_some_iff.mp h
    exact ⟨status, parsed, by rw [hparsed], htext.symm⟩

/-- A response is parsed only if it begins like a reply. -/
theorem cons_of_parsed (h : remoteParseResponse raw id = .ok (status, some text)) : ∃ p, raw = 62 :: p := by
  cases raw with
  | nil => cases h
  | cons c p =>
    unfold remoteParseResponse at h
    dsimp only at h
    by_cases hc : c ≠ 62
    · rw [if_pos hc] at h
      cases h
    · exact ⟨p, by rw [not_not.mp hc]⟩

/-- A request draws one or two numbers. -/
theorem toNat_commandID (hcons : Consistent t) (hroom : t.asked.length + 1 < 2 ^ 31) (request : Request) :
    t.session.nextCommandID.toNat < (t.session.commandID request).toNat ∧
      (t.session.commandID request).toNat ≤ t.session.nextCommandID.toNat + 2 := by
  have hbounded := hcons.bounded
  unfold ProxySession.commandID ProxySession.prepare
  split_ifs <;> simp only [UInt32.toNat_add, UInt32.toNat_one] <;> omega

/-- A new number has not been asked for. -/
theorem not_mem_asked (hcons : Consistent t) (hroom : t.asked.length + 1 < 2 ^ 31) (request : Request) :
    t.session.commandID request ∉ t.asked := fun hmem =>
  absurd (hcons.asked_le _ hmem) (Nat.not_le.mpr (toNat_commandID hcons hroom request).1)

/-- A request leaves the rest of a reply and whole replies. -/
theorem unread_request {s : ProxySession} {replies : List Reply}
    (h : Unread 62 Reply.line replies (s.unread ++ request.arriving)) :
    ∃ replies', replies' <:+ replies ∧ Unread 62 Reply.line replies' (s.request request).2.unread := by
  obtain ⟨read, skipped, hstream, -⟩ := receiveResponse_reads remoteSocketEndseq []
    (Socket.mk (s.unread ++ request.arriving) request.recvs)
  dsimp only at hstream
  rw [hstream, ← List.append_assoc] at h
  rw [request_session]
  exact Unread.of_append framed_line h

/-- The stream that a request reads from. -/
theorem unread_arriving (hcons : Consistent t) (honly : OnlyAsked t request) :
    ∃ replies, Unread 62 Reply.line (replies ++ request.replies) (t.session.unread ++ request.arriving) ∧
      (∀ r ∈ replies, r.id ∈ t.asked) ∧
      ∀ r ∈ replies ++ request.replies, r.id ∈ t.asked ++ [t.session.commandID request] := by
  obtain ⟨replies, hunread, hasked⟩ := hcons.stream
  refine ⟨replies, hunread.append request.replies, hasked, fun r hr => ?_⟩
  rcases List.mem_append.mp hr with hold | hnew
  · exact List.mem_append_left _ (hasked r hold)
  · rcases honly r hnew with hr | hr
    · exact List.mem_append_left _ hr
    · exact List.mem_append_right _ (List.mem_singleton.mpr hr)

/-- A request keeps the session consistent. -/
theorem consistent_step (hcons : Consistent t) (hroom : t.asked.length + 1 < 2 ^ 31)
    (honly : OnlyAsked t request) : Consistent (t.step request) := by
  obtain ⟨hlow, hhigh⟩ := toNat_commandID hcons hroom request
  refine ⟨?_, ?_, ?_⟩
  · obtain ⟨replies, hunread, -, hasked⟩ := unread_arriving hcons honly
    obtain ⟨replies', hsuffix, hrest⟩ := unread_request hunread
    exact ⟨replies', hrest, fun r hr => hasked r (hsuffix.subset hr)⟩
  · intro id hid
    rw [Traced.step, request_session]
    rcases List.mem_append.mp hid with hold | hnew
    · exact Nat.le_of_lt (Nat.lt_of_le_of_lt (hcons.asked_le id hold) hlow)
    · rw [List.mem_singleton.mp hnew]
  · have hbounded := hcons.bounded
    rw [Traced.step, request_session]
    simp only [List.length_append, List.length_singleton]
    omega

/-- The stream begins with another reply, and of that one the request reads exactly
what its own would begin with up to the number. -/
def CutAtNumber (t : Traced) (request : Request) : Prop :=
  ∃ late rest, t.session.unread ++ request.arriving = Reply.line late ++ rest ∧
    late.id ≠ t.session.commandID request ∧
    t.session.rawResponse request = 62 :: printedID (t.session.commandID request)

/-- Then the beginning of that reply is stored. -/
theorem stored_of_cutAtNumber (hcut : CutAtNumber t request) :
    (t.session.request request).1.stored = some (t.session.rawResponse request) := by
  obtain ⟨late, rest, -, -, hraw⟩ := hcut
  have hdigits : ∀ c ∈ printedID (t.session.commandID request), 45 ≤ c.toNat ∧ c.toNat ≤ 57 :=
    fun c hc => mem_printedID hc
  have hparse : remoteParseResponse (t.session.rawResponse request) (t.session.commandID request) =
      .ok (scardSSuccess, some (t.session.rawResponse request)) := by
    rw [hraw, remoteParseResponse_number (fun h => absurd (hdigits _ h).2 (by decide))
      (fun h => absurd (hdigits _ h).2 (by decide)), toDword_atoi_printedID, if_neg (not_not.mpr rfl)]
  have hline : 10 ∉ t.session.rawResponse request := by
    rw [hraw]
    intro hmem
    rcases List.mem_cons.mp hmem with hfirst | hdigit
    · exact absurd hfirst (by decide)
    · exact absurd (hdigits _ hdigit).1 (by decide)
  rw [ProxySession.request, ProxySession.exchange, prepare_unread]
  dsimp only
  rw [← ProxySession.rawResponse, ← ProxySession.commandID, hparse]
  exact congrArg some (map_newlines hline)

/-- What a request stores is taken from its own reply, unless another one was cut so. -/
theorem ownCharacters_of_stored (hcons : Consistent t) (hroom : t.asked.length + 1 < 2 ^ 31)
    (honly : OnlyAsked t request) (hcut : ¬ CutAtNumber t request)
    (hstored : (t.session.request request).1.stored = some text) : OwnCharacters t request text := by
  obtain ⟨status, parsed, hparse, rfl⟩ := request_stored hstored
  obtain ⟨replies, hunread, hold, hasked⟩ := unread_arriving hcons honly
  obtain ⟨read, skipped, hstream, hraw⟩ := receiveResponse_reads remoteSocketEndseq []
    (Socket.mk (t.session.unread ++ request.arriving) request.recvs)
  rw [List.nil_append, ← ProxySession.rawResponse] at hraw
  dsimp only at hstream
  rw [← hraw] at hstream
  obtain ⟨p, hp⟩ := cons_of_parsed hparse
  rw [hstream, hp, List.cons_append] at hunread
  obtain ⟨r, rest, hreplies, hhead⟩ := hunread.of_start
  rw [← List.cons_append, ← hp, ← hstream] at hhead
  have hread : t.session.rawResponse request <+: r.line ++ rest.flatMap Reply.line := by
    rw [← hhead, hstream]
    exact List.prefix_append _ _
  have hle : r.id.toNat ≤ (t.session.commandID request).toNat := by
    rcases List.mem_append.mp (hasked r (hreplies ▸ List.mem_cons_self)) with hmade | hnew
    · exact Nat.le_of_lt (Nat.lt_of_le_of_lt (hcons.asked_le _ hmade) (toNat_commandID hcons hroom request).1)
    · rw [List.mem_singleton.mp hnew]
  obtain ⟨hnumber, hline, htaken⟩ := stored_of_read hread hparse
  have hid : r.id = t.session.commandID request := by
    by_contra hother
    obtain ⟨k, hk, hvalue⟩ := hnumber.resolve_left hother
    rw [(take_printedID hvalue hle).resolve_left hother] at hk
    exact hcut ⟨r, _, hhead, hother, hk⟩
  have hfresh : r.id ∉ t.asked := hid ▸ not_mem_asked hcons hroom request
  have hnone : replies = [] := by
    cases replies with
    | nil => rfl
    | cons b replies =>
      have hb : b = r := (List.cons.inj hreplies).1
      exact absurd (hold r (hb ▸ List.mem_cons_self)) hfresh
  subst hnone
  rw [map_newlines hline]
  refine ⟨?_, r, rest, hreplies, hid, hfresh, htaken⟩
  rw [← List.flatMap_cons, ← hreplies, List.nil_append] at hhead
  exact List.append_left_eq_self.mp hhead

/-- What is stored then is not taken from the request's own reply. -/
theorem not_ownCharacters_of_cutAtNumber (hcut : CutAtNumber t request) :
    ¬ OwnCharacters t request text := by
  rintro ⟨hempty, r, rest, hreplies, hid, -, -⟩
  obtain ⟨late, rest', hstream, hother, -⟩ := hcut
  rw [hempty, List.nil_append, Request.arriving, hreplies, List.flatMap_cons] at hstream
  exact hother ((id_eq_of_line hstream).symm.trans hid)

/-- The session after some requests. -/
def after (requests : List Request) : Traced := requests.foldl Traced.step Traced.initial

/-- Every request is asked for once. -/
theorem length_asked (requests : List Request) : (after requests).asked.length = requests.length := by
  have hstep : ∀ (rs : List Request) (t : Traced), (rs.foldl Traced.step t).asked.length =
    t.asked.length + rs.length := by
    intro rs
    induction rs with
    | nil => exact fun t => rfl
    | cons request rs ih =>
      intro t
      rw [List.foldl_cons, ih, Traced.step, List.length_append, List.length_singleton, List.length_cons]
      omega
  exact (hstep requests Traced.initial).trans (Nat.zero_add _)

/-- The session is consistent all along. -/
theorem consistent_after {requests : List Request} (hfew : requests.length < 2 ^ 31)
    (honly : Guarded Traced.step OnlyAsked Traced.initial requests) {k : ℕ} (hk : k ≤ requests.length) :
    Consistent (after (requests.take k)) := by
  induction k with
  | zero => exact consistent_initial
  | succ k ih =>
    obtain ⟨request, hrequest⟩ : ∃ request, requests[k]? = some request :=
      ⟨_, List.getElem?_eq_getElem (Nat.lt_of_succ_le hk)⟩
    have htake : requests.take (k + 1) = requests.take k ++ [request] := by
      rw [List.take_add_one, hrequest]
      rfl
    have hroom : (after (requests.take k)).asked.length + 1 < 2 ^ 31 := by
      rw [length_asked, List.length_take]
      omega
    rw [after, htake, List.foldl_append]
    exact consistent_step (ih (by omega)) hroom (honly k request hrequest)

end ApduPlay.ReplyOrigin
