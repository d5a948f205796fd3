import ApduPlay.ReplyOrigin

/-!
# Replies that come in time

Every request takes one reply from the stream and compares its number. A reply
that is in time is found only if nothing of an earlier one stands before it.
-/

namespace ApduPlay.ReplyOrder

open RemoteProxy TextNumbers TextSearch FrameStream GuardedRuns ReplyOrigin

variable {t : Traced} {request : Request} {r first : Reply} {rest : Text}

/-- The reply answers the request, and all that stands before its end is there
at every attempt to read. -/
def InTime (t : Traced) (request : Request) (r : Reply) : Prop :=
  r.id = t.session.commandID request ∧ ∃ earlier later more,
    request.replies = earlier ++ r :: later ∧
    request.recvs = List.replicate
      (t.session.unread ++ (earlier ++ [r]).flatMap Reply.line).length .arrived ++ more

/-- The request succeeds with the body of the reply. -/
def Answered (t : Traced) (request : Request) (r : Reply) : Prop :=
  (t.session.request request).1 = ⟨scardSSuccess, some r.body⟩

/-- The stream begins with a reply whose number is that of the request and whose
body is this one. -/
def BeginsWithAnswer (t : Traced) (request : Request) (r : Reply) : Prop :=
  ∃ first rest, t.session.unread ++ request.arriving = Reply.line first ++ rest ∧
    first.id = t.session.commandID request ∧ first.body = r.body

/-- A line that is there is received. -/
theorem receiveLineFrom_arrived {u : Text} (hu : 10 ∉ u) (ret rest : Text) (n : ℕ) (more : List Recv) :
    receiveLineFrom (List.replicate (u.length + 1 + n) .arrived ++ more) ret (u ++ 10 :: rest) =
      (ret ++ u ++ [10], ⟨rest, List.replicate n .arrived ++ more⟩) := by
  induction u generalizing ret with
  | nil => simp [Nat.add_comm, List.replicate_succ, receiveLineFrom]
  | cons c u ih =>
    obtain ⟨hc, hu⟩ := not_or.mp (mt List.mem_cons.mpr hu)
    have hcount : (c :: u).length + 1 + n = (u.length + 1 + n) + 1 := by
      simp only [List.length_cons]
      omega
    rw [hcount, List.replicate_succ, List.cons_append, List.cons_append, receiveLineFrom,
      if_neg fun he => hc he.symm, ih hu]
    simp

/-- A whole reply ends a response. -/
theorem find_endseq_line (r : Reply) : find remoteSocketEndseq r.line ≠ none := by
  have hchain : (62 :: (printedID r.id ++ 58 :: r.body) ++ [64]).IsChain NotEndseq := by
    refine isChain_body fun c hc => ?_
    rintro rfl
    rcases List.mem_cons.mp hc with hfirst | hmem
    · exact absurd hfirst (by decide)
    rcases List.mem_append.mp hmem with hdigit | hmem
    · exact absurd (mem_printedID hdigit).2 (by decide)
    rcases List.mem_cons.mp hmem with hseparator | hbody
    · exact absurd hseparator (by decide)
    · exact (r.bare 64 hbody).2.2.1 rfl
  have hline : r.line = 62 :: (printedID r.id ++ 58 :: r.body) ++ ([64] ++ 64 :: [10]) := by
    simp [Reply.line]
  have hfind := find_append hchain not_isChain_endseq [10]
  rw [← hline] at hfind
  exact fun hnone => Option.some_ne_none _ (hfind.symm.trans hnone)

/-- The first line of the stream is there at every attempt to read. -/
theorem exists_firstLine (h : InTime t request r) :
    ∃ u rest n more, 10 ∉ u ∧ t.session.unread ++ request.arriving = u ++ 10 :: rest ∧
      request.recvs = List.replicate (u.length + 1 + n) .arrived ++ more := by
  obtain ⟨-, earlier, later, more, hreplies, hrecvs⟩ := h
  have hmem : 10 ∈ t.session.unread ++ (earlier ++ [r]).flatMap Reply.line := by
    refine List.mem_append_right _ (List.mem_flatMap.mpr ⟨r, by simp, ?_⟩)
    rw [(line_eq r).1]
    exact List.mem_append_right _ List.mem_cons_self
  obtain ⟨u, v, hsplit, hu⟩ := List.eq_append_cons_of_mem hmem
  refine ⟨u, v ++ later.flatMap Reply.line, v.length, more, hu, ?_, ?_⟩
  · have harriving : request.arriving = (earlier ++ [r]).flatMap Reply.line ++ later.flatMap Reply.line := by
      rw [Request.arriving, hreplies, ← List.flatMap_append]
      simp
    rw [harriving, ← List.append_assoc, hsplit]
    simp
  · rw [hrecvs, hsplit, List.length_append, List.length_cons]
    congr 2
    omega

/-- If the stream begins with a reply, that reply is the response. -/
theorem receiveResponse_line (h : InTime t request r)
    (hline : t.session.unread ++ request.arriving = first.line ++ rest) :
    ((Socket.mk (t.session.unread ++ request.arriving) request.recvs).receiveResponse
      remoteSocketEndseq []).1 =
        first.line ∧
      ((Socket.mk (t.session.unread ++ request.arriving) request.recvs).receiveResponse
        remoteSocketEndseq []).2.unread = rest := by
  obtain ⟨u, rest', n, more, hu, hstream, hrecvs⟩ := exists_firstLine h
  obtain ⟨hfirst, hend⟩ := line_eq first
  have hsame : u ++ [10] = first.line ∧ rest' = rest := by
    have hcut : u ++ 10 :: rest' =
        62 :: (printedID first.id ++ 58 :: (first.body ++ [64, 64])) ++ 10 :: rest := by
      rw [← hstream, hline, hfirst, List.append_assoc]
      rfl
    obtain ⟨rfl, rfl⟩ := append_cons_inj hu hend hcut
    exact ⟨hfirst.symm, rfl⟩
  have hreceive : (Socket.mk (t.session.unread ++ request.arriving) request.recvs).receiveLine =
      (first.line, ⟨rest, List.replicate n .arrived ++ more⟩) := by
    rw [Socket.receiveLine, hstream, hrecvs, receiveLineFrom_arrived hu, List.nil_append, hsame.1, hsame.2]
  rw [Socket.receiveResponse, hreceive, if_neg fun hmore => find_endseq_line first hmore.2]
  exact ⟨rfl, rfl⟩

/-- The number of a whole reply decides. -/
theorem remoteParseResponse_line (first : Reply) (id : UInt32) :
    remoteParseResponse first.line id =
      if id ≠ first.id then .ok (scardFCommError, none)
      else .ok (scardSSuccess, some first.body) := by
  have hline : first.line =
      62 :: (printedID first.id ++ 58 :: (first.body ++ ([64] ++ 64 :: [10]))) := rfl
  rw [hline, remoteParseResponse_reply (separator_notMem_printedID first.id), toDword_atoi_printedID,
    find_endseq_full, substr, List.drop_zero, List.take_left]

/-- What comes of a request if the stream begins with a reply. -/
theorem request_of_line (h : InTime t request r)
    (hline : t.session.unread ++ request.arriving = first.line ++ rest) :
    (t.session.request request).1 =
      if t.session.commandID request ≠ first.id then ⟨scardFCommError, none⟩
      else ⟨scardSSuccess, some first.body⟩ := by
  have hraw := (receiveResponse_line h hline).1
  rw [ProxySession.request, ProxySession.exchange, prepare_unread, hraw,
    ← ProxySession.commandID, remoteParseResponse_line]
  dsimp only
  split_ifs with hid
  · rfl
  · exact congrArg (fun body => Outcome.mk scardSSuccess (some body))
      (map_newlines fun hc => (first.bare 10 hc).2.2.2 rfl)

/-- The unread characters of every session are the rest of a reply and whole
replies. -/
theorem exists_unread (requests : List Request) :
    ∃ replies, Unread 62 Reply.line replies (after requests).session.unread := by
  have hstep : ∀ (rs : List Request) (t : Traced), (∃ replies,
    Unread 62 Reply.line replies t.session.unread) →
      ∃ replies, Unread 62 Reply.line replies (rs.foldl Traced.step t).session.unread := by
    intro rs
    induction rs with
    | nil => exact fun t h => h
    | cons request rs ih =>
      rintro t ⟨replies, h⟩
      obtain ⟨replies', -, hrest⟩ := unread_request (h.append request.replies)
      exact ih (t.step request) ⟨replies', hrest⟩
  exact hstep requests Traced.initial ⟨[], unread_nil⟩

/-- After any requests, one whose reply is in time succeeds with its body
exactly if the stream begins with a reply of that number and body. -/
theorem answered_iff {requests : List Request} (hin : InTime (after requests) request r) :
    Answered (after requests) request r ↔ BeginsWithAnswer (after requests) request r := by
  constructor
  · intro hanswered
    obtain ⟨replies, hunread⟩ := exists_unread requests
    have hstored : ((after requests).session.request request).1.stored = some r.body := by
      rw [hanswered]
    obtain ⟨status, parsed, hparse, -⟩ := request_stored hstored
    obtain ⟨p, hp⟩ := cons_of_parsed hparse
    obtain ⟨read, skipped, hstream, hraw⟩ := receiveResponse_reads remoteSocketEndseq []
      (Socket.mk ((after requests).session.unread ++ request.arriving) request.recvs)
    rw [List.nil_append, ← ProxySession.rawResponse] at hraw
    dsimp only at hstream
    have hall := hunread.append request.replies
    rw [← Request.arriving, hstream, ← hraw, hp, List.cons_append] at hall
    obtain ⟨first, rest, -, hhead⟩ := hall.of_start
    rw [← List.cons_append, ← hp, hraw, ← hstream] at hhead
    have houtcome := request_of_line hin hhead
    rw [hanswered] at houtcome
    split_ifs at houtcome with hid
    · cases houtcome
    · obtain hbody := Option.some.inj (congrArg Outcome.stored houtcome)
      exact ⟨first, rest.flatMap Reply.line, hhead, (not_not.mp hid).symm, hbody.symm⟩
  · rintro ⟨first, rest, hline, hid, hbody⟩
    rw [Answered, request_of_line hin hline, if_neg (not_not.mpr hid.symm), hbody]

/-- A reply that comes alone. -/
def replyTo (id : UInt32) : Reply := ⟨id, [65], by simp⟩

/-- A request whose reply is the only one, with all of it in time. -/
def promptRequest : Request := ⟨false, [replyTo 2], List.replicate 7 .arrived⟩

/-- The first request of a session is answered. -/
theorem answered_prompt : Answered (after []) promptRequest (replyTo 2) :=
  have hin : InTime (after []) promptRequest (replyTo 2) := ⟨by decide, [], [], [], rfl, by decide⟩
  (answered_iff hin).mpr ⟨replyTo 2, [], by decide, by decide +kernel, rfl⟩

/-- A request that is answered too late. -/
def lateRequest : Request := ⟨false, [], []⟩

/-- The next request, with the late reply before its own. -/
def nextRequest : Request := ⟨false, [replyTo 2, replyTo 3], List.replicate 14 .arrived⟩

/-- After a late reply the next request fails although its reply is in time. -/
theorem not_answered_late :
    ¬ ∀ (requests : List Request) (request : Request) (r : Reply),
      Guarded Traced.step OnlyAsked Traced.initial (requests ++ [request]) →
        InTime (after requests) request r → Answered (after requests) request r := by
  intro h
  have honly : Guarded Traced.step OnlyAsked Traced.initial ([lateRequest] ++ [nextRequest]) := by
    intro k request hrequest
    match k, hrequest with
    | 0, hrequest =>
      cases hrequest
      exact List.forall_mem_nil _
    | 1, hrequest =>
      cases hrequest
      refine List.forall_mem_cons.mpr ⟨Or.inl (by decide +kernel), List.forall_mem_singleton.mpr (Or.inr ?_)⟩
      decide +kernel
    | k + 2, hrequest => cases hrequest
  have hin : InTime (after [lateRequest]) nextRequest (replyTo 3) :=
    ⟨by decide +kernel, [replyTo 2], [], [], rfl, by decide +kernel⟩
  have hfailed : ((after [lateRequest]).session.request nextRequest).1 = ⟨scardFCommError, none⟩ := by
    decide +kernel
  have hanswered := h [lateRequest] nextRequest (replyTo 3) honly hin
  rw [Answered, hfailed] at hanswered
  cases hanswered

end ApduPlay.ReplyOrder
