import ApduPlay.TextNumbers
import ApduPlay.Library.TextSearch

/-!
# Requests to the remote proxy

Requests are numbered, and all of them share one socket. A reply that is not
read in time stays in the stream for the reads of later requests. What the
proxy sends, and which attempts to receive a character are in time, is an
argument of each request.
-/

namespace ApduPlay.RemoteProxy

open TextNumbers TextSearch

/-- `CMD_SEPARATOR` -/
def cmdSeparator : Text := [58]

/-- `REMOTE_SOCKET_ENDSEQ` -/
def remoteSocketEndseq : Text := [64, 64]

/-- How an attempt to receive one character ends. -/
inductive Recv
  /-- The next character is there in time. -/
  | arrived
  /-- It is not. -/
  | timedOut
  /-- The connection is lost. -/
  | closed
  deriving DecidableEq, Repr

/-- The receiving side of the socket. -/
structure Socket where
  /-- Characters that the proxy sent and nobody has read. -/
  unread : Text
  /-- The attempts to come. All later ones time out. -/
  recvs : List Recv
  deriving DecidableEq, Repr

/-- The loop of `ReceiveLine`, with what it has received. -/
def receiveLineFrom : List Recv → Text → Text → Text × Socket
  | [], ret, unread => (ret, ⟨unread, []⟩)
  | .timedOut :: recvs, ret, unread => (ret, ⟨unread, recvs⟩)
  | .closed :: recvs, _, unread => ([], ⟨unread, recvs⟩)
  | .arrived :: recvs, ret, [] => (ret, ⟨[], recvs⟩)
  | .arrived :: recvs, ret, r :: unread =>
    if r = 10 then (ret ++ [r], ⟨unread, recvs⟩) else receiveLineFrom recvs (ret ++ [r]) unread

/-- `ReceiveLine`: the text up to a line end or a timeout, empty once the
connection is lost. -/
def Socket.receiveLine (s : Socket) : Text × Socket := receiveLineFrom s.recvs [] s.unread

/-- What one call of `ReceiveLine` takes from the stream. -/
theorem receiveLineFrom_reads (recvs : List Recv) (ret unread : Text) :
    ∃ read, unread = read ++ (receiveLineFrom recvs ret unread).2.unread ∧
      read.length + (receiveLineFrom recvs ret unread).2.recvs.length ≤ recvs.length ∧
      ((receiveLineFrom recvs ret unread).1 = ret ++ read ∨ (receiveLineFrom recvs ret unread).1 = []) := by
  induction recvs generalizing ret unread with
  | nil => exact ⟨[], rfl, Nat.le_refl 0, Or.inl (List.append_nil ret).symm⟩
  | cons outcome recvs ih =>
    cases outcome with
    | timedOut => exact ⟨[], rfl, by simp [receiveLineFrom], Or.inl (List.append_nil ret).symm⟩
    | closed => exact ⟨[], rfl, by simp [receiveLineFrom], Or.inr rfl⟩
    | arrived =>
      cases unread with
      | nil => exact ⟨[], rfl, by simp [receiveLineFrom], Or.inl (List.append_nil ret).symm⟩
      | cons r unread =>
        unfold receiveLineFrom
        split_ifs
        · exact ⟨[r], rfl, by simp [Nat.add_comm], Or.inl rfl⟩
        · obtain ⟨read, hunread, hlength, hline⟩ := ih (ret ++ [r]) unread
          refine ⟨r :: read, congrArg (r :: ·) hunread, ?_, ?_⟩
          · simp only [List.length_cons]
            omega
          · rwa [List.append_assoc] at hline

/-- A line that is not empty took attempts. -/
theorem Socket.length_receiveLine_lt {s : Socket} (h : s.receiveLine.1 ≠ []) :
    s.receiveLine.2.recvs.length < s.recvs.length := by
  obtain ⟨read, -, hlength, hline | hline⟩ := receiveLineFrom_reads s.recvs [] s.unread
  · have hread : read ≠ [] := fun hnil => h (hline.trans hnil)
    have hpos : 0 < read.length := List.length_pos_iff.mpr hread
    unfold receiveLine
    omega
  · exact absurd hline h

/-- `ReceiveResponse`, with what it has received: lines up to an empty one or
one with the end sequence. -/
def Socket.receiveResponse (endSeq ret : Text) (s : Socket) : Text × Socket :=
  if s.receiveLine.1 ≠ [] ∧ find endSeq s.receiveLine.1 = none then
    s.receiveLine.2.receiveResponse endSeq (ret ++ s.receiveLine.1)
  else (ret ++ s.receiveLine.1, s.receiveLine.2)
termination_by s.recvs.length
decreasing_by
  rename_i hmore
  exact length_receiveLine_lt hmore.1

/-- A response has no more characters than there are attempts to read. -/
theorem length_receiveResponse_le (endSeq ret : Text) (s : Socket) :
    (s.receiveResponse endSeq ret).1.length ≤ ret.length + s.recvs.length := by
  have hline : s.receiveLine.1.length + s.receiveLine.2.recvs.length ≤ s.recvs.length := by
    obtain ⟨read, -, hlength, hline | hline⟩ := receiveLineFrom_reads s.recvs [] s.unread
    · rw [List.nil_append] at hline
      rw [Socket.receiveLine, hline]
      exact hlength
    · rw [Socket.receiveLine, hline, List.length_nil]
      omega
  rw [Socket.receiveResponse]
  split_ifs with hmore
  · have hrest := length_receiveResponse_le endSeq (ret ++ s.receiveLine.1) s.receiveLine.2
    rw [List.length_append] at hrest
    omega
  · rw [List.length_append]
    omega
termination_by s.recvs.length
decreasing_by exact Socket.length_receiveLine_lt hmore.1

/-- A part of a text, up to its end without a number of characters. -/
def substr (s : Text) (pos : ℕ) : Option ℕ → Text
  | none => s.drop pos
  | some n => (s.drop pos).take n

/-- `atoi` -/
def atoi (str : Text) : ℤ := strtol 10 str

/-- An `int` as a `DWORD`. -/
def toDword (n : ℤ) : UInt32 := UInt32.ofNat (n % 2 ^ 32).toNat

/-- A command ID as `%d` prints it, which takes it as an `int`. -/
def printedID (id : UInt32) : Text :=
  if id.toNat < 2 ^ 31 then decimal id.toNat else 45 :: decimal (2 ^ 32 - id.toNat)

/-- A number that is read is a `long`. -/
theorem strtol_range (base : ℕ) (text : Text) : -2 ^ 31 ≤ strtol base text ∧ strtol base text < 2 ^ 31 := by
  unfold strtol
  dsimp only
  split_ifs <;> omega

/-- As a `DWORD` a number is taken modulo its range. -/
theorem toNat_toDword (n : ℤ) : (toDword n).toNat = (n % 2 ^ 32).toNat := by
  have hlt : (n % 2 ^ 32).toNat < 2 ^ 32 := by omega
  exact UInt32.toNat_ofNat_of_lt' hlt

/-- A command ID that is no negative `int` is compared as a number. -/
theorem toDword_atoi_iff {id : UInt32} {p : Text} (hid : id.toNat < 2 ^ 31) :
    toDword (atoi p) = id ↔ atoi p = id.toNat := by
  obtain ⟨hlow, hhigh⟩ := strtol_range 10 p
  rw [← UInt32.toNat_inj, toNat_toDword]
  unfold atoi
  omega

/-- A number that fits is read as it is written. -/
theorem atoi_decimal {n : ℕ} (hn : n < 2 ^ 31) : atoi (decimal n) = n := by
  have hend : ∀ c ∈ ([] : Text).head?, digitValue 10 c = none := by simp
  have hvalue := strtol_decimal n hend
  rw [List.append_nil] at hvalue
  rw [atoi, hvalue]
  omega

/-- Behind a minus sign the number is negative. -/
theorem atoi_minus_decimal (n : ℕ) : atoi (45 :: decimal n) = max (-(n : ℤ)) (-2 ^ 31) := by
  have hspace : (45 :: decimal n).dropWhile isSpace = 45 :: decimal n :=
    List.dropWhile_cons_of_neg (by decide)
  simp only [atoi, strtol, hspace, readSign, skipHexPrefix_ten, digitsValue_decimal, if_true]

/-- The printed number is read as the command ID. -/
theorem toDword_atoi_printedID (id : UInt32) : toDword (atoi (printedID id)) = id := by
  have hmax := id.toNat_lt
  unfold printedID
  split_ifs with hid
  · exact (toDword_atoi_iff hid).mpr (atoi_decimal hid)
  · rw [← UInt32.toNat_inj, toNat_toDword, atoi_minus_decimal]
    omega

/-- Printed numbers have digits and a minus sign. -/
theorem mem_printedID {id : UInt32} {c : UInt8} (h : c ∈ printedID id) : 45 ≤ c.toNat ∧ c.toNat ≤ 57 := by
  have hdigit : ∀ {n : ℕ}, c ∈ decimal n → 45 ≤ c.toNat ∧ c.toNat ≤ 57 := fun h => by
    obtain ⟨hlow, hhigh⟩ := mem_decimal h
    omega
  unfold printedID at h
  split_ifs at h
  · exact hdigit h
  · rcases List.mem_cons.mp h with rfl | h
    · decide
    · exact hdigit h

theorem separator_notMem_printedID (id : UInt32) : 58 ∉ printedID id := fun h =>
  absurd (mem_printedID h).2 (by decide)

theorem separator_notMem_decimal (n : ℕ) : 58 ∉ decimal n := fun h =>
  absurd (mem_decimal h).2 (by decide)

/-- The beginning of a printed number is read as no later number, unless it is how
that one is printed. -/
theorem take_printedID {id late : UInt32} {k : ℕ} (hread : toDword (atoi ((printedID late).take k)) = id)
    (hle : late.toNat ≤ id.toNat) : late = id ∨ (printedID late).take k = printedID id := by
  have hvalue := congrArg UInt32.toNat hread
  have hmax := id.toNat_lt
  rw [toNat_toDword] at hvalue
  by_cases hlate : late.toNat < 2 ^ 31
  · obtain ⟨hlow, hhigh⟩ := strtol_take_decimal late.toNat k
    rw [printedID, if_pos hlate, atoi] at hvalue
    exact Or.inl (UInt32.toNat_inj.mp (by omega))
  · rw [printedID, if_neg hlate] at hvalue ⊢
    rcases k with _ | _ | k
    · have hnone : atoi (List.take 0 (45 :: decimal (2 ^ 32 - late.toNat))) = 0 := by
        rw [List.take_zero]
        decide
      rw [hnone] at hvalue
      omega
    · have hsign : atoi (List.take 1 (45 :: decimal (2 ^ 32 - late.toNat))) = 0 := by
        rw [List.take_succ_cons, List.take_zero]
        decide
      rw [hsign] at hvalue
      omega
    · obtain ⟨m, hm, htake⟩ := take_decimal (2 ^ 32 - late.toNat) (Nat.succ_ne_zero k)
      rw [List.take_succ_cons, htake] at hvalue ⊢
      rw [atoi_minus_decimal] at hvalue
      refine Or.inr ?_
      rw [printedID, if_neg (by omega)]
      congr 2
      omega

/-- `Remote_ParseResponse`: the status, and what is assigned to the response if
anything is. Only the first character of an empty text throws. -/
def remoteParseResponse (rawResponse : Text) (expectedCommandID : UInt32) :
    Except Fault (Status × Option Text) :=
  match rawResponse with
  | [] => .error .outOfRange
  | c :: _ =>
    if c ≠ 62 then .ok (scardFCommError, none)
    else
      let separator := find cmdSeparator rawResponse
      let uniqueCmdID := substr rawResponse 1 (separator.map (· - 1))
      if expectedCommandID ≠ toDword (atoi uniqueCmdID) then .ok (scardFCommError, none)
      else
        -- Without a separator the position wraps around to the beginning.
        let pos := separator.elim 0 (· + 1)
        .ok (scardSSuccess, some (substr rawResponse pos (find remoteSocketEndseq (rawResponse.drop pos))))

/-- A reply of the proxy. Its body is free of the characters that structure it. -/
structure Reply where
  /-- Number of the request it answers. -/
  id : UInt32
  /-- What it answers. -/
  body : Text
  /-- None of the characters `>`, `:`, `@` and the line end. -/
  bare : ∀ c ∈ body, c ≠ 62 ∧ c ≠ 58 ∧ c ≠ 64 ∧ c ≠ 10

/-- Reply as it is sent. -/
def Reply.line (r : Reply) : Text :=
  62 :: (printedID r.id ++ 58 :: (r.body ++ [64, 64, 10]))

/-- The state of the library that concerns the proxy. -/
structure ProxySession where
  /-- Number drawn last. -/
  nextCommandID : UInt32
  /-- Characters of the stream that nobody has read. -/
  unread : Text
  deriving DecidableEq, Repr

/-- A new connection. -/
def ProxySession.initial : ProxySession := ⟨1, []⟩

/-- What a request comes to. -/
structure Outcome where
  /-- Returned status. -/
  status : Status
  /-- What is stored in the caller's response, if anything is. -/
  stored : Option Text
  deriving DecidableEq, Repr

/-- What `Remote_SendRequest` does over a socket that stays open. The arguments are
what comes into the stream until the response is read, and the attempts to read. -/
def ProxySession.exchange (s : ProxySession) (arriving : Text) (recvs : List Recv) :
    Outcome × ProxySession :=
  let uniqueCmdID := s.nextCommandID + 1
  let received := (Socket.mk (s.unread ++ arriving) recvs).receiveResponse remoteSocketEndseq []
  let parsed : Outcome :=
    match remoteParseResponse received.1 uniqueCmdID with
    | .ok (status, response) => ⟨status, response.map (·.map fun c => if c = 10 then 32 else c)⟩
    -- The exception is caught.
    | .error _ => ⟨scardSSuccess, none⟩
  (parsed, ⟨uniqueCmdID, received.2.unread⟩)

/-- One request, with what the proxy sends from the last read before it to the
last read for it, and how the attempts to read go. -/
structure Request where
  /-- Made for an APDU, which draws a number of its own before. -/
  forApdu : Bool
  /-- Replies that come into the stream. -/
  replies : List Reply
  /-- Attempts to read. -/
  recvs : List Recv

/-- What the proxy sends. -/
def Request.arriving (request : Request) : Text := request.replies.flatMap Reply.line

/-- The state in which the request is sent. -/
def ProxySession.prepare (s : ProxySession) (request : Request) : ProxySession :=
  if request.forApdu then { s with nextCommandID := s.nextCommandID + 1 } else s

/-- The number that the request gets. -/
def ProxySession.commandID (s : ProxySession) (request : Request) : UInt32 :=
  (s.prepare request).nextCommandID + 1

/-- The text that the request reads. -/
def ProxySession.rawResponse (s : ProxySession) (request : Request) : Text :=
  ((Socket.mk (s.unread ++ request.arriving) request.recvs).receiveResponse remoteSocketEndseq []).1

/-- Make a request. -/
def ProxySession.request (s : ProxySession) (request : Request) : Outcome × ProxySession :=
  (s.prepare request).exchange request.arriving request.recvs

/-- The session together with the numbers of the requests made. -/
structure Traced where
  /-- State of the library. -/
  session : ProxySession
  /-- Numbers of the requests. -/
  asked : List UInt32

/-- No request yet. -/
def Traced.initial : Traced := ⟨.initial, []⟩

/-- Make one request and keep track of its number. -/
def Traced.step (t : Traced) (request : Request) : Traced :=
  ⟨(t.session.request request).2, t.asked ++ [t.session.commandID request]⟩

/-- The proxy replies only to requests that it got. -/
def OnlyAsked (t : Traced) (request : Request) : Prop :=
  ∀ r ∈ request.replies, r.id ∈ t.asked ∨ r.id = t.session.commandID request

end ApduPlay.RemoteProxy
