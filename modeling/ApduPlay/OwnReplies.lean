import ApduPlay.RemoteRequests

/-!
# Requests that store their own replies

Over a socket that is kept, a run of requests is a run of a session with the proxy.
Each request stores only characters of its own reply, unless it reads of a late one
exactly what its own would begin with up to the number. With numbers from 2³¹ on,
which are printed with a minus sign, that can happen.
-/

namespace ApduPlay.OwnReplies

open RemoteProxy RemoteRequests ReplyOrigin GuardedRuns

/-- The configuration of a session whose socket is kept. -/
def config (s : ProxySession) : RemoteConfig := ⟨false, .connected s.unread, s.nextCommandID⟩

/-- What the proxy sends and how the attempts to read go. -/
def network (request : Request) : Network := ⟨true, request.arriving, request.recvs⟩

/-- `Remote_SendRequest` goes on to the next state of the session, and what it stores,
if anything, is taken from the reply to that very request. -/
def StoresOwn (t : Traced) (request : Request) : Prop :=
  ∀ targetReader command commandData : Text, ∃ requested,
    (config (t.session.prepare request)).remoteSendRequest (network request) targetReader command
        commandData [] = .ok requested ∧
      requested.cfg = config (t.step request).session ∧
      (requested.response ≠ [] → OwnCharacters t request requested.response)

variable {t : Traced} {request : Request}

/-- What is stored is what the session stores. -/
theorem storesOwn_of_session (h : ∀ text, (t.session.request request).1.stored = some text →
    OwnCharacters t request text) : StoresOwn t request := by
  intro targetReader command commandData
  obtain ⟨requested, hrequested, -, hresponse, hcfg⟩ := remoteSendRequest_kept (t.session.prepare request)
    (network request) targetReader command commandData
  refine ⟨requested, hrequested, hcfg, fun hsome => ?_⟩
  cases hstored : (t.session.request request).1.stored with
  | none =>
    rw [ProxySession.request] at hstored
    rw [network, hstored] at hresponse
    exact absurd hresponse hsome
  | some text =>
    have hown := h text hstored
    rw [ProxySession.request] at hstored
    rw [network, hstored] at hresponse
    rwa [hresponse]

/-- A reply that is cut where its number reads as the request's is stored. -/
theorem not_storesOwn_of_cutAtNumber (hcut : CutAtNumber t request) : ¬ StoresOwn t request := by
  intro h
  obtain ⟨requested, hrequested, -, hown⟩ := h [] [] []
  obtain ⟨requested', hrequested', -, hresponse, -⟩ := remoteSendRequest_kept (t.session.prepare request)
    (network request) [] [] []
  cases hrequested.symm.trans hrequested'
  have hstored := stored_of_cutAtNumber hcut
  rw [ProxySession.request] at hstored
  rw [network, hstored, Option.getD_some] at hresponse
  have hsome : requested.response ≠ [] := by
    obtain ⟨late, rest, -, -, hraw⟩ := hcut
    rw [hresponse, hraw]
    exact List.cons_ne_nil _ _
  exact not_ownCharacters_of_cutAtNumber hcut (hown hsome)

/-- In every run, however replies are delayed, read late or cut, a request stores only
characters of its own reply exactly if it does not read of another one just what its own
would begin with up to the number. -/
theorem storesOwn_iff {requests : List Request} (hfew : requests.length < 2 ^ 31)
    (honly : Guarded Traced.step OnlyAsked Traced.initial requests) {k : ℕ} {request : Request}
    (hrequest : requests[k]? = some request) :
    StoresOwn (after (requests.take k)) request ↔ ¬ CutAtNumber (after (requests.take k)) request := by
  obtain ⟨hk, -⟩ := List.getElem?_eq_some_iff.mp hrequest
  have hroom : (after (requests.take k)).asked.length + 1 < 2 ^ 31 := by
    rw [length_asked, List.length_take]
    omega
  refine ⟨fun hown hcut => not_storesOwn_of_cutAtNumber hcut hown, fun hcut => ?_⟩
  exact storesOwn_of_session fun text hstored => ownCharacters_of_stored
    (consistent_after hfew honly (Nat.le_of_lt hk)) hroom (honly k request hrequest) hcut hstored

/-- A reply of which all but the last characters of the line are in time. -/
def slowReply : Request where
  forApdu := false
  replies := [⟨2, [65, 66], by simp⟩]
  recvs := List.replicate 4 .arrived

/-- The beginning of the body that was read in time is stored. -/
theorem storesOwn_slow : StoresOwn (after []) slowReply := by
  have honly : Guarded Traced.step OnlyAsked Traced.initial [slowReply] := by
    intro k request hrequest r hr
    obtain ⟨rfl, rfl⟩ : k = 0 ∧ request = slowReply := by
      cases k with
      | zero => exact ⟨rfl, (Option.some.inj hrequest).symm⟩
      | succ k => cases hrequest
    obtain rfl := List.mem_singleton.mp hr
    exact Or.inr (by decide)
  have hraw : (after []).session.rawResponse slowReply = ascii ">2:A" := by decide +kernel
  have hnumber : 62 :: printedID ((after []).session.commandID slowReply) = ascii ">2" := by decide +kernel
  refine (storesOwn_iff (by decide) honly (k := 0) rfl).mpr ?_
  rintro ⟨-, -, -, -, hcut⟩
  exact absurd (hraw.symm.trans (hcut.trans hnumber)) (by decide)

/-- An APDU request that is not answered in time. -/
def silent : Request := ⟨true, [], []⟩

/-- Two numbers are drawn for each of them. -/
theorem after_silent (n : ℕ) : after (List.replicate n silent) =
    ⟨⟨UInt32.ofNat (2 * n + 1), []⟩, (List.range n).map fun i => UInt32.ofNat (2 * i + 3)⟩ := by
  induction n with
  | zero => rfl
  | succ n ih =>
    have hnumber : UInt32.ofNat (2 * n + 1) + 1 + 1 = UInt32.ofNat (2 * (n + 1) + 1) := by
      have hsum : 2 * (n + 1) + 1 = 2 * n + 1 + 1 + 1 := by omega
      rw [hsum, UInt32.ofNat_add (2 * n + 1 + 1), UInt32.ofNat_add (2 * n + 1)]
      rfl
    have hread : (Socket.mk ([] ++ silent.arriving) silent.recvs).receiveResponse remoteSocketEndseq [] =
        ([], ⟨[], []⟩) := by decide +kernel
    rw [List.replicate_succ', after, List.foldl_append, ← after, ih, List.foldl_cons, List.foldl_nil,
      Traced.step, request_session, hread, List.range_succ, List.map_append]
    simp only [ProxySession.commandID, ProxySession.prepare, silent, if_true, hnumber]
    rfl

/-- The late reply to an earlier one of them, cut behind its first digit. -/
def cutRequest : Request := ⟨true, [⟨4294967285, [65, 66], by simp⟩], List.replicate 3 .arrived⟩

/-- The number of that reply begins like that of the last request, and is stored for it. -/
theorem not_storesOwn_cut : ¬ ∀ (requests : List Request), requests.length < 2 ^ 31 →
    Guarded Traced.step OnlyAsked Traced.initial requests → ∀ (k : ℕ) (request : Request),
      requests[k]? = some request → StoresOwn (after (requests.take k)) request := by
  intro h
  have hrun := after_silent 2147483646
  have hbefore : (List.replicate 2147483646 silent ++ [cutRequest]).take 2147483646 =
      List.replicate 2147483646 silent := by
    rw [List.take_append_of_le_length (by rw [List.length_replicate]), List.take_replicate, Nat.min_self]
  have honly : Guarded Traced.step OnlyAsked Traced.initial
      (List.replicate 2147483646 silent ++ [cutRequest]) := by
    intro k request hrequest r hr
    by_cases hk : k < 2147483646
    · rw [List.getElem?_append_left (by rw [List.length_replicate]; exact hk),
        List.getElem?_replicate_of_lt hk] at hrequest
      cases hrequest
      cases hr
    · obtain ⟨hlength, -⟩ := List.getElem?_eq_some_iff.mp hrequest
      rw [List.length_append, List.length_replicate, List.length_singleton] at hlength
      obtain rfl : k = 2147483646 := by omega
      rw [List.getElem?_append_right (by rw [List.length_replicate]), List.length_replicate,
        Nat.sub_self] at hrequest
      cases hrequest
      obtain rfl := List.mem_singleton.mp hr
      rw [hbefore, ← after, hrun]
      have hnumber : UInt32.ofNat (2 * 2147483641 + 3) = 4294967285 := by decide
      have hmade : 2147483641 ∈ List.range 2147483646 := by
        rw [List.mem_range]
        omega
      have hmem := List.mem_map_of_mem (f := fun i => UInt32.ofNat (2 * i + 3)) hmade
      rw [hnumber] at hmem
      refine Or.inl ?_
      dsimp only
      exact hmem
  have hfew : (List.replicate 2147483646 silent ++ [cutRequest]).length < 2 ^ 31 := by
    rw [List.length_append, List.length_replicate, List.length_singleton]
    omega
  have hlast : (List.replicate 2147483646 silent ++ [cutRequest])[2147483646]? = some cutRequest := by
    rw [List.getElem?_append_right (by rw [List.length_replicate]), List.length_replicate, Nat.sub_self]
    rfl
  have hstores := h _ hfew honly _ _ hlast
  rw [hbefore, hrun] at hstores
  refine not_storesOwn_of_cutAtNumber ⟨⟨4294967285, [65, 66], by simp⟩, [], ?_, ?_, ?_⟩ hstores
  · simp [cutRequest, Request.arriving]
  · decide
  · rw [ProxySession.rawResponse]
    dsimp only
    decide +kernel

end ApduPlay.OwnReplies
