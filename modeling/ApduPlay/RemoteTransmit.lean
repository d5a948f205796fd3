import ApduPlay.RemoteRequests

/-!
# Responses of remote cards

A transmit to a remote card succeeds without a socket, stores up to 260 bytes
whatever the capacity, and takes for the reply what the parser accepts. What a
request fails with is not looked at; it shows as an empty response.
-/

namespace ApduPlay.RemoteTransmit

open HexStrings ParsedReplies RemoteProxy RemoteRequests TextNumbers TextSearch

/-- The bytes of a response, without the blanks at its end. -/
def decodedReply (response : Text) : List UInt8 :=
  byteConvertFromHexString (trimmed (blankLineEnds response))

/-- The reply to a transmit was read. It reports no failure and decodes to
these bytes, which are at least two and fit into the caller's buffer. -/
def Delivered (cfg : RemoteConfig) (net : Network) (capacity : ℕ) (bytes : List UInt8) : Prop :=
  cfg.pSocket ≠ .null ∧ ∃ body, cfg.drawCommandID.Replied net body ∧ find cmdResponseFail body = none ∧
    decodedReply body = bytes ∧ 2 ≤ bytes.length ∧ bytes.length ≤ capacity

/-- The status is 0 exactly if bytes were delivered, these are then stored, and
nothing is written outside the caller's buffer. -/
def TransmitsReply (cfg : RemoteConfig) (net : Network) (targetReader : Text)
    (pbSendBuffer pbRecvBuffer : List UInt8) (pcbRecvLength : UInt32) : Prop :=
  ∃ r, cfg.remoteSCardTransmit net targetReader pbSendBuffer pbRecvBuffer pcbRecvLength = .ok r ∧
    (r.status = 0 ↔ ∃ bytes, Delivered cfg net pcbRecvLength.toNat bytes) ∧
    ∀ bytes, Delivered cfg net pcbRecvLength.toNat bytes →
      r.pbRecvBuffer = bytes ++ pbRecvBuffer.drop bytes.length ∧ r.pcbRecvLength.toNat = bytes.length

/-- There is a socket that was not deleted. A response that is taken from the
stream and reports no failure fits or is longer than 260 bytes, and if it has
two bytes and fits, it is at most 260 bytes long exactly if it is the reply. -/
def DeliversSafely (cfg : RemoteConfig) (net : Network) (capacity : ℕ) : Prop :=
  cfg.pSocket ≠ .null ∧ cfg.pSocket ≠ .deleted ∧
    ∀ response, cfg.drawCommandID.Takes net response → find cmdResponseFail response = none →
      ((decodedReply response).length ≤ capacity ∨ 260 < (decodedReply response).length) ∧
      (2 ≤ (decodedReply response).length → (decodedReply response).length ≤ capacity →
        ((decodedReply response).length ≤ 260 ↔ cfg.drawCommandID.Replied net response))

variable {cfg : RemoteConfig} {net : Network} {targetReader response : Text}
  {pbSendBuffer pbRecvBuffer : List UInt8} {pcbRecvLength : UInt32} {capacity : ℕ}

/-- A failure is found in the response exactly if it is in the reply. -/
theorem find_fail_trimmed (response : Text) :
    find cmdResponseFail (trimmed (blankLineEnds response)) = none ↔
      find cmdResponseFail response = none := by
  have htrimmed : trimmed (blankLineEnds response) =
      (blankLineEnds response).rdropWhile isBlank := rfl
  have hsome : cmdResponseFail ≠ [] := by decide +kernel
  have hletters : ∀ a ∈ cmdResponseFail, a ≠ 10 ∧ a ≠ 32 := by
    decide +kernel
  have hsolid : ∀ a ∈ cmdResponseFail, isBlank a = false := by
    decide +kernel
  have hsame : ∀ a ∈ cmdResponseFail, ∀ b : UInt8, (if b = 10 then 32 else b) = a ↔ b = a := by
    intro a ha b
    obtain ⟨hline, hblank⟩ := hletters a ha
    split_ifs with hb
    · exact iff_of_false hblank.symm fun he => hline (he ▸ hb)
    · exact Iff.rfl
  rw [find_eq_none_iff, find_eq_none_iff, htrimmed, infix_rdropWhile_iff hsome hsolid,
    blankLineEnds, infix_map_iff hsame]

/-- What is stored of the response to a request. -/
theorem remoteSCardTransmit_of_request (hsocket : cfg.pSocket ≠ .null) {request : Requested}
    (h : cfg.drawCommandID.remoteSendRequest net targetReader cmdApdu
      (byteConvertFromArrayToHexString pbSendBuffer false) [] = .ok request) :
    cfg.remoteSCardTransmit net targetReader pbSendBuffer pbRecvBuffer pcbRecvLength =
      if find cmdResponseFail (trimmed request.response) = none then do
        let decoded ← byteConvertFromHexStringToArray (trimmed request.response) pbRecvBuffer 260
        return ⟨if decoded.2.2 < 2 then statDataIncorrectLength else decoded.1, decoded.2.1, decoded.2.2,
          request.cfg, request.sent⟩
      else .ok ⟨statScardError, pbRecvBuffer, pcbRecvLength, request.cfg, request.sent⟩ := by
  rw [RemoteConfig.remoteSCardTransmit, if_pos hsocket]
  exact Fault.bind_ok h

/-- At most 260 bytes are stored if the memory has room for them. Less than two
are an error. -/
theorem remoteSCardTransmit_stored (pbRecvBuffer : List UInt8) (pcbRecvLength : UInt32)
    (hsocket : cfg.pSocket ≠ .null) {request : Requested} {bytes : List UInt8}
    (h : cfg.drawCommandID.remoteSendRequest net targetReader cmdApdu
      (byteConvertFromArrayToHexString pbSendBuffer false) [] = .ok request)
    (hfail : find cmdResponseFail (trimmed request.response) = none)
    (hbytes : byteConvertFromHexString (trimmed request.response) = bytes)
    (hmax : bytes.length ≤ 260) (hroom : bytes.length ≤ pbRecvBuffer.length) :
    ∃ r, cfg.remoteSCardTransmit net targetReader pbSendBuffer pbRecvBuffer pcbRecvLength = .ok r ∧
      r.status = (if bytes.length < 2 then statDataIncorrectLength else statOk) ∧
      r.pbRecvBuffer = bytes ++ pbRecvBuffer.drop bytes.length ∧ r.pcbRecvLength.toNat = bytes.length := by
  subst hbytes
  have hfits : (byteConvertFromHexString (trimmed request.response)).length ≤
    (260 : UInt32).toNat := hmax
  have hstored := byteConvertFromHexStringToArray_ok hfits hroom
  have hlength :
      (UInt32.ofNat (byteConvertFromHexString (trimmed request.response)).length).toNat =
      (byteConvertFromHexString (trimmed request.response)).length :=
    UInt32.toNat_ofNat_of_lt' (Nat.lt_of_le_of_lt hmax (by decide))
  have hfew : UInt32.ofNat (byteConvertFromHexString (trimmed request.response)).length < 2 ↔
      (byteConvertFromHexString (trimmed request.response)).length < 2 := by
    rw [UInt32.lt_iff_toNat_lt, hlength]
    rfl
  exact ⟨_, (remoteSCardTransmit_of_request hsocket h).trans
    ((if_pos hfail).trans (Fault.bind_ok hstored)), if_congr hfew rfl rfl, rfl, hlength⟩

/-- A response that is taken for the reply and no failure is stored like that. -/
theorem remoteSCardTransmit_of_takes (pbRecvBuffer : List UInt8) (pcbRecvLength : UInt32)
    (hnull : cfg.pSocket ≠ .null) (h : cfg.drawCommandID.Takes net response)
    (hfail : find cmdResponseFail response = none) (hmax : (decodedReply response).length ≤ 260)
    (hroom : (decodedReply response).length ≤ pbRecvBuffer.length) :
    ∃ r, cfg.remoteSCardTransmit net targetReader pbSendBuffer pbRecvBuffer pcbRecvLength = .ok r ∧
      r.status = (if (decodedReply response).length < 2 then statDataIncorrectLength else statOk) ∧
      r.pbRecvBuffer = decodedReply response ++ pbRecvBuffer.drop (decodedReply response).length ∧
      r.pcbRecvLength.toNat = (decodedReply response).length := by
  obtain ⟨request, hrequest, -, hresponse⟩ := remoteSendRequest_of_takes h
    targetReader cmdApdu (byteConvertFromArrayToHexString pbSendBuffer false)
  have hbytes : byteConvertFromHexString (trimmed request.response) = decodedReply response :=
    congrArg (fun text => byteConvertFromHexString (trimmed text)) hresponse
  exact remoteSCardTransmit_stored pbRecvBuffer pcbRecvLength hnull hrequest
    (by rw [hresponse]; exact (find_fail_trimmed response).mpr hfail) hbytes hmax hroom

/-- Without a response nothing is stored. -/
theorem status_of_not_takes (hnull : cfg.pSocket ≠ .null) (hdeleted : cfg.pSocket ≠ .deleted)
    (h : ∀ response, ¬ cfg.drawCommandID.Takes net response) :
    ∃ r, cfg.remoteSCardTransmit net targetReader pbSendBuffer pbRecvBuffer pcbRecvLength = .ok r ∧
      r.status ≠ 0 := by
  have hsocket : cfg.drawCommandID.pSocket ≠ .deleted := hdeleted
  obtain ⟨request, hrequest, hempty⟩ := remoteSendRequest_of_not_takes hsocket h
    targetReader cmdApdu (byteConvertFromArrayToHexString pbSendBuffer false)
  have hnone : byteConvertFromHexString (trimmed request.response) = [] := by
    rw [hempty]
    decide
  obtain ⟨r, hr, hstatus, -⟩ := remoteSCardTransmit_stored pbRecvBuffer pcbRecvLength hnull hrequest
    (by rw [hempty]; decide) hnone (Nat.zero_le _) (Nat.zero_le _)
  refine ⟨r, hr, ?_⟩
  rw [hstatus]
  decide

/-- Neither are a failure and a response of more than 260 bytes. -/
theorem status_of_takes (hnull : cfg.pSocket ≠ .null) (h : cfg.drawCommandID.Takes net response)
    (hbad : find cmdResponseFail response ≠ none ∨ 260 < (decodedReply response).length) :
    ∃ r, cfg.remoteSCardTransmit net targetReader pbSendBuffer pbRecvBuffer pcbRecvLength = .ok r ∧
      r.status ≠ 0 := by
  obtain ⟨request, hrequest, -, hresponse⟩ := remoteSendRequest_of_takes h
    targetReader cmdApdu (byteConvertFromArrayToHexString pbSendBuffer false)
  rw [remoteSCardTransmit_of_request hnull hrequest, hresponse]
  by_cases hfail : find cmdResponseFail response = none
  · rw [if_pos ((find_fail_trimmed response).mpr hfail)]
    have hlong : (260 : UInt32).toNat < (decodedReply response).length := hbad.resolve_left fun h => h hfail
    rw [Fault.bind_ok (byteConvertFromHexStringToArray_long hlong)]
    refine ⟨_, rfl, ?_⟩
    dsimp only
    split_ifs <;> decide
  · rw [if_neg (mt (find_fail_trimmed response).mp hfail)]
    exact ⟨_, rfl, show statScardError ≠ 0 by decide⟩

/-- A failed transmit is right unless bytes were delivered. -/
theorem transmitsReply_of_failed (h : ∃ r, cfg.remoteSCardTransmit net targetReader pbSendBuffer pbRecvBuffer
      pcbRecvLength = .ok r ∧ r.status ≠ 0) :
    TransmitsReply cfg net targetReader pbSendBuffer pbRecvBuffer pcbRecvLength ↔
      ∀ bytes, ¬ Delivered cfg net pcbRecvLength.toNat bytes := by
  obtain ⟨r, hr, hstatus⟩ := h
  constructor
  · rintro ⟨r', hr', hiff, -⟩ bytes hbytes
    cases hr.symm.trans hr'
    exact hstatus (hiff.mpr ⟨bytes, hbytes⟩)
  · exact fun hnone => ⟨r, hr, iff_of_false hstatus fun ⟨bytes, hbytes⟩ => hnone bytes hbytes,
      fun bytes hbytes => absurd hbytes (hnone bytes)⟩

/-- Bytes are delivered exactly if the response that is taken is the reply and
fits. -/
theorem delivered_iff (hnull : cfg.pSocket ≠ .null) (h : cfg.drawCommandID.Takes net response)
    (hfail : find cmdResponseFail response = none) {bytes : List UInt8} :
    Delivered cfg net capacity bytes ↔ cfg.drawCommandID.Replied net response ∧
      decodedReply response = bytes ∧ 2 ≤ bytes.length ∧ bytes.length ≤ capacity := by
  constructor
  · rintro ⟨-, body, hreply, -, hdecoded⟩
    obtain rfl := h.unique hreply.takes
    exact ⟨hreply, hdecoded⟩
  · rintro ⟨hreply, hdecoded⟩
    exact ⟨hnull, response, hreply, hfail, hdecoded⟩

theorem not_delivered_of_failure (h : cfg.drawCommandID.Takes net response)
    (hfail : find cmdResponseFail response ≠ none) (bytes : List UInt8) :
    ¬ Delivered cfg net capacity bytes := by
  rintro ⟨-, body, hreply, hbody, -⟩
  obtain rfl := h.unique hreply.takes
  exact hfail hbody

theorem remoteSCardTransmit_of_deleted (hsocket : cfg.pSocket = .deleted) :
    cfg.remoteSCardTransmit net targetReader pbSendBuffer pbRecvBuffer pcbRecvLength =
      .error .outOfBounds := by
  have hdeleted : cfg.drawCommandID.pSocket = .deleted := hsocket
  rw [RemoteConfig.remoteSCardTransmit, if_pos (by rw [hsocket]; decide)]
  exact Fault.bind_error (remoteSendRequest_of_deleted hdeleted _ _ _ _)

/-- A response of at most 260 bytes is written also if it does not fit. -/
theorem remoteSCardTransmit_overflow (hnull : cfg.pSocket ≠ .null)
    (h : cfg.drawCommandID.Takes net response) (hfail : find cmdResponseFail response = none)
    (hmax : (decodedReply response).length ≤ 260)
    (hout : pbRecvBuffer.length < (decodedReply response).length) :
    cfg.remoteSCardTransmit net targetReader pbSendBuffer pbRecvBuffer pcbRecvLength =
      .error .outOfBounds := by
  obtain ⟨request, hrequest, -, hresponse⟩ := remoteSendRequest_of_takes h
    targetReader cmdApdu (byteConvertFromArrayToHexString pbSendBuffer false)
  rw [remoteSCardTransmit_of_request hnull hrequest, hresponse,
    if_pos ((find_fail_trimmed response).mpr hfail)]
  have hfits : (decodedReply response).length ≤ (260 : UInt32).toNat := hmax
  exact Fault.bind_error (byteConvertFromHexStringToArray_error hfits hout)

/-- A response of two to 260 bytes that fits is stored with success, which is
right for the reply. -/
theorem transmitsReply_stored (hbuf : pbRecvBuffer.length = pcbRecvLength.toNat) (hnull : cfg.pSocket ≠ .null)
    (h : cfg.drawCommandID.Takes net response) (hfail : find cmdResponseFail response = none)
    (htwo : 2 ≤ (decodedReply response).length) (hmax : (decodedReply response).length ≤ 260)
    (hfits : (decodedReply response).length ≤ pcbRecvLength.toNat) :
    TransmitsReply cfg net targetReader pbSendBuffer pbRecvBuffer pcbRecvLength ↔
      cfg.drawCommandID.Replied net response := by
  obtain ⟨r, hr, hstatus, hbuffer, hlength⟩ :=
    remoteSCardTransmit_of_takes pbRecvBuffer pcbRecvLength hnull h hfail hmax (by omega)
  rw [if_neg (Nat.not_lt.mpr htwo)] at hstatus
  constructor
  · rintro ⟨r', hr', hiff, -⟩
    cases hr.symm.trans hr'
    obtain ⟨bytes, hbytes⟩ := hiff.mp hstatus
    exact ((delivered_iff hnull h hfail).mp hbytes).1
  · intro hreply
    have hdelivered : Delivered cfg net pcbRecvLength.toNat (decodedReply response) :=
      (delivered_iff hnull h hfail).mpr ⟨hreply, rfl, htwo, hfits⟩
    refine ⟨r, hr, iff_of_true hstatus ⟨_, hdelivered⟩, fun bytes hbytes => ?_⟩
    obtain ⟨-, rfl, -⟩ := (delivered_iff hnull h hfail).mp hbytes
    exact ⟨hbuffer, hlength⟩

/-- A response of fewer bytes is an error, and never delivered. -/
theorem transmitsReply_short (hbuf : pbRecvBuffer.length = pcbRecvLength.toNat) (hnull : cfg.pSocket ≠ .null)
    (h : cfg.drawCommandID.Takes net response) (hfail : find cmdResponseFail response = none)
    (htwo : (decodedReply response).length < 2)
    (hfits : (decodedReply response).length ≤ pcbRecvLength.toNat) :
    TransmitsReply cfg net targetReader pbSendBuffer pbRecvBuffer pcbRecvLength := by
  obtain ⟨r, hr, hstatus, -⟩ :=
    remoteSCardTransmit_of_takes pbRecvBuffer pcbRecvLength hnull h hfail (by omega) (by omega)
  rw [if_pos htwo] at hstatus
  refine (transmitsReply_of_failed ⟨r, hr, by rw [hstatus]; decide⟩).mpr fun bytes hbytes => ?_
  obtain ⟨-, rfl, hlength, -⟩ := (delivered_iff hnull h hfail).mp hbytes
  omega

/-- A transmit does what its status says exactly if it delivers safely. -/
theorem transmitsReply_iff (cfg : RemoteConfig) (net : Network) (targetReader : Text)
    (pbSendBuffer pbRecvBuffer : List UInt8) (pcbRecvLength : UInt32)
    (hbuf : pbRecvBuffer.length = pcbRecvLength.toNat) :
    TransmitsReply cfg net targetReader pbSendBuffer pbRecvBuffer pcbRecvLength ↔
      DeliversSafely cfg net pcbRecvLength.toNat := by
  unfold DeliversSafely
  by_cases hnull : cfg.pSocket = .null
  · refine iff_of_false ?_ fun h => h.1 hnull
    rintro ⟨r, hr, hiff, -⟩
    rw [RemoteConfig.remoteSCardTransmit, if_neg (not_not.mpr hnull)] at hr
    cases hr
    obtain ⟨bytes, hbytes⟩ := hiff.mp rfl
    exact hbytes.1 hnull
  by_cases hdeleted : cfg.pSocket = .deleted
  · refine iff_of_false ?_ fun h => h.2.1 hdeleted
    rintro ⟨r, hr, -⟩
    cases (remoteSCardTransmit_of_deleted hdeleted).symm.trans hr
  rw [and_iff_right hnull, and_iff_right hdeleted]
  by_cases htakes : ∃ response, cfg.drawCommandID.Takes net response
  · obtain ⟨response, h⟩ := htakes
    have hall (P : Text → Prop) :
        (∀ response, cfg.drawCommandID.Takes net response → P response) ↔ P response :=
      ⟨fun hp => hp response h, fun hp response' h' => h.unique h' ▸ hp⟩
    rw [hall]
    by_cases hfail : find cmdResponseFail response = none
    · rw [forall_prop_of_true hfail]
      by_cases hmax : (decodedReply response).length ≤ 260
      · by_cases hfits : (decodedReply response).length ≤ pcbRecvLength.toNat
        · simp only [hmax, hfits, true_or, true_and, true_iff, forall_true_left]
          by_cases htwo : 2 ≤ (decodedReply response).length
          · rw [transmitsReply_stored hbuf hnull h hfail htwo hmax hfits, forall_prop_of_true htwo]
          · exact iff_of_true (transmitsReply_short hbuf hnull h hfail (by omega) hfits)
              fun h => absurd h htwo
        · refine iff_of_false ?_ fun h => h.1.elim hfits fun h => absurd hmax (Nat.not_le.mpr h)
          rintro ⟨r, hr, -⟩
          cases (remoteSCardTransmit_overflow hnull h hfail hmax (by omega)).symm.trans hr
      · have hlong : 260 < (decodedReply response).length := Nat.lt_of_not_le hmax
        rw [transmitsReply_of_failed (status_of_takes hnull h (Or.inr hlong))]
        simp only [delivered_iff hnull h hfail, hmax, hlong, or_true, true_and, false_iff]
        constructor
        · exact fun hnone htwo hfits hreply => hnone _ ⟨hreply, rfl, htwo, hfits⟩
        · rintro hall bytes ⟨hreply, rfl, htwo, hfits⟩
          exact hall htwo hfits hreply
    · refine iff_of_true ?_ fun h => absurd h hfail
      exact (transmitsReply_of_failed (status_of_takes hnull h (Or.inl hfail))).mpr
        fun bytes => not_delivered_of_failure h hfail bytes
  · refine iff_of_true ?_ fun response h => absurd ⟨response, h⟩ htakes
    refine (transmitsReply_of_failed (status_of_not_takes hnull hdeleted (not_exists.mp htakes))).mpr ?_
    rintro bytes ⟨-, body, hreply, -⟩
    exact htakes ⟨body, hreply.takes⟩

/-- A socket that stays open, before its first transmit. -/
def keptSocket : RemoteConfig := ⟨false, .connected [], 1⟩

/-- The proxy answers at once. -/
def promptReply (reply : Text) : Network := ⟨true, reply ++ [10], List.replicate (reply.length + 1) .arrived⟩

theorem rawResponse_prompt :
    keptSocket.drawCommandID.rawResponse (promptReply (ascii ">3:9000@@")) = some (ascii ">3:9000@@\n") := by
  decide +kernel

/-- Two bytes fit into a buffer of two. -/
theorem transmitsReply_prompt :
    TransmitsReply keptSocket (promptReply (ascii ">3:9000@@")) (ascii "Remote 1")
      [0, 0xA4, 4, 0] [0, 0] 2 := by
  refine (transmitsReply_iff _ _ _ _ _ _ rfl).mpr ⟨by decide, by decide, ?_⟩
  rintro response ⟨raw, hraw, p, rfl, -, rfl⟩ -
  cases rawResponse_prompt.symm.trans hraw
  refine ⟨Or.inl (by decide +kernel), fun _ _ => iff_of_true (by decide +kernel) ?_⟩
  exact ⟨_, rawResponse_prompt, [10], by decide, by decide⟩

/-- Three bytes are written into a buffer of two. -/
theorem not_transmitsReply_small : ¬ TransmitsReply keptSocket (promptReply (ascii ">3:6F9000@@"))
    (ascii "Remote 1") [0, 0xA4, 4, 0] [0, 0] 2 := by
  rintro ⟨r, hr, -⟩
  have hfault : keptSocket.remoteSCardTransmit (promptReply (ascii ">3:6F9000@@")) (ascii "Remote 1")
      [0, 0xA4, 4, 0] [0, 0] 2 = .error .outOfBounds := by decide +kernel
  cases hfault.symm.trans hr

end ApduPlay.RemoteTransmit
