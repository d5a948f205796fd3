import ApduPlay.ReplyOrigin

/-!
# What is accepted as a reply

The parser of replies cuts the text at the first separator and reads the number
before it leniently. A separator or an end sequence that is missing is not
noticed: the position of the first wraps around to the beginning of the text,
and without the second everything up to the end is the response.
-/

namespace ApduPlay.ParsedReplies

open RemoteProxy ReplyOrigin TextNumbers TextSearch

/-- The text is a reply with a number and a body: `>`, the number, the
separator, the body, and the end sequence where it first stands behind the
separator. -/
def IsReplyWith (number raw body : Text) : Prop :=
  ∃ rest, raw = 62 :: (number ++ 58 :: (body ++ (remoteSocketEndseq ++ rest))) ∧
    find remoteSocketEndseq (body ++ (remoteSocketEndseq ++ rest)) = some body.length

/-- A reply whose number is this command ID in decimal. -/
def IsReplyTo (id : UInt32) (raw body : Text) : Prop := IsReplyWith (decimal id.toNat) raw body

/-- Replies are accepted and their bodies stored, and every other text is
refused and nothing stored. -/
def ParsesReplies (raw : Text) (id : UInt32) : Prop :=
  ∃ status response, remoteParseResponse raw id = .ok (status, response) ∧
    (∀ body, IsReplyTo id raw body → status = scardSSuccess ∧ response = some body) ∧
    ((∀ body, ¬ IsReplyTo id raw body) → status ≠ scardSSuccess ∧ response = none)

/-- What stands before the first separator, if there is one. -/
def numberText (text : Text) : Text := text.takeWhile (· ≠ 58)

/-- What stands before the first end sequence, if there is one. -/
def upToEndseq (text : Text) : Text := substr text 0 (find remoteSocketEndseq text)

/-- The response that a text is taken to have behind its first character. -/
def takenText (text : Text) : Text :=
  if 58 ∈ text then upToEndseq (text.drop ((numberText text).length + 1)) else upToEndseq (62 :: text)

/-- The text is taken for a reply to this command, with this response. -/
def TakenAs (id : UInt32) (raw response : Text) : Prop :=
  ∃ p, raw = 62 :: p ∧ toDword (atoi (numberText p)) = id ∧ takenText p = response

/-- A text behind the first character is written as a reply: the number, a
separator, and an end sequence somewhere behind it. -/
def WrittenAsReply (number text : Text) : Prop :=
  ∃ t, text = number ++ 58 :: t ∧ remoteSocketEndseq <:+: t

/-- The text is not empty, and a text whose number is read as the expected one
is written as a reply. -/
def NotMisread (raw : Text) (id : UInt32) : Prop :=
  raw ≠ [] ∧ ∀ p, raw = 62 :: p → atoi (numberText p) = id.toNat → WrittenAsReply (decimal id.toNat) p

variable {raw body p q t number response : Text} {id : UInt32}

theorem numberText_of_notMem (hp : 58 ∉ p) : numberText p = p :=
  List.takeWhile_eq_self_iff.mpr fun _ hc => decide_eq_true fun he => hp (he ▸ hc)

theorem numberText_append (hq : 58 ∉ q) (t : Text) : numberText (q ++ 58 :: t) = q := by
  have hpass : ∀ c ∈ q, decide (c ≠ 58) = true := fun c hc => decide_eq_true fun he => hq (he ▸ hc)
  rw [numberText, List.takeWhile_append_of_pos hpass, List.takeWhile_cons_of_neg (by decide), List.append_nil]

theorem takenText_append (hq : 58 ∉ q) (t : Text) : takenText (q ++ 58 :: t) = upToEndseq t := by
  rw [takenText, if_pos (List.mem_append_right q List.mem_cons_self), numberText_append hq,
    ← List.drop_drop, List.drop_left' rfl, List.drop_succ_cons, List.drop_zero]

/-- The number in front decides whether a text is accepted. -/
theorem remoteParseResponse_eq (p : Text) (id : UInt32) :
    remoteParseResponse (62 :: p) id =
      if id ≠ toDword (atoi (numberText p)) then .ok (scardFCommError, none)
      else .ok (scardSSuccess, some (takenText p)) := by
  by_cases hp : 58 ∈ p
  · obtain ⟨q, t, rfl, hq⟩ := List.eq_append_cons_of_mem hp
    rw [remoteParseResponse_reply hq, numberText_append hq, takenText_append hq, upToEndseq]
  · rw [remoteParseResponse_unseparated hp, numberText_of_notMem hp, takenText, if_neg hp, upToEndseq]

theorem remoteParseResponse_of_takenAs (h : TakenAs id raw response) :
    remoteParseResponse raw id = .ok (scardSSuccess, some response) := by
  obtain ⟨p, rfl, hid, rfl⟩ := h
  rw [remoteParseResponse_eq, if_neg (not_not.mpr hid.symm)]

/-- All other texts are refused, and the empty one throws. -/
theorem remoteParseResponse_of_not_takenAs (h : ∀ response, ¬ TakenAs id raw response) :
    raw = [] ∨ remoteParseResponse raw id = .ok (scardFCommError, none) := by
  cases raw with
  | nil => exact Or.inl rfl
  | cons c p =>
    refine Or.inr ?_
    by_cases hc : c = 62
    · subst hc
      rw [remoteParseResponse_eq, if_pos fun hid => h _ ⟨p, rfl, hid.symm, rfl⟩]
    · exact if_pos hc

theorem TakenAs.unique {response' : Text} (h : TakenAs id raw response) (h' : TakenAs id raw response') :
    response = response' := by
  cases (remoteParseResponse_of_takenAs h).symm.trans (remoteParseResponse_of_takenAs h')
  rfl

/-- A reply whose number is read as the expected one is taken with its body. -/
theorem IsReplyWith.takenAs (h : IsReplyWith number raw body) (hnumber : 58 ∉ number)
    (hid : toDword (atoi number) = id) : TakenAs id raw body := by
  obtain ⟨rest, rfl, hfind⟩ := h
  refine ⟨_, rfl, by rwa [numberText_append hnumber], ?_⟩
  rw [takenText_append hnumber, upToEndseq, hfind, substr, List.drop_zero, List.take_left' rfl]

/-- A text is a reply exactly if it is written as one. -/
theorem exists_isReplyWith_iff : (∃ body, IsReplyWith number (62 :: p) body) ↔ WrittenAsReply number p := by
  constructor
  · rintro ⟨body, rest, heq, hfind⟩
    exact ⟨_, (List.cons.inj heq).2, infix_of_find hfind⟩
  · rintro ⟨t, rfl, hend⟩
    obtain ⟨k, hk⟩ := find_of_infix hend
    obtain ⟨body, rest, rfl, rfl⟩ := append_of_find hk
    exact ⟨body, rest, rfl, hk⟩

/-- Replies are taken as such. -/
theorem IsReplyTo.takenAs (hid : id.toNat < 2 ^ 31) (h : IsReplyTo id raw body) : TakenAs id raw body :=
  IsReplyWith.takenAs h (separator_notMem_decimal _) ((toDword_atoi_iff hid).mpr (atoi_decimal hid))

/-- An answer that refuses the text is right for what is no reply. -/
theorem parsesReplies_refused (h : remoteParseResponse raw id = .ok (scardFCommError, none)) :
    ParsesReplies raw id ↔ ∀ body, ¬ IsReplyTo id raw body := by
  constructor
  · rintro ⟨status, response, hparse, hreply, -⟩ body hbody
    cases h.symm.trans hparse
    exact absurd (hreply body hbody).1 (by decide)
  · exact fun hnone => ⟨_, _, h, fun body hbody => absurd hbody (hnone body), fun _ => ⟨by decide, rfl⟩⟩

/-- An answer that accepts it is right for a reply. -/
theorem parsesReplies_accepted (hid : id.toNat < 2 ^ 31) (h : TakenAs id raw response) :
    ParsesReplies raw id ↔ ∃ body, IsReplyTo id raw body := by
  have hparse := remoteParseResponse_of_takenAs h
  constructor
  · rintro ⟨status, stored, hstored, -, hother⟩
    cases hparse.symm.trans hstored
    by_contra hnone
    exact (hother (not_exists.mp hnone)).1 rfl
  · rintro ⟨body, hbody⟩
    exact ⟨_, _, hparse, fun body' hbody' => ⟨rfl, congrArg some (h.unique (hbody'.takenAs hid))⟩,
      fun hnone => absurd hbody (hnone body)⟩

/-- Exactly the texts that are not misread are parsed as the format says. -/
theorem parsesReplies_iff (raw : Text) (id : UInt32) (hid : id.toNat < 2 ^ 31) :
    ParsesReplies raw id ↔ NotMisread raw id := by
  unfold NotMisread
  cases raw with
  | nil =>
    refine iff_of_false ?_ fun h => h.1 rfl
    rintro ⟨status, response, hparse, -⟩
    cases hparse
  | cons c p =>
    rw [and_iff_right (List.cons_ne_nil c p)]
    by_cases hc : c = 62
    · subst hc
      simp only [List.cons.injEq, true_and, forall_eq']
      by_cases hnumber : atoi (numberText p) = id.toNat
      · have htaken : TakenAs id (62 :: p) (takenText p) := ⟨p, rfl, (toDword_atoi_iff hid).mpr hnumber, rfl⟩
        rw [parsesReplies_accepted hid htaken, forall_prop_of_true hnumber]
        exact exists_isReplyWith_iff
      · have hrefused : remoteParseResponse (62 :: p) id = .ok (scardFCommError, none) := by
          rw [remoteParseResponse_eq, if_pos fun he => hnumber ((toDword_atoi_iff hid).mp he.symm)]
        rw [parsesReplies_refused hrefused]
        refine iff_of_true (fun body hbody => ?_) fun h => absurd h hnumber
        cases hrefused.symm.trans (remoteParseResponse_of_takenAs (hbody.takenAs hid))
    · have hrefused : remoteParseResponse (c :: p) id = .ok (scardFCommError, none) := if_pos hc
      rw [parsesReplies_refused hrefused]
      refine iff_of_true ?_ fun p' heq => absurd (List.cons.inj heq).1 hc
      rintro body ⟨rest, heq, -⟩
      exact hc (List.cons.inj heq).1

/-- A whole reply is not misread. -/
theorem parsesReplies_whole : ParsesReplies (ascii ">5:6F00@@") 5 :=
  (parsesReplies_iff _ 5 (by decide)).mpr ⟨by decide, fun p hp _ =>
    ⟨ascii "6F00@@", (List.cons.inj hp).2.symm, by decide⟩⟩

/-- A reply that was cut is accepted. -/
theorem not_parsesReplies_cut : ¬ ParsesReplies (ascii ">5:6F") 5 := by
  rintro ⟨status, response, hparse, -, hother⟩
  have hrun : remoteParseResponse (ascii ">5:6F") 5 = .ok (scardSSuccess, some (ascii "6F")) := by decide
  cases hrun.symm.trans hparse
  refine (hother ?_).1 rfl
  rintro body ⟨rest, heq, -⟩
  have hend : (64 : UInt8) ∉ ascii ">5:6F" := by decide
  rw [heq] at hend
  exact hend (by simp [remoteSocketEndseq])

end ApduPlay.ParsedReplies
