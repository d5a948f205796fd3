import ApduPlay.Base64

/-!
# The loops of the Base64 functions

Both loops collect a group and go on when it is complete. The one counts its
bytes as an `unsigned int`, the other its characters down in one `int` and up in
another. Both wrap around, and an index below zero is outside the text.
-/

namespace ApduPlay.Base64Loops

open Base64

/-- The characters of the group in `char_array_3`; missing bytes are zero. -/
def groupChars (group : List UInt8) : Text :=
  (charArray4 (group.getD 0 0) (group.getD 1 0) (group.getD 2 0)).map charAt

/-- The bytes of the group in `char_array_4`; missing characters are zero. -/
def groupBytes (group : Text) : List UInt8 :=
  charArray3 (indexOf (group.getD 0 0)) (indexOf (group.getD 1 0)) (indexOf (group.getD 2 0))
    (indexOf (group.getD 3 0))

/-- The loop of `base64_encode`: the last group and the characters of those
before. -/
def encodeLoop : List UInt8 → List UInt8 → Text → List UInt8 × Text
  | [], group, ret => (group, ret)
  | b :: buf, group, ret =>
    if (group ++ [b]).length = 3 then encodeLoop buf [] (ret ++ groupChars (group ++ [b]))
    else encodeLoop buf (group ++ [b]) ret

/-- `base64_encode` -/
def base64Encode (buf : List UInt8) (bufLen : UInt32) : Text :=
  let (group, ret) := encodeLoop (buf.take bufLen.toNat) [] []
  if group.length ≠ 0 then
    ret ++ (groupChars group).take (group.length + 1) ++ List.replicate (3 - group.length) 61
  else ret

/-- The loop of `base64_decode`, given by the characters from `in_` on: the last
group and the bytes of those before. Behind the last character stands a zero. -/
def decodeLoop : Text → ℤ → ℤ → Text → List UInt8 → Except Fault (Text × List UInt8)
  | [], inLen, in_, group, ret =>
    if inLen ≠ 0 ∧ in_ < 0 then .error .outOfBounds else .ok (group, ret)
  | c :: encodedString, inLen, in_, group, ret =>
    if inLen = 0 then .ok (group, ret)
    else if in_ < 0 then .error .outOfBounds
    else if c ≠ 61 ∧ isBase64 c then
      if (group ++ [c]).length = 4 then
        decodeLoop encodedString (wrapInt (inLen - 1)) (wrapInt (in_ + 1)) []
          (ret ++ groupBytes (group ++ [c]))
      else decodeLoop encodedString (wrapInt (inLen - 1)) (wrapInt (in_ + 1)) (group ++ [c]) ret
    else .ok (group, ret)

/-- The last group is decoded as far as it goes. -/
def finish (group : Text) (ret : List UInt8) : List UInt8 :=
  if group.length ≠ 0 then ret ++ (groupBytes group).take (group.length - 1) else ret

/-- `base64_decode` -/
def base64Decode (encodedString : Text) : Except Fault (List UInt8) :=
  (decodeLoop encodedString (wrapInt encodedString.length) 0 [] []).map fun last => finish last.1 last.2

/-- A text of four characters for three bytes, padded at its end only. -/
def IsEncodingOf (buf : List UInt8) (text : Text) : Prop :=
  text.length = (buf.length + 2) / 3 * 4 ∧ ∃ body pad, text = body ++ List.replicate pad 61 ∧
    pad ≤ 2 ∧ ∀ c ∈ body, c ∈ base64Chars

/-- An array is encoded, and decoded again. -/
def Survives (buf : List UInt8) : Prop :=
  IsEncodingOf buf (base64Encode buf (UInt32.ofNat buf.length)) ∧
    base64Decode (base64Encode buf (UInt32.ofNat buf.length)) = .ok buf

/-- The characters that the loop does not stop at. -/
def passes (c : UInt8) : Bool := c != 61 && isBase64 c

variable {buf group ret : List UInt8} {s : Text}

/-- The loop encodes group by group. -/
theorem encodeLoop_eq (buf : List UInt8) (ret : Text) :
    ∃ group chars, encodeLoop buf [] ret = (group, ret ++ chars) ∧
      encodeGroups buf = if group.length ≠ 0 then
        chars ++ (groupChars group).take (group.length + 1) ++ List.replicate (3 - group.length) 61
      else chars := by
  induction buf using encodeGroups.induct generalizing ret with
  | case1 => exact ⟨[], [], by rw [List.append_nil]; rfl, rfl⟩
  | case2 a => exact ⟨[a], [], by rw [List.append_nil]; rfl, rfl⟩
  | case3 a b => exact ⟨[a, b], [], by rw [List.append_nil]; rfl, rfl⟩
  | case4 a b c buf ih =>
    obtain ⟨group, chars, hloop, hencode⟩ := ih (ret ++ groupChars [a, b, c])
    refine ⟨group, groupChars [a, b, c] ++ chars, ?_, ?_⟩
    · rw [← List.append_assoc, ← hloop]
      rfl
    · rw [encodeGroups, hencode]
      have hgroup : (charArray4 a b c).map charAt = groupChars [a, b, c] := rfl
      rw [hgroup]
      split_ifs
      · simp only [List.append_assoc]
      · rfl

/-- The whole function does so with as many bytes as it is told. -/
theorem base64Encode_eq (buf : List UInt8) (bufLen : UInt32) :
    base64Encode buf bufLen = encodeGroups (buf.take bufLen.toNat) := by
  obtain ⟨group, chars, hloop, hencode⟩ := encodeLoop_eq (buf.take bufLen.toNat) []
  rw [base64Encode, hloop, hencode]
  rfl

/-- Four characters give three bytes. -/
theorem length_decodeGroups (s : Text) : (decodeGroups s).length * 4 ≤ s.length * 3 := by
  induction s using decodeGroups.induct with
  | case1 => exact Nat.le_refl _
  | case2 a => exact Nat.zero_le _
  | case3 a b => exact show 1 * 4 ≤ 2 * 3 by decide
  | case4 a b c => exact show 2 * 4 ≤ 3 * 3 by decide
  | case5 a b c d s ih =>
    rw [decodeGroups, List.length_append]
    simp only [charArray3, List.length_cons, List.length_nil]
    omega

/-- A complete group is decoded in front of the others. -/
theorem decodeGroups_append (hgroup : group.length = 4) (s : Text) :
    decodeGroups (group ++ s) = groupBytes group ++ decodeGroups s := by
  match group, hgroup with
  | [a, b, c, d], _ => rfl

/-- An incomplete group is decoded behind the others. -/
theorem finish_eq (hgroup : group.length < 4) (ret : List UInt8) :
    finish group ret = ret ++ decodeGroups group := by
  match group, hgroup with
  | [], _ => exact (List.append_nil ret).symm
  | [a], _ => rfl
  | [a, b], _ => rfl
  | [a, b, c], _ => rfl

theorem passes_iff (c : UInt8) : passes c = true ↔ c ≠ 61 ∧ isBase64 c = true := by
  simp [passes]

/-- A character fewer to go. -/
theorem wrapInt_pred (n : ℕ) : wrapInt (wrapInt ((n + 1 : ℕ) : ℤ) - 1) = wrapInt n := by
  rw [Int.sub_eq_add_neg, wrapInt_add]
  congr 1
  omega

/-- A character more behind. -/
theorem wrapInt_succ (i : ℕ) : wrapInt (wrapInt i + 1) = wrapInt ((i + 1 : ℕ) : ℤ) :=
  wrapInt_add i 1

theorem wrapInt_eq_zero_iff {n : ℕ} (h : n < 2 ^ 32) : wrapInt n = 0 ↔ n = 0 := by
  rw [wrapInt_natCast (by omega)]
  split_ifs <;> omega

/-- The loop decodes the characters that it may take, as long as its index stays
in its range. -/
theorem decodeLoop_eq (s : Text) {n i : ℕ} (hgroup : group.length < 4) (ret : List UInt8)
    (hrange : n = 0 ∨ i + n ≤ 2 ^ 31) :
    (decodeLoop s (wrapInt n) (wrapInt i) group ret).map (fun last => finish last.1 last.2) =
      .ok (ret ++ decodeGroups (group ++ (s.take n).takeWhile passes)) := by
  have hzero : wrapInt n = 0 ↔ n = 0 := wrapInt_eq_zero_iff (by omega)
  have hindex : n ≠ 0 → ¬ wrapInt i < 0 := fun hn => by
    rw [wrapInt_natCast (by omega)]
    split_ifs <;> omega
  induction s generalizing n i group ret with
  | nil =>
    rw [decodeLoop, if_neg fun h => hindex (fun hn => h.1 (hzero.mpr hn)) h.2, List.take_nil,
      List.takeWhile_nil, List.append_nil, Except.map, finish_eq hgroup]
  | cons c s ih =>
    rw [decodeLoop]
    cases n with
    | zero =>
      rw [if_pos (hzero.mpr rfl), List.take_zero, List.takeWhile_nil, List.append_nil, Except.map,
        finish_eq hgroup]
    | succ n =>
      rw [if_neg fun h => absurd (hzero.mp h) (Nat.succ_ne_zero n), if_neg (hindex (Nat.succ_ne_zero n))]
      by_cases hpass : passes c = true
      · have hnext : n = 0 ∨ (i + 1) + n ≤ 2 ^ 31 := by omega
        have hzero' : wrapInt n = 0 ↔ n = 0 := wrapInt_eq_zero_iff (by omega)
        have hindex' : n ≠ 0 → ¬ wrapInt ((i + 1 : ℕ) : ℤ) < 0 := fun hn => by
          rw [wrapInt_natCast (by omega)]
          split_ifs <;> omega
        rw [if_pos ((passes_iff c).mp hpass), wrapInt_pred, wrapInt_succ, List.take_succ_cons,
          List.takeWhile_cons_of_pos hpass, List.append_cons group c ((s.take n).takeWhile passes)]
        split_ifs with hfour
        · rw [ih (by decide) _ hnext hzero' hindex', decodeGroups_append hfour, List.nil_append,
            List.append_assoc]
        · have hshort : (group ++ [c]).length < 4 := by
            rw [List.length_append, List.length_singleton] at hfour ⊢
            omega
          exact ih hshort _ hnext hzero' hindex'
      · rw [if_neg fun h => hpass ((passes_iff c).mpr h), List.take_succ_cons,
          List.takeWhile_cons_of_neg hpass, List.append_nil, Except.map, finish_eq hgroup]

/-- A loop that goes on where the index leaves its range reads outside the text. -/
theorem decodeLoop_outOfBounds {rest : Text} {n i : ℕ} (hs : ∀ c ∈ s, passes c = true)
    (hindex : i + s.length = 2 ^ 31) (hmore : s.length < n) (hmax : n < 2 ^ 32) :
    decodeLoop (s ++ rest) (wrapInt n) (wrapInt i) group ret = .error .outOfBounds := by
  have hne : wrapInt n ≠ 0 := fun h => by
    have := (wrapInt_eq_zero_iff hmax).mp h
    omega
  induction s generalizing n i group ret with
  | nil =>
    rw [List.length_nil, Nat.add_zero] at hindex
    have hneg : wrapInt i < 0 := by
      rw [hindex]
      decide
    cases rest with
    | nil => exact if_pos ⟨hne, hneg⟩
    | cons c rest => exact (if_neg hne).trans (if_pos hneg)
  | cons c s ih =>
    obtain ⟨hc, hs⟩ := List.forall_mem_cons.mp hs
    rw [List.length_cons] at hindex hmore
    obtain ⟨n, rfl⟩ : ∃ k, n = k + 1 := ⟨n - 1, by omega⟩
    have hpos : ¬ wrapInt i < 0 := by
      rw [wrapInt_natCast (by omega), if_pos (by omega)]
      omega
    have hne' : wrapInt n ≠ 0 := fun h => by
      have := (wrapInt_eq_zero_iff (by omega)).mp h
      omega
    rw [List.cons_append, decodeLoop, if_neg hne, if_neg hpos, if_pos ((passes_iff c).mp hc), wrapInt_pred,
      wrapInt_succ]
    split_ifs
    · exact ih hs (by omega) (by omega) (by omega) hne'
    · exact ih hs (by omega) (by omega) (by omega) hne'

theorem decodeText_eq (s : Text) : decodeText s = decodeGroups (s.takeWhile passes) := rfl

/-- A text with this many characters is decoded. -/
theorem base64Decode_eq (hlen : s.length ≤ 2 ^ 31) : base64Decode s = .ok (decodeText s) := by
  have hgroup : ([] : Text).length < 4 := by decide
  have hloop := decodeLoop_eq s (n := s.length) (i := 0) hgroup [] (by omega)
  rw [List.take_length] at hloop
  exact hloop

/-- Of a text that is longer by the range of an `int` only the beginning is
decoded. -/
theorem base64Decode_truncated (hlong : 2 ^ 32 ≤ s.length) (hmax : s.length < 2 ^ 32 + 2 ^ 31) :
    base64Decode s = .ok (decodeText (s.take (s.length - 2 ^ 32))) := by
  have hcount : wrapInt s.length = wrapInt ((s.length - 2 ^ 32 : ℕ) : ℤ) := by
    rw [wrapInt_natCast (by omega), wrapInt_natCast (by omega), if_neg (by omega), if_pos (by omega)]
    omega
  have hgroup : ([] : Text).length < 4 := by decide
  have hloop := decodeLoop_eq s (n := s.length - 2 ^ 32) (i := 0) hgroup [] (by omega)
  have hstart : wrapInt ((0 : ℕ) : ℤ) = 0 := by decide
  rw [hstart, List.nil_append, List.nil_append] at hloop
  rw [base64Decode, hcount, decodeText_eq]
  exact hloop

/-- Of a text in between the last characters are looked for outside of it. -/
theorem base64Decode_outOfBounds {body pad : Text} (hbody : ∀ c ∈ body, passes c = true)
    (hmin : 2 ^ 31 ≤ body.length) (hmore : 2 ^ 31 < (body ++ pad).length)
    (hmax : (body ++ pad).length < 2 ^ 32) : base64Decode (body ++ pad) = .error .outOfBounds := by
  have hpass : ∀ c ∈ body.take (2 ^ 31), passes c = true := fun c hc => hbody c (List.mem_of_mem_take hc)
  have hlength : (body.take (2 ^ 31)).length = 2 ^ 31 := List.length_take_of_le hmin
  have hsplit : body ++ pad = body.take (2 ^ 31) ++ (body.drop (2 ^ 31) ++ pad) := by
    rw [← List.append_assoc, List.take_append_drop]
  have hloop : decodeLoop (body.take (2 ^ 31) ++ (body.drop (2 ^ 31) ++ pad)) (wrapInt (body ++ pad).length)
      (wrapInt (0 : ℕ)) [] [] = .error .outOfBounds :=
    decodeLoop_outOfBounds hpass (by omega) (by omega) hmax
  rw [← hsplit] at hloop
  rw [base64Decode]
  exact congrArg (Except.map fun last => finish last.1 last.2) hloop

/-- The encoding has its characters before its padding. -/
theorem encodeGroups_parts (buf : List UInt8) : ∃ body pad, encodeGroups buf = body ++ List.replicate pad 61 ∧
    pad ≤ 2 ∧ buf.length * 4 ≤ body.length * 3 ∧ ∀ c ∈ body, c ∈ base64Chars ∧ passes c = true := by
  obtain ⟨body, pad, hsplit, hbody, hpad, -, hdecode⟩ := encodeGroups_eq buf
  have hlength := length_encodeGroups buf
  have hfew := length_decodeGroups body
  rw [hdecode] at hfew
  rw [hsplit, List.length_append] at hlength
  refine ⟨body, pad.length, ?_, by omega, hfew, fun c hc => ?_⟩
  · rw [hsplit, ← List.eq_replicate_of_mem hpad]
  · obtain ⟨v, hv, rfl⟩ := hbody c hc
    refine ⟨?_, (charAt_spec hv).1⟩
    have hlt : v.toNat < base64Chars.length := hv
    rw [charAt, List.getD_eq_getElem?_getD, List.getElem?_eq_getElem hlt, Option.getD_some]
    exact List.getElem_mem _

/-- What is encoded has the form of an encoding. -/
theorem isEncodingOf_encodeGroups (buf : List UInt8) : IsEncodingOf buf (encodeGroups buf) := by
  obtain ⟨body, pad, hsplit, hpad, -, hbody⟩ := encodeGroups_parts buf
  exact ⟨length_encodeGroups buf, body, pad, hsplit, hpad, fun c hc => (hbody c hc).1⟩

/-- From a code that is too long no array comes that is as long as what it encodes. -/
theorem base64Decode_long {part buf : List UInt8} (hlong : 2 ^ 31 < (encodeGroups part).length)
    (hpart : part.length < 2 ^ 32) (hle : part.length ≤ buf.length) :
    base64Decode (encodeGroups part) ≠ .ok buf := by
  have hlength := length_encodeGroups part
  obtain ⟨body, pad, hsplit, hpad, hbody, hpass⟩ := encodeGroups_parts part
  by_cases hmax : (encodeGroups part).length < 2 ^ 32
  · have hmin : 2 ^ 31 ≤ body.length := by
      rw [hsplit, List.length_append, List.length_replicate] at hlength hlong
      omega
    rw [hsplit] at hlong hmax ⊢
    rw [base64Decode_outOfBounds (fun c hc => (hpass c hc).2) hmin hlong hmax]
    exact fun h => nomatch h
  · rw [base64Decode_truncated (Nat.le_of_not_lt hmax) (by omega)]
    intro hsame
    have hfew := length_decodeGroups
      (((encodeGroups part).take ((encodeGroups part).length - 2 ^ 32)).takeWhile passes)
    have hwhile := (List.takeWhile_prefix passes
      (l := (encodeGroups part).take ((encodeGroups part).length - 2 ^ 32))).length_le
    rw [← decodeText_eq, Except.ok.inj hsame] at hfew
    rw [List.length_take] at hwhile
    omega

/-- The length of an array is counted as an `unsigned int`. -/
theorem base64Encode_whole {buf : List UInt8} (hbuf : buf.length < 2 ^ 32) :
    base64Encode buf (UInt32.ofNat buf.length) = encodeGroups buf := by
  rw [base64Encode_eq, UInt32.toNat_ofNat_of_lt' hbuf, List.take_length]

/-- An array whose encoding should be longer is not decoded. -/
theorem base64Decode_base64Encode_long {buf : List UInt8} (hlong : 2 ^ 31 < (buf.length + 2) / 3 * 4) :
    base64Decode (base64Encode buf (UInt32.ofNat buf.length)) ≠ .ok buf := by
  have hcount : (UInt32.ofNat buf.length).toNat = buf.length % 2 ^ 32 := UInt32.toNat_ofNat'
  have hlength : (buf.take (buf.length % 2 ^ 32)).length = buf.length % 2 ^ 32 :=
    List.length_take_of_le (Nat.mod_le _ _)
  rw [base64Encode_eq, hcount]
  by_cases hcode : 2 ^ 31 < (encodeGroups (buf.take (buf.length % 2 ^ 32))).length
  · exact base64Decode_long hcode (by omega) (by omega)
  · -- Only a part of the array was encoded.
    rw [base64Decode_eq (Nat.le_of_not_lt hcode), decodeText_encodeGroups]
    intro hsame
    have hwhole := congrArg List.length (Except.ok.inj hsame)
    rw [length_encodeGroups] at hcode
    omega

/-- Any other array is. -/
theorem base64Decode_base64Encode {buf : List UInt8} (hlen : (buf.length + 2) / 3 * 4 ≤ 2 ^ 31) :
    base64Decode (base64Encode buf (UInt32.ofNat buf.length)) = .ok buf := by
  rw [base64Encode_whole (by omega), base64Decode_eq (by rw [length_encodeGroups]; exact hlen),
    decodeText_encodeGroups]

/-- An array survives exactly if its encoding has at most so many characters that
an `int` can be their index. -/
theorem survives_iff (buf : List UInt8) : Survives buf ↔ (buf.length + 2) / 3 * 4 ≤ 2 ^ 31 := by
  constructor
  · rintro ⟨-, hdecode⟩
    by_contra hlong
    exact base64Decode_base64Encode_long (Nat.lt_of_not_le hlong) hdecode
  · intro hlen
    refine ⟨?_, base64Decode_base64Encode hlen⟩
    rw [base64Encode_whole (by omega)]
    exact isEncodingOf_encodeGroups buf

/-- The encoding of this array has one group too many. -/
theorem not_survives_group : ¬ Survives (List.replicate 1610612737 0) := fun h =>
  base64Decode_base64Encode_long (by rw [List.length_replicate]; decide) h.2

example : base64Decode (base64Encode [0x41, 0x50, 0x44, 0x55] 4) = .ok [0x41, 0x50, 0x44, 0x55] := by
  decide

end ApduPlay.Base64Loops
