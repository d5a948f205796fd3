import ApduPlay.Basic
import Mathlib.Data.List.Basic

/-!
# Base64 encoding

Three bytes are four characters. What is decoded are the characters before the
padding, in groups of four.
-/

namespace ApduPlay.Base64

/-- `base64_chars` -/
def base64Chars : Text := ascii "ABCDEFGHIJKLMNOPQRSTUVWXYZabcdefghijklmnopqrstuvwxyz0123456789+/"

/-- `isalnum` -/
def isAlnum (c : UInt8) : Bool := (48 ≤ c && c ≤ 57) || (65 ≤ c && c ≤ 90) || (97 ≤ c && c ≤ 122)

/-- `is_base64` -/
def isBase64 (c : UInt8) : Bool := isAlnum c || c == 43 || c == 47

/-- The numbers below 64 that three bytes are split into. -/
def charArray4 (a b c : UInt8) : List UInt8 :=
  [(a &&& 0xfc) >>> 2, ((a &&& 0x03) <<< 4) + ((b &&& 0xf0) >>> 4),
    ((b &&& 0x0f) <<< 2) + ((c &&& 0xc0) >>> 6), c &&& 0x3f]

/-- Character of a number. -/
def charAt (v : UInt8) : UInt8 := base64Chars.getD v.toNat 0

/-- The characters of an array, group by group. -/
def encodeGroups : List UInt8 → Text
  | [] => []
  | [a] => ((charArray4 a 0 0).map charAt).take 2 ++ [61, 61]
  | [a, b] => ((charArray4 a b 0).map charAt).take 3 ++ [61]
  | a :: b :: c :: buf => (charArray4 a b c).map charAt ++ encodeGroups buf

/-- Position of a character as a byte, with all bits set for a character that
does not occur. -/
def indexOf (c : UInt8) : UInt8 :=
  match base64Chars.findIdx? (· == c) with
  | some i => UInt8.ofNat i
  | none => 0xff

/-- The bytes that four numbers are put together to. -/
def charArray3 (v₀ v₁ v₂ v₃ : UInt8) : List UInt8 :=
  [(v₀ <<< 2) + ((v₁ &&& 0x30) >>> 4), ((v₁ &&& 0xf) <<< 4) + ((v₂ &&& 0x3c) >>> 2),
    ((v₂ &&& 0x3) <<< 6) + v₃]

/-- The groups of four characters. An incomplete group is filled with zero characters. -/
def decodeGroups : Text → List UInt8
  | [] => []
  | [a] => (charArray3 (indexOf a) (indexOf 0) (indexOf 0) (indexOf 0)).take 0
  | [a, b] => (charArray3 (indexOf a) (indexOf b) (indexOf 0) (indexOf 0)).take 1
  | [a, b, c] => (charArray3 (indexOf a) (indexOf b) (indexOf c) (indexOf 0)).take 2
  | a :: b :: c :: d :: s => charArray3 (indexOf a) (indexOf b) (indexOf c) (indexOf d) ++ decodeGroups s

/-- The bytes of a text, group by group. -/
def decodeText (encodedString : Text) : List UInt8 :=
  decodeGroups (encodedString.takeWhile fun c => c != 61 && isBase64 c)

/-- A property of the numbers below some bound is checked number by number. -/
theorem forall_below {P : UInt8 → Prop} {m : ℕ} (h : ∀ n < m, P (UInt8.ofNat n)) {a : UInt8}
    (ha : a.toNat < m) :
    P a := by
  have hp := h a.toNat ha
  rwa [UInt8.ofNat_toNat] at hp

/-- The characters of numbers are no padding, and are found again. -/
theorem charAt_spec {v : UInt8} (hv : v.toNat < 64) :
    (charAt v != 61 && isBase64 (charAt v)) = true ∧ indexOf (charAt v) = v := by
  refine forall_below (P := fun v => (charAt v != 61 && isBase64 (charAt v)) = true ∧
    indexOf (charAt v) = v) ?_ hv
  decide +kernel

/-- The sizes of the parts of a byte. -/
theorem parts_lt (a : UInt8) : ((a &&& 0xfc) >>> 2).toNat < 64 ∧ (a &&& 0x03).toNat < 4 ∧
    ((a &&& 0xf0) >>> 4).toNat < 16 ∧ (a &&& 0x0f).toNat < 16 ∧ ((a &&& 0xc0) >>> 6).toNat < 4 ∧
    (a &&& 0x3f).toNat < 64 := by
  refine forall_below (P := fun a => ((a &&& 0xfc) >>> 2).toNat < 64 ∧ (a &&& 0x03).toNat < 4 ∧
    ((a &&& 0xf0) >>> 4).toNat < 16 ∧ (a &&& 0x0f).toNat < 16 ∧ ((a &&& 0xc0) >>> 6).toNat < 4 ∧
    (a &&& 0x3f).toNat < 64) ?_ a.toNat_lt
  decide +kernel

/-- A byte is put together from its parts. -/
theorem parts_add (a : UInt8) : (((a &&& 0xfc) >>> 2) <<< 2) + (a &&& 0x03) = a ∧
    (((a &&& 0xf0) >>> 4) <<< 4) + (a &&& 0x0f) = a ∧ (((a &&& 0xc0) >>> 6) <<< 6) + (a &&& 0x3f) = a := by
  refine forall_below (P := fun a => (((a &&& 0xfc) >>> 2) <<< 2) + (a &&& 0x03) = a ∧
    (((a &&& 0xf0) >>> 4) <<< 4) + (a &&& 0x0f) = a ∧
    (((a &&& 0xc0) >>> 6) <<< 6) + (a &&& 0x3f) = a) ?_ a.toNat_lt
  decide +kernel

/-- Two parts in one number are told apart. -/
theorem joined_high {p q : UInt8} (hp : p.toNat < 4) (hq : q.toNat < 16) :
    ((p <<< 4) + q).toNat < 64 ∧ ((p <<< 4) + q &&& 0x30) >>> 4 = p ∧ (p <<< 4) + q &&& 0xf = q := by
  have hall : ∀ m < 4, ∀ n < 16, ((UInt8.ofNat m <<< 4) + UInt8.ofNat n).toNat < 64 ∧
      ((UInt8.ofNat m <<< 4) + UInt8.ofNat n &&& 0x30) >>> 4 = UInt8.ofNat m ∧
      (UInt8.ofNat m <<< 4) + UInt8.ofNat n &&& 0xf = UInt8.ofNat n := by
    decide +kernel
  have hsame := hall p.toNat hp q.toNat hq
  rwa [UInt8.ofNat_toNat, UInt8.ofNat_toNat] at hsame

theorem joined_low {r s : UInt8} (hr : r.toNat < 16) (hs : s.toNat < 4) :
    ((r <<< 2) + s).toNat < 64 ∧ ((r <<< 2) + s &&& 0x3c) >>> 2 = r ∧ (r <<< 2) + s &&& 0x3 = s := by
  have hall : ∀ m < 16, ∀ n < 4, ((UInt8.ofNat m <<< 2) + UInt8.ofNat n).toNat < 64 ∧
      ((UInt8.ofNat m <<< 2) + UInt8.ofNat n &&& 0x3c) >>> 2 = UInt8.ofNat m ∧
      (UInt8.ofNat m <<< 2) + UInt8.ofNat n &&& 0x3 = UInt8.ofNat n := by
    decide +kernel
  have hsame := hall r.toNat hr s.toNat hs
  rwa [UInt8.ofNat_toNat, UInt8.ofNat_toNat] at hsame

/-- All characters of a group stand for numbers. -/
theorem charArray4_lt (a b c : UInt8) : ∀ v ∈ charArray4 a b c, v.toNat < 64 := by
  obtain ⟨ha, ha', -⟩ := parts_lt a
  obtain ⟨-, -, hb, hb', -⟩ := parts_lt b
  obtain ⟨-, -, -, -, hc, hc'⟩ := parts_lt c
  simp only [charArray4, List.forall_mem_cons, List.not_mem_nil, false_implies, implies_true, and_true]
  exact ⟨ha, (joined_high ha' hb).1, (joined_low hb' hc).1, hc'⟩

/-- A group is decoded. -/
theorem charArray3_charArray4 (a b c : UInt8) :
    charArray3 ((a &&& 0xfc) >>> 2) (((a &&& 0x03) <<< 4) + ((b &&& 0xf0) >>> 4))
      (((b &&& 0x0f) <<< 2) + ((c &&& 0xc0) >>> 6)) (c &&& 0x3f) = [a, b, c] := by
  obtain ⟨-, ha', -⟩ := parts_lt a
  obtain ⟨-, -, hb, hb', -⟩ := parts_lt b
  obtain ⟨-, -, -, -, hc, -⟩ := parts_lt c
  obtain ⟨-, hhigh, hlow⟩ := joined_high ha' hb
  obtain ⟨-, hhigh', hlow'⟩ := joined_low hb' hc
  rw [charArray3, hhigh, hlow, hhigh', hlow', (parts_add a).1, (parts_add b).2.1, (parts_add c).2.2]

theorem charAt_of_mem_take {a b c x : UInt8} {n : ℕ} (h : x ∈ ((charArray4 a b c).map charAt).take n) :
    ∃ v : UInt8, v.toNat < 64 ∧ x = charAt v := by
  obtain ⟨v, hv, rfl⟩ := List.mem_map.mp (List.mem_of_mem_take h)
  exact ⟨v, charArray4_lt a b c v hv, rfl⟩

/-- The characters of a group give its numbers back. -/
theorem indexOf_charAt (a b c : UInt8) :
    ((charArray4 a b c).map charAt).map indexOf = charArray4 a b c := by
  rw [List.map_map]
  exact (List.map_congr_left fun v hv => (charAt_spec (charArray4_lt a b c v hv)).2).trans (List.map_id _)

/-- The characters before the padding, and what they are decoded to. -/
theorem encodeGroups_eq (buf : List UInt8) :
    ∃ body pad, encodeGroups buf = body ++ pad ∧ (∀ c ∈ body, ∃ v : UInt8, v.toNat < 64 ∧ c = charAt v) ∧
      (∀ c ∈ pad, c = 61) ∧ (pad = [] ↔ 3 ∣ buf.length) ∧ decodeGroups body = buf := by
  induction buf using encodeGroups.induct with
  | case1 => exact ⟨[], [], rfl, List.forall_mem_nil _, List.forall_mem_nil _, by simp, rfl⟩
  | case2 a =>
    refine ⟨((charArray4 a 0 0).map charAt).take 2, [61, 61], rfl, fun x hx => charAt_of_mem_take hx, by simp,
      by simp, ?_⟩
    have hindex := indexOf_charAt a 0 0
    simp only [charArray4, List.map_cons, List.map_nil, List.cons.injEq] at hindex
    obtain ⟨h₀, h₁, -⟩ := hindex
    simp only [charArray4, List.map_cons, List.map_nil, List.take_succ_cons, List.take_zero]
    rw [decodeGroups, h₀, h₁]
    exact congrArg (List.take 1) (charArray3_charArray4 a 0 0)
  | case3 a b =>
    refine ⟨((charArray4 a b 0).map charAt).take 3, [61], rfl, fun x hx => charAt_of_mem_take hx, by simp,
      by simp, ?_⟩
    have hindex := indexOf_charAt a b 0
    simp only [charArray4, List.map_cons, List.map_nil, List.cons.injEq] at hindex
    obtain ⟨h₀, h₁, h₂, -⟩ := hindex
    simp only [charArray4, List.map_cons, List.map_nil, List.take_succ_cons, List.take_zero]
    rw [decodeGroups, h₀, h₁, h₂]
    exact congrArg (List.take 2) (charArray3_charArray4 a b 0)
  | case4 a b c buf ih =>
    obtain ⟨body, pad, hsplit, hbody, hpad, hthree, hdecode⟩ := ih
    refine ⟨(charArray4 a b c).map charAt ++ body, pad, ?_, ?_, hpad, ?_, ?_⟩
    · rw [encodeGroups, hsplit, List.append_assoc]
    · intro x hx
      rcases List.mem_append.mp hx with hx | hx
      · rw [← List.take_length (l := (charArray4 a b c).map charAt)] at hx
        exact charAt_of_mem_take hx
      · exact hbody x hx
    · rw [hthree]
      simp only [List.length_cons]
      omega
    · have hindex := indexOf_charAt a b c
      simp only [charArray4, List.map_cons, List.map_nil, List.cons.injEq] at hindex
      obtain ⟨h₀, h₁, h₂, h₃, -⟩ := hindex
      simp only [charArray4, List.map_cons, List.map_nil, List.cons_append, List.nil_append]
      rw [decodeGroups, h₀, h₁, h₂, h₃, charArray3_charArray4, hdecode]
      rfl

/-- What is encoded is decoded again. -/
theorem decodeText_encodeGroups (buf : List UInt8) : decodeText (encodeGroups buf) = buf := by
  obtain ⟨body, pad, hsplit, hbody, hpad, -, hdecode⟩ := encodeGroups_eq buf
  have hpass : ∀ c ∈ body, (c != 61 && isBase64 c) = true := by
    intro c hc
    obtain ⟨v, hv, rfl⟩ := hbody c hc
    exact (charAt_spec hv).1
  have hstop : pad.takeWhile (fun c => c != 61 && isBase64 c) = [] := by
    cases pad with
    | nil => rfl
    | cons c pad =>
      rw [hpad c List.mem_cons_self]
      rfl
  rw [decodeText, hsplit, List.takeWhile_append_of_pos hpass, hstop, List.append_nil, hdecode]

/-- Every group of three bytes that is begun takes four characters. -/
theorem length_encodeGroups (buf : List UInt8) : (encodeGroups buf).length = (buf.length + 2) / 3 * 4 := by
  induction buf using encodeGroups.induct with
  | case1 => rfl
  | case2 a => simp [encodeGroups, charArray4]
  | case3 a b => simp [encodeGroups, charArray4]
  | case4 a b c buf ih =>
    simp only [encodeGroups, charArray4, List.map_cons, List.map_nil, List.length_append, List.length_cons,
      List.length_nil, ih]
    omega

/-- The code ends with padding unless the bytes come in groups of three. -/
theorem getLast?_encodeGroups (buf : List UInt8) :
    (encodeGroups buf).getLast? = some 61 ↔ ¬ 3 ∣ buf.length := by
  obtain ⟨body, pad, hsplit, hbody, hpad, hthree, -⟩ := encodeGroups_eq buf
  rw [← hthree, hsplit]
  rcases List.eq_nil_or_concat pad with hnil | ⟨pad', c, hcons⟩
  · rw [hnil, List.append_nil]
    refine iff_of_false (fun hlast => ?_) (not_not.mpr rfl)
    obtain ⟨v, hv, hc⟩ := hbody 61 (List.mem_of_getLast? hlast)
    have hspec := (charAt_spec hv).1
    rw [← hc] at hspec
    exact absurd hspec (by decide)
  · have hc : c = 61 := hpad c (by rw [hcons]; simp)
    rw [hcons, hc]
    refine iff_of_true ?_ (by simp)
    simp

end ApduPlay.Base64
