import Mathlib.Data.Int.Notation
import Mathlib.Data.List.Basic
import Mathlib.Tactic.SplitIfs
import ApduPlay.Basic
import ApduPlay.Library.TextSearch

/-!
# Numbers in texts

The conversions of the C library and of `CCommonFnc` that the rule loader uses.
A text stands for the characters of a C string up to its end, and a `long` has
32 bits.
-/

namespace ApduPlay.TextNumbers

open TextSearch

/-- `toupper` -/
def toUpper (c : UInt8) : UInt8 := if 97 ≤ c ∧ c ≤ 122 then c - 32 else c

/-- `tolower` -/
def toLower (c : UInt8) : UInt8 := if 65 ≤ c ∧ c ≤ 90 then c + 32 else c

/-- `compareWithNoCase` finds no difference. -/
def compareWithNoCase (str1 str2 : Text) : Bool := str1.map toUpper == str2.map toUpper

/-- `isspace` -/
def isSpace (c : UInt8) : Bool := c == 32 || (9 ≤ c && c ≤ 13)

/-- One of 0123456789. -/
def isDecimal (c : UInt8) : Bool := 48 ≤ c && c ≤ 57

/-- Value of a digit in some base. -/
def digitValue (base : ℕ) (c : UInt8) : Option ℕ :=
  let value :=
    if 48 ≤ c ∧ c ≤ 57 then some (c.toNat - 48)
    else if 97 ≤ c ∧ c ≤ 122 then some (c.toNat - 87)
    else if 65 ≤ c ∧ c ≤ 90 then some (c.toNat - 55)
    else none
  value.filter (· < base)

/-- The values of the digits at the beginning of a text. -/
def leadingDigits (base : ℕ) : Text → List ℕ
  | [] => []
  | c :: s =>
    match digitValue base c with
    | none => []
    | some d => d :: leadingDigits base s

/-- Value of a sequence of digits. -/
def digitsValue (base : ℕ) (digits : List ℕ) : ℕ := digits.foldl (fun n d => n * base + d) 0

/-- The optional sign of a number. -/
def readSign : Text → Bool × Text
  | 45 :: s => (true, s)
  | 43 :: s => (false, s)
  | s => (false, s)

/-- The optional 0x of a hexadecimal number. -/
def skipHexPrefix (base : ℕ) : Text → Text
  | 48 :: x :: d :: s =>
    if base = 16 ∧ (x = 120 ∨ x = 88) ∧ (digitValue 16 d).isSome then d :: s else 48 :: x :: d :: s
  | s => s

/-- `strtol`. A number that is too large is replaced by the largest `long`. -/
def strtol (base : ℕ) (text : Text) : ℤ :=
  let signed := readSign (text.dropWhile isSpace)
  let n := digitsValue base (leadingDigits base (skipHexPrefix base signed.2))
  if signed.1 then max (-(n : ℤ)) (-2 ^ 31) else min (n : ℤ) (2 ^ 31 - 1)

/-- The low byte of a number. -/
def lowByte (n : ℤ) : UInt8 := (n % 256).toNat.toUInt8

/-- `BYTE_ConvertFromHexNumToByte` -/
def byteConvertFromHexNumToByte (hexNum : Text) : UInt8 :=
  if strtol 16 hexNum = 0xFF then 0xFF else lowByte (strtol 16 hexNum)

/-- Blanks at the end are trimmed, line ends become blanks, blanks at the
beginning are trimmed and those inside are left out. -/
def hexStringNoSpace (hexaString : Text) : Text :=
  let trimmed := (hexaString.reverse.dropWhile (· == 32)).reverse
  let replaced := trimmed.map fun c => if c = 10 then 32 else c
  (replaced.dropWhile (· == 32)).filter (· != 32)

/-- The pieces of two characters. -/
def hexNums : Text → List Text
  | [] => []
  | [c] => [[c]]
  | c :: d :: s => [c, d] :: hexNums s

/-- The bytes that `BYTE_ConvertFromHexStringToArray` decodes. Its result is
stored only if there is room for it. -/
def byteConvertFromHexString (hexaString : Text) : List UInt8 :=
  (hexNums (hexStringNoSpace hexaString)).map byteConvertFromHexNumToByte

/-- A number as `%d` prints it. -/
def decimal (n : ℕ) : Text := (Nat.toDigits 10 n).map fun c => c.toNat.toUInt8

/-- A byte written as two hexadecimal digits. -/
def HexPair (hexNum : Text) (b : UInt8) : Prop :=
  ∃ high low m n, hexNum = [high, low] ∧ digitValue 16 high = some m ∧ digitValue 16 low = some n ∧
    b = UInt8.ofNat (16 * m + n)

/-- Bytes written as pairs of hexadecimal digits, with blanks anywhere. -/
def HexBytes (text : Text) (bytes : List UInt8) : Prop :=
  ∃ pairs : List Text, text.filter (· != 32) = pairs.flatten ∧ List.Forall₂ HexPair pairs bytes

/-- A hexadecimal digit. -/
def hexDigit (n : ℕ) : UInt8 := UInt8.ofNat (if n < 10 then 48 + n else 55 + n)

/-- A byte in capital hexadecimal digits. -/
def hexByte (b : UInt8) : Text := [hexDigit (b.toNat / 16), hexDigit (b.toNat % 16)]

variable {base d : ℕ} {c : UInt8}

/-- Digits do not come before zero. -/
theorem le_of_digitValue (h : digitValue base c = some d) : 48 ≤ c.toNat := by
  unfold digitValue at h
  obtain ⟨hvalue, -⟩ := Option.filter_eq_some_iff.mp h
  split_ifs at hvalue with h1 h2 h3
  · exact UInt8.le_iff_toNat_le.mp h1.1
  · have hle := UInt8.le_iff_toNat_le.mp h2.1
    exact Nat.le_trans (by decide) hle
  · have hle := UInt8.le_iff_toNat_le.mp h3.1
    exact Nat.le_trans (by decide) hle

/-- The value of a digit is below the base. -/
theorem lt_of_digitValue (h : digitValue base c = some d) : d < base := by
  unfold digitValue at h
  exact of_decide_eq_true (Option.filter_eq_some_iff.mp h).2

/-- Digits are no blanks. -/
theorem not_isSpace (h : 48 ≤ c.toNat) : isSpace c = false := by
  have hblank : c ≠ 32 := by
    rintro rfl
    exact absurd h (by decide)
  have hhigh : ¬ c ≤ 13 := by
    rw [UInt8.le_iff_toNat_le]
    exact Nat.not_le.mpr (Nat.lt_of_lt_of_le (by decide) h)
  simp [isSpace, hblank, hhigh]

/-- A digit is no sign. -/
theorem readSign_digit (h : 48 ≤ c.toNat) (s : Text) : readSign (c :: s) = (false, c :: s) := by
  unfold readSign
  split
  · rename_i heq
    rw [(List.cons.inj heq).1] at h
    exact absurd h (by decide)
  · rename_i heq
    rw [(List.cons.inj heq).1] at h
    exact absurd h (by decide)
  · rfl

/-- Decimal numbers have no prefix. -/
theorem skipHexPrefix_ten (s : Text) : skipHexPrefix 10 s = s := by
  unfold skipHexPrefix
  split
  · exact if_neg fun h => absurd h.1 (by decide)
  · rfl

/-- A number that begins with a digit has no sign before it. -/
theorem strtol_digit (h : 48 ≤ c.toNat) (s : Text) :
    strtol base (c :: s) =
      min (digitsValue base (leadingDigits base (skipHexPrefix base (c :: s))) : ℤ) (2 ^ 31 - 1) := by
  have hspace : (c :: s).dropWhile isSpace = c :: s :=
    List.dropWhile_cons_of_neg (by rw [not_isSpace h]; exact Bool.false_ne_true)
  simp only [strtol, hspace, readSign_digit h, Bool.false_eq_true, if_false]

/-- The value of a decimal digit. -/
theorem digitValue_char {c : Char} (h : c.isDigit = true) :
    digitValue 10 c.toNat.toUInt8 = some (c.toNat - 48) := by
  obtain ⟨hlow, hhigh⟩ : 48 ≤ c.toNat ∧ c.toNat ≤ 57 := by
    simp only [Char.isDigit, Bool.and_eq_true, decide_eq_true_eq] at h
    exact ⟨UInt32.le_iff_toNat_le.mp h.1, UInt32.le_iff_toNat_le.mp h.2⟩
  have hbyte : c.toNat.toUInt8.toNat = c.toNat := Nat.mod_eq_of_lt (by omega)
  have hrange : 48 ≤ c.toNat.toUInt8 ∧ c.toNat.toUInt8 ≤ 57 := by
    rw [UInt8.le_iff_toNat_le, UInt8.le_iff_toNat_le, hbyte]
    exact ⟨hlow, hhigh⟩
  rw [digitValue]
  simp only [hrange, and_self, if_true, hbyte]
  exact if_pos (decide_eq_true (by omega))

/-- The digits at the beginning of a text, up to something else. -/
theorem leadingDigits_chars {cs : List Char} (hcs : ∀ c ∈ cs, c.isDigit = true) {rest : Text}
    (hrest : ∀ c ∈ rest.head?, digitValue 10 c = none) :
    leadingDigits 10 ((cs.map fun c => c.toNat.toUInt8) ++ rest) = cs.map fun c => c.toNat - 48 := by
  induction cs with
  | nil =>
    cases rest with
    | nil => rfl
    | cons c s => simp [leadingDigits, hrest c rfl]
  | cons c cs ih =>
    obtain ⟨hc, hcs'⟩ := List.forall_mem_cons.mp hcs
    rw [List.map_cons, List.cons_append, leadingDigits, digitValue_char hc, ih hcs']
    rfl

/-- Decimal digits give their value. -/
theorem digitsValue_chars {cs : List Char} (hcs : ∀ c ∈ cs, c.isDigit = true) {rest : Text}
    (hrest : ∀ c ∈ rest.head?, digitValue 10 c = none) :
    digitsValue 10 (leadingDigits 10 ((cs.map fun c => c.toNat.toUInt8) ++ rest)) =
      Nat.ofDigitChars 10 cs 0 := by
  rw [leadingDigits_chars hcs hrest, digitsValue, List.foldl_map, Nat.ofDigitChars_eq_foldl]
  simp only [Nat.mul_comm]
  rfl

/-- Up to the largest `long`. -/
theorem strtol_chars {cs : List Char} (hcs : ∀ c ∈ cs, c.isDigit = true) (hne : cs ≠ []) {rest : Text}
    (hrest : ∀ c ∈ rest.head?, digitValue 10 c = none) :
    strtol 10 ((cs.map fun c => c.toNat.toUInt8) ++ rest) = min (Nat.ofDigitChars 10 cs 0 : ℤ)
      (2 ^ 31 - 1) := by
  obtain ⟨c, cs', rfl⟩ := List.exists_cons_of_ne_nil hne
  have hvalue := digitsValue_chars hcs hrest
  have hc := le_of_digitValue (digitValue_char (hcs c List.mem_cons_self))
  rw [List.map_cons, List.cons_append] at hvalue ⊢
  rw [strtol_digit hc, skipHexPrefix_ten, hvalue]

/-- The digits of a number have its value. -/
theorem digitsValue_decimal (n : ℕ) : digitsValue 10 (leadingDigits 10 (decimal n)) = n := by
  have hdigits : ∀ c ∈ Nat.toDigits 10 n, c.isDigit = true :=
    fun c hc => Nat.isDigit_of_mem_toDigits (by decide) (by decide) hc
  have hend : ∀ c ∈ ([] : Text).head?, digitValue 10 c = none := by simp
  have hvalue := digitsValue_chars hdigits hend
  rwa [List.append_nil, Nat.ofDigitChars_ten_toDigits] at hvalue

/-- They are read as the number, or as the largest one that can be read. -/
theorem strtol_decimal (n : ℕ) {rest : Text} (hrest : ∀ c ∈ rest.head?, digitValue 10 c = none) :
    strtol 10 (decimal n ++ rest) = min (n : ℤ) (2 ^ 31 - 1) := by
  have hdigits : ∀ c ∈ Nat.toDigits 10 n, c.isDigit = true :=
    fun c hc => Nat.isDigit_of_mem_toDigits (by decide) (by decide) hc
  rw [decimal, strtol_chars hdigits Nat.toDigits_ne_nil hrest, Nat.ofDigitChars_ten_toDigits]

/-- They are decimal digits. -/
theorem mem_decimal {n : ℕ} {c : UInt8} (h : c ∈ decimal n) : 48 ≤ c.toNat ∧ c.toNat ≤ 57 := by
  obtain ⟨ch, hch, rfl⟩ := List.mem_map.mp h
  have hdigit := Nat.isDigit_of_mem_toDigits (by decide) (by decide) hch
  simp only [Char.isDigit, Bool.and_eq_true, decide_eq_true_eq] at hdigit
  have hlow := UInt32.le_iff_toNat_le.mp hdigit.1
  have hhigh := UInt32.le_iff_toNat_le.mp hdigit.2
  have hbyte : ch.toNat.toUInt8.toNat = ch.toNat := Nat.mod_eq_of_lt (Nat.lt_of_le_of_lt hhigh (by decide))
  rw [hbyte]
  exact ⟨hlow, hhigh⟩

/-- More digits do not make a number smaller. -/
theorem le_ofDigitChars (cs : List Char) (n : ℕ) : n ≤ Nat.ofDigitChars 10 cs n := by
  induction cs generalizing n with
  | nil => exact Nat.le_refl n
  | cons c cs ih =>
    rw [Nat.ofDigitChars_cons]
    exact Nat.le_trans (by omega) (ih _)

/-- The first digits of a number are at most the number. -/
theorem strtol_take_decimal (n k : ℕ) :
    0 ≤ strtol 10 ((decimal n).take k) ∧ strtol 10 ((decimal n).take k) ≤ n := by
  have hdigits : ∀ c ∈ (Nat.toDigits 10 n).take k, c.isDigit = true := fun c hc =>
    Nat.isDigit_of_mem_toDigits (by decide) (by decide) (List.mem_of_mem_take hc)
  have hle : Nat.ofDigitChars 10 ((Nat.toDigits 10 n).take k) 0 ≤ n := by
    have hfull : Nat.ofDigitChars 10 ((Nat.toDigits 10 n).take k ++ (Nat.toDigits 10 n).drop k) 0 = n := by
      rw [List.take_append_drop, Nat.ofDigitChars_ten_toDigits]
    rw [Nat.ofDigitChars_append] at hfull
    exact Nat.le_trans (le_ofDigitChars _ _) (Nat.le_of_eq hfull)
  rw [decimal, ← List.map_take]
  by_cases hnil : (Nat.toDigits 10 n).take k = []
  · rw [hnil]
    exact ⟨Int.le_refl 0, Int.natCast_nonneg n⟩
  · have hend : ∀ c ∈ ([] : Text).head?, digitValue 10 c = none := by simp
    have hchars := strtol_chars hdigits hnil hend
    rw [List.append_nil] at hchars
    rw [hchars]
    omega

/-- The first digits of a number are those of a number. -/
theorem take_decimal (n : ℕ) {k : ℕ} (hk : k ≠ 0) : ∃ m ≤ n, (decimal n).take k = decimal m := by
  induction n using Nat.strongRecOn with
  | ind n ih =>
    by_cases hn : n < 10
    · refine ⟨n, Nat.le_refl n, List.take_of_length_le ?_⟩
      rw [decimal, Nat.toDigits_of_lt_base hn]
      exact Nat.one_le_iff_ne_zero.mpr hk
    · have hsplit : decimal n = decimal (n / 10) ++ [(Nat.digitChar (n % 10)).toNat.toUInt8] := by
        rw [decimal, Nat.toDigits_of_base_le (by decide) (Nat.le_of_not_lt hn), List.map_append]
        rfl
      by_cases hall : (decimal n).length ≤ k
      · exact ⟨n, Nat.le_refl n, List.take_of_length_le hall⟩
      · rw [hsplit, List.length_append, List.length_singleton] at hall
        obtain ⟨m, hm, htake⟩ := ih (n / 10) (by omega)
        refine ⟨m, by omega, ?_⟩
        rw [hsplit, List.take_append_of_le_length (by omega), htake]

/-- Two hexadecimal digits are the byte they spell. -/
theorem byteConvertFromHexNumToByte_pair {hexNum : Text} {b : UInt8} (h : HexPair hexNum b) :
    byteConvertFromHexNumToByte hexNum = b := by
  obtain ⟨high, low, m, n, rfl, hhigh, hlow, rfl⟩ := h
  have hm := lt_of_digitValue hhigh
  have hn := lt_of_digitValue hlow
  have hvalue : strtol 16 [high, low] = ((16 * m + n : ℕ) : ℤ) := by
    rw [strtol_digit (le_of_digitValue hhigh)]
    have hdigits : digitsValue 16 (leadingDigits 16 (skipHexPrefix 16 [high, low])) = 16 * m + n := by
      simp [skipHexPrefix, leadingDigits, hhigh, hlow, digitsValue, Nat.mul_comm]
    rw [hdigits]
    omega
  have hbyte : lowByte ((16 * m + n : ℕ) : ℤ) = UInt8.ofNat (16 * m + n) := by
    have hmod : (((16 * m + n : ℕ) : ℤ) % 256).toNat = 16 * m + n := by omega
    rw [lowByte, hmod]
  rw [byteConvertFromHexNumToByte, hvalue]
  split_ifs with hff
  · have hnat : 16 * m + n = 255 := by omega
    rw [hnat]
    rfl
  · exact hbyte

/-- All blanks and line ends are left out. -/
theorem hexStringNoSpace_filter (s : Text) : hexStringNoSpace s = s.filter fun c => c != 32 && c != 10 := by
  have hblank (u : Text) : ∀ c ∈ u, (c == 32) = true → (c != 32) = false := by simp
  have hsolid : ∀ c ∈ s, (c == 32) = true → (c != 32 && c != 10) = false := by
    intro c _ hc
    rw [eq_of_beq hc]
    rfl
  have htrimmed : (s.reverse.dropWhile (· == 32)).reverse = s.rdropWhile (· == 32) := rfl
  have hkept : ∀ c, (((· != 32) : UInt8 → Bool) ∘ fun c => if c = 10 then 32 else c) c =
      (c != 32 && c != 10) := by
    intro c
    by_cases hc : c = 10
    · simp [hc]
    · simp [hc]
  rw [hexStringNoSpace, htrimmed, filter_dropWhile (hblank _), List.filter_map,
    List.filter_congr fun c _ => hkept c, filter_rdropWhile hsolid]
  refine (List.map_congr_left fun c hc => ?_).trans (List.map_id _)
  have hline : c ≠ 10 := by
    rintro rfl
    exact absurd (List.mem_filter.mp hc).2 (by decide)
  exact if_neg hline

/-- Without line ends only the blanks are. -/
theorem hexStringNoSpace_eq {s : Text} (hs : 10 ∉ s) : hexStringNoSpace s = s.filter (· != 32) := by
  rw [hexStringNoSpace_filter]
  refine List.filter_congr fun c hc => ?_
  have hne : c ≠ 10 := fun he => hs (he ▸ hc)
  simp [hne]

/-- Only digits stand in pairs. -/
theorem digit_of_mem_pairs {pairs : List Text} {bytes : List UInt8} (h : List.Forall₂ HexPair pairs bytes) :
    ∀ c ∈ pairs.flatten, digitValue 16 c ≠ none := by
  induction h with
  | nil => exact fun c hc => absurd hc List.not_mem_nil
  | cons hpair _ ih =>
    obtain ⟨high, low, m, n, rfl, hhigh, hlow, -⟩ := hpair
    intro c hc
    simp only [List.flatten_cons, List.cons_append, List.nil_append, List.mem_cons] at hc
    rcases hc with rfl | rfl | hc
    · simp [hhigh]
    · simp [hlow]
    · exact ih c hc

/-- The value of a hexadecimal digit. -/
theorem digitValue_hexDigit : ∀ n < 16, digitValue 16 (hexDigit n) = some n := by
  decide

/-- Every byte can be written. -/
theorem hexPair_hexByte (b : UInt8) : HexPair (hexByte b) b := by
  have hb := b.toNat_lt
  refine ⟨_, _, b.toNat / 16, b.toNat % 16, rfl, digitValue_hexDigit _ (by omega),
    digitValue_hexDigit _ (by omega), ?_⟩
  rw [Nat.div_add_mod, UInt8.ofNat_toNat]

/-- Every sequence of bytes can be written. -/
theorem hexBytes_hexByte (bytes : List UInt8) : HexBytes (bytes.flatMap hexByte) bytes := by
  have hpairs : List.Forall₂ HexPair (bytes.map hexByte) bytes := by
    induction bytes with
    | nil => exact .nil
    | cons b bytes ih => exact .cons (hexPair_hexByte b) ih
  have htext : bytes.flatMap hexByte = (bytes.map hexByte).flatten := List.flatMap_def
  refine ⟨bytes.map hexByte, ?_, hpairs⟩
  rw [htext, List.filter_eq_self]
  intro c hc
  have hne : c ≠ 32 := by
    rintro rfl
    exact digit_of_mem_pairs hpairs _ hc (by decide)
  simpa using hne

/-- Bytes are written with blanks and hexadecimal digits. -/
theorem HexBytes.not_mem {text : Text} {bytes : List UInt8} (h : HexBytes text bytes) {c : UInt8}
    (hblank : c ≠ 32) (hdigit : digitValue 16 c = none) : c ∉ text := by
  obtain ⟨pairs, htext, hpairs⟩ := h
  intro hc
  have hin : c ∈ pairs.flatten := by
    rw [← htext]
    exact List.mem_filter.mpr ⟨hc, by simpa using hblank⟩
  exact digit_of_mem_pairs hpairs c hin hdigit

/-- Pairs of digits are read pair by pair. -/
theorem hexNums_flatten {pairs : List Text} {bytes : List UInt8} (h : List.Forall₂ HexPair pairs bytes) :
    hexNums pairs.flatten = pairs := by
  induction h with
  | nil => rfl
  | cons hpair _ ih =>
    obtain ⟨high, low, m, n, rfl, -⟩ := hpair
    simp [hexNums, ih]

/-- Pairs of digits are the bytes they spell. -/
theorem map_byteConvertFromHexNumToByte {pairs : List Text} {bytes : List UInt8}
    (h : List.Forall₂ HexPair pairs bytes) : pairs.map byteConvertFromHexNumToByte = bytes := by
  induction h with
  | nil => rfl
  | cons hpair _ ih => rw [List.map_cons, byteConvertFromHexNumToByte_pair hpair, ih]

/-- Bytes written in hexadecimal digits are decoded. -/
theorem byteConvertFromHexString_eq {text : Text} {bytes : List UInt8} (h : HexBytes text bytes) :
    byteConvertFromHexString text = bytes := by
  have hline : 10 ∉ text := h.not_mem (by decide) (by decide)
  obtain ⟨pairs, htext, hpairs⟩ := h
  rw [byteConvertFromHexString, hexStringNoSpace_eq hline, htext, hexNums_flatten hpairs]
  exact map_byteConvertFromHexNumToByte hpairs

end ApduPlay.TextNumbers
