import ApduPlay.TextNumbers
import ApduPlay.Library.Buffer

/-!
# Bytes written as hexadecimal strings

APDUs are logged, configured and exchanged as hexadecimal strings, with or
without blanks between the bytes. The decoder leaves out blanks and line ends
wherever they stand.
-/

namespace ApduPlay.HexStrings

open TextNumbers TextSearch

/-- A digit of `%x` -/
def lowerHexDigit (n : ℕ) : UInt8 := UInt8.ofNat (if n < 10 then 48 + n else 87 + n)

/-- A byte as `%.2x` prints it. -/
def hexNum (b : UInt8) : Text := [lowerHexDigit (b.toNat / 16), lowerHexDigit (b.toNat % 16)]

/-- `BYTE_ConvertFromArrayToHexString`. Blanks at the end are erased. -/
def byteConvertFromArrayToHexString (pArray : List UInt8) (bAddSpace : Bool) : Text :=
  (pArray.flatMap fun b => hexNum b ++ if bAddSpace then [32] else []).rdropWhile (· == 32)

/-- `BYTE_ConvertFromHexStringToArray`: status, array and its length. The
needed length is reported also if it is too large. -/
def byteConvertFromHexStringToArray (hexaString : Text) (pArray : List UInt8) (pbArrayLen : UInt32) :
    Except Fault (Status × List UInt8 × UInt32) :=
  let bytes := byteConvertFromHexString hexaString
  if bytes.length > pbArrayLen.toNat then .ok (statNotEnoughtMemory, pArray, UInt32.ofNat bytes.length)
  else do
    let pArray ← Buffer.write .outOfBounds pArray 0 bytes
    return (statOk, pArray, UInt32.ofNat bytes.length)

/-- No blank and no line end. -/
def isSolid (c : UInt8) : Bool := c != 32 && c != 10

/-- A text with blanks and line ends put in. -/
inductive BlanksInserted : Text → Text → Prop
  /-- Nothing is left of the text. -/
  | nil : BlanksInserted [] []
  /-- A character of the text. -/
  | char (c : UInt8) {s t : Text} : BlanksInserted s t → BlanksInserted (c :: s) (c :: t)
  /-- A character that was put in. -/
  | blank {c : UInt8} {s t : Text} : c = 32 ∨ c = 10 → BlanksInserted s t → BlanksInserted s (c :: t)

variable {s t text : Text} {bytes : List UInt8}

theorem BlanksInserted.filter_eq (h : BlanksInserted s t) : t.filter isSolid = s.filter isSolid := by
  induction h with
  | nil => rfl
  | char c _ ih => rw [List.filter_cons, List.filter_cons, ih]
  | blank hc _ ih =>
    rw [List.filter_cons_of_neg (by rcases hc with rfl | rfl <;> decide), ih]

/-- Pairs of digits are decoded, whatever stands between the digits. -/
theorem byteConvertFromHexString_pairs {pairs : List Text} (htext : text.filter isSolid = pairs.flatten)
    (hpairs : List.Forall₂ HexPair pairs bytes) : byteConvertFromHexString text = bytes := by
  have hsolid : hexStringNoSpace text = pairs.flatten := (hexStringNoSpace_filter text).trans htext
  rw [byteConvertFromHexString, hsolid, hexNums_flatten hpairs]
  exact map_byteConvertFromHexNumToByte hpairs

theorem digitValue_lowerHexDigit : ∀ n < 16, digitValue 16 (lowerHexDigit n) = some n := by
  decide

theorem hexPair_hexNum (b : UInt8) : HexPair (hexNum b) b := by
  have hb := b.toNat_lt
  refine ⟨_, _, b.toNat / 16, b.toNat % 16, rfl, digitValue_lowerHexDigit _ (by omega),
    digitValue_lowerHexDigit _ (by omega), ?_⟩
  rw [Nat.div_add_mod, UInt8.ofNat_toNat]

theorem forall₂_hexNum (bytes : List UInt8) : List.Forall₂ HexPair (bytes.map hexNum) bytes := by
  induction bytes with
  | nil => exact .nil
  | cons b bytes ih => exact .cons (hexPair_hexNum b) ih

/-- A digit is no blank. -/
theorem isSolid_of_digit {c : UInt8} (h : digitValue 16 c ≠ none) : isSolid c = true := by
  have hne : ∀ d : UInt8, digitValue 16 d = none → c ≠ d := by
    rintro d hd rfl
    exact h hd
  simp [isSolid, hne 32 (by decide), hne 10 (by decide)]

/-- The digits of a string are those of its bytes. -/
theorem filter_byteConvertFromArrayToHexString (bytes : List UInt8) (bAddSpace : Bool) :
    (byteConvertFromArrayToHexString bytes bAddSpace).filter isSolid = (bytes.map hexNum).flatten := by
  have hblank : ∀ c ∈ bytes.flatMap (fun b => hexNum b ++ if bAddSpace then [32] else []),
      (c == 32) = true → isSolid c = false := by
    intro c _ hc
    rw [eq_of_beq hc]
    rfl
  rw [byteConvertFromArrayToHexString, filter_rdropWhile hblank]
  clear hblank
  have hdigits : ∀ b, (hexNum b).filter isSolid = hexNum b := fun b => List.filter_eq_self.mpr fun c hc =>
    isSolid_of_digit (digit_of_mem_pairs (.cons (hexPair_hexNum b) .nil) c (by simpa using hc))
  have hspace : (if bAddSpace then [32] else []).filter isSolid = [] := by
    cases bAddSpace <;> rfl
  induction bytes with
  | nil => rfl
  | cons b bytes ih =>
    rw [List.flatMap_cons, List.filter_append, List.filter_append, hdigits, hspace, List.append_nil, ih,
      List.map_cons, List.flatten_cons]

/-- What was encoded is decoded, with blanks and line ends put in anywhere. -/
theorem byteConvertFromHexString_encoded {bAddSpace : Bool}
    (h : BlanksInserted (byteConvertFromArrayToHexString bytes bAddSpace) text) :
    byteConvertFromHexString text = bytes :=
  byteConvertFromHexString_pairs
    (h.filter_eq.trans (filter_byteConvertFromArrayToHexString bytes bAddSpace)) (forall₂_hexNum bytes)

variable {pArray : List UInt8} {pbArrayLen : UInt32}

/-- Bytes that fit are stored at the beginning of the array. -/
theorem byteConvertFromHexStringToArray_ok
    (hfits : (byteConvertFromHexString text).length ≤ pbArrayLen.toNat)
    (hroom : (byteConvertFromHexString text).length ≤ pArray.length) :
    byteConvertFromHexStringToArray text pArray pbArrayLen =
      .ok (statOk, byteConvertFromHexString text ++ pArray.drop (byteConvertFromHexString text).length,
        UInt32.ofNat (byteConvertFromHexString text).length) := by
  rw [byteConvertFromHexStringToArray, if_neg (Nat.not_lt.mpr hfits)]
  exact Fault.bind_ok ((Buffer.write_ok (by omega)).trans
    (congrArg Except.ok (Buffer.overwrite_append [] pArray _)))

/-- Bytes that only the given length has room for are written outside the array. -/
theorem byteConvertFromHexStringToArray_error
    (hfits : (byteConvertFromHexString text).length ≤ pbArrayLen.toNat)
    (hroom : pArray.length < (byteConvertFromHexString text).length) :
    byteConvertFromHexStringToArray text pArray pbArrayLen = .error .outOfBounds := by
  rw [byteConvertFromHexStringToArray, if_neg (Nat.not_lt.mpr hfits)]
  exact Fault.bind_error (Buffer.write_error (by omega))

theorem byteConvertFromHexStringToArray_long
    (hlong : pbArrayLen.toNat < (byteConvertFromHexString text).length) :
    byteConvertFromHexStringToArray text pArray pbArrayLen =
      .ok (statNotEnoughtMemory, pArray, UInt32.ofNat (byteConvertFromHexString text).length) :=
  if_pos hlong

/-- An array that is encoded in either way is decoded again if there is room
for it, also with blanks and line ends put in, and only its length is given
otherwise. -/
theorem decodes_encoded (a : List UInt8) (ha : a.length < 2 ^ 32) (bAddSpace : Bool)
    (h : BlanksInserted (byteConvertFromArrayToHexString a bAddSpace) text) (pArray : List UInt8)
    (pbArrayLen : UInt32) (hroom : pbArrayLen.toNat ≤ pArray.length) :
    ∃ length : UInt32, length.toNat = a.length ∧
      (a.length ≤ pbArrayLen.toNat → byteConvertFromHexStringToArray text pArray pbArrayLen =
        .ok (statOk, a ++ pArray.drop a.length, length)) ∧
      (pbArrayLen.toNat < a.length → byteConvertFromHexStringToArray text pArray pbArrayLen =
        .ok (statNotEnoughtMemory, pArray, length)) := by
  obtain rfl := byteConvertFromHexString_encoded h
  refine ⟨UInt32.ofNat _, UInt32.toNat_ofNat_of_lt' ha, fun hfits => ?_, fun hsmall => ?_⟩
  · exact byteConvertFromHexStringToArray_ok hfits (Nat.le_trans hfits hroom)
  · exact byteConvertFromHexStringToArray_long hsmall

/-- Two bytes with a line end between the digits of the first and a blank
behind the second. -/
theorem decodes_encoded_apart : ∃ length : UInt32, length.toNat = 2 ∧
    (2 ≤ (2 : UInt32).toNat → byteConvertFromHexStringToArray (ascii "6\nf 00 ") [0, 0] 2 =
      .ok (statOk, [0x6f, 0x00] ++ [0, 0].drop 2, length)) ∧
    ((2 : UInt32).toNat < 2 → byteConvertFromHexStringToArray (ascii "6\nf 00 ") [0, 0] 2 =
      .ok (statNotEnoughtMemory, [0, 0], length)) :=
  decodes_encoded [0x6f, 0x00] (by decide) true
    (.char 54 (.blank (.inr rfl) (.char 102 (.char 32 (.char 48 (.char 48 (.blank (.inl rfl) .nil)))))))
    [0, 0] 2 (by decide)

end ApduPlay.HexStrings
