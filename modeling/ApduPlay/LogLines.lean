import ApduPlay.LogParser
import ApduPlay.Library.TextSearch

/-!
# Lines of a log

The lines of a text, their keys and values, and the bytes and numbers that
the values write. Bytes are pairs of hexadecimal digits with blanks anywhere,
a response time is what the digits of the value write together.
-/

namespace ApduPlay.LogLines

open LogParser TextSearch

/-- No character ends the line. -/
def OneLine (line : JavaString) : Prop := ∀ c ∈ line, isLineSeparator c = false

instance (line : JavaString) : Decidable (OneLine line) := List.decidableBAll _ line

/-- The parser passes over the line. -/
def ignored (line : JavaString) : Bool :=
  match processLine line with
  | none => true
  | some (key, _) => !(["transmitted".toList, "received".toList, "responseTime".toList].contains key)

/-- A byte in two hexadecimal digits. -/
def HexPair (text : JavaString) (b : UInt8) : Prop :=
  ∃ c d high low, text = [c, d] ∧ hexToBin c = some high ∧ hexToBin d = some low ∧
    b = UInt8.ofNat (16 * high + low)

/-- Bytes in pairs of hexadecimal digits, with blanks anywhere. -/
def HexText (text : JavaString) (bytes : List UInt8) : Prop :=
  ∃ pairs : List JavaString, text.filter (· != ' ') = pairs.flatten ∧ List.Forall₂ HexPair pairs bytes

variable {text line key value : JavaString} {lines : List JavaString} {bytes : List UInt8} {c : Char}

/-- Two parts of a line are one. -/
theorem OneLine.append (hkey : OneLine key) (hvalue : OneLine value) : OneLine (key ++ value) := by
  intro c hc
  rcases List.mem_append.mp hc with hin | hin
  · exact hkey c hin
  · exact hvalue c hin

theorem OneLine.cons (hc : isLineSeparator c = false) (hline : OneLine line) : OneLine (c :: line) :=
  List.forall_mem_cons.mpr ⟨hc, hline⟩

/-- A line ended by a line feed is the first one. -/
theorem scannerLines_line (hline : OneLine line) (rest : JavaString) :
    scannerLines (line ++ '\n' :: rest) = line :: scannerLines rest := by
  induction line with
  | nil => simp [scannerLines, isLineSeparator]
  | cons c line ih =>
    have hc : isLineSeparator c = false := hline c List.mem_cons_self
    have hne : c ≠ '\r' := by
      rintro rfl
      exact absurd hc (by decide)
    have hrest := ih fun d hd => hline d (List.mem_cons_of_mem _ hd)
    rw [List.cons_append]
    simp [scannerLines, hne, hc, hrest]

/-- Lines ended by line feeds are found again. -/
theorem scannerLines_lines (hlines : ∀ line ∈ lines, OneLine line) :
    scannerLines (lines.flatMap (· ++ ['\n'])) = lines := by
  induction lines with
  | nil => rfl
  | cons line lines ih =>
    obtain ⟨hline, hrest⟩ := List.forall_mem_cons.mp hlines
    rw [List.flatMap_cons, List.append_assoc, List.singleton_append, scannerLines_line hline, ih hrest]

/-- A text without the separator is not split. -/
theorem split_of_not_mem (h : c ∉ text) : split c text = [text] := if_neg h

/-- The parts of a text behind its first separator. -/
theorem split_append_cons (hkey : c ∉ key) (value : JavaString) :
    split c (key ++ c :: value) = (key :: value.splitOn c).rdropWhile List.isEmpty := by
  rw [split, if_pos (by simp), List.splitOn_append_cons_self_of_not_mem hkey]

/-- A line of two parts. -/
theorem processLine_pair (hkey : ':' ∉ key) (hvalue : ':' ∉ value) (hne : value ≠ []) :
    processLine (key ++ ':' :: value) = some (key, value) := by
  have hparts : split ':' (key ++ ':' :: value) = [key, value] := by
    rw [split_append_cons hkey, List.splitOn_eq_singleton hvalue, List.rdropWhile_eq_self_iff]
    simpa using hne
  rw [processLine, hparts]

/-- Only what stands before the first colon can be the key. -/
theorem key_of_processLine (hkey : ':' ∉ key) {rest : JavaString} {k v : JavaString}
    (h : processLine (key ++ ':' :: rest) = some (k, v)) : k = key := by
  rw [processLine, split_append_cons hkey] at h
  split at h
  · rename_i parts k' v' hparts
    obtain ⟨rfl, rfl⟩ : k' = k ∧ v' = v := by simpa using h
    obtain ⟨tail, htail⟩ := List.rdropWhile_prefix List.isEmpty (l := key :: rest.splitOn ':')
    rw [hparts] at htail
    exact (List.cons.inj htail).1
  · cases h

/-- A line without a colon has no second part. -/
theorem processLine_of_not_mem (h : ':' ∉ line) : processLine line = none := by
  rw [processLine, split_of_not_mem h]

/-- A line without a value says nothing. -/
theorem processLine_empty_value (hkey : ':' ∉ key) : processLine (key ++ [':']) = none := by
  have hparts : split ':' (key ++ [':']) = [key].rdropWhile List.isEmpty := by
    rw [split_append_cons hkey]
    exact List.rdropWhile_concat_pos List.isEmpty [key] [] rfl
  rw [processLine, hparts, List.rdropWhile_singleton]
  cases key <;> rfl

theorem ignored_of_not_mem (h : ':' ∉ line) : ignored line = true := by
  rw [ignored, processLine_of_not_mem h]

/-- A line with another key is passed over. -/
theorem ignored_key (hkey : ':' ∉ key)
    (hother : key ∉ ["transmitted".toList, "received".toList, "responseTime".toList]) (rest : JavaString) :
    ignored (key ++ ':' :: rest) = true := by
  unfold ignored
  split
  · rfl
  · rename_i k v hpair
    rw [key_of_processLine hkey hpair]
    simpa using hother

/-- The parser passes over an ignored line. -/
theorem parseLine_ignored (headerLength : ℕ) (h : ignored line = true) :
    parseLine headerLength line = pure () := by
  unfold ignored at h
  unfold parseLine
  split at h
  · rename_i hpair
    rw [hpair]
    rfl
  · rename_i key value hpair
    simp only [List.contains_cons, List.contains_nil, Bool.not_eq_true', Bool.or_eq_false_iff,
      beq_eq_false_iff_ne, ne_eq] at h
    obtain ⟨ht, hr, htime, -⟩ := h
    rw [hpair, handleABDULine, if_neg ht, if_neg hr, if_neg htime]

/-- Lines that are ignored change nothing. -/
theorem forM_ignored (headerLength : ℕ) (hlines : ∀ line ∈ lines, ignored line = true) :
    forM lines (parseLine headerLength) = pure () := by
  induction lines with
  | nil => rfl
  | cons line lines ih =>
    obtain ⟨hline, hrest⟩ := List.forall_mem_cons.mp hlines
    rw [List.forM_cons, parseLine_ignored headerLength hline, pure_bind]
    exact ih hrest

/-- What a character that is a hexadecimal digit is not. -/
theorem hexToBin_bounds {n : ℕ} (h : hexToBin c = some n) :
    ¬ c ≤ ' ' ∧ c ≠ ':' ∧ isLineSeparator c = false := by
  have hcases : ('0' ≤ c ∧ c ≤ '9') ∨ ('A' ≤ c ∧ c ≤ 'F') ∨ ('a' ≤ c ∧ c ≤ 'f') := by
    unfold hexToBin at h
    split_ifs at h with h1 h2 h3
    · exact .inl h1
    · exact .inr (.inl h2)
    · exact .inr (.inr h3)
  have hrange : 48 ≤ c.toNat ∧ c.toNat ≤ 102 ∧ c.toNat ≠ 58 := by
    simp only [Char.le_def, UInt32.le_iff_toNat_le] at hcases
    change (48 ≤ c.toNat ∧ c.toNat ≤ 57) ∨ (65 ≤ c.toNat ∧ c.toNat ≤ 70) ∨
      (97 ≤ c.toNat ∧ c.toNat ≤ 102) at hcases
    omega
  have hne {d : Char} (hd : d.toNat < 48 ∨ 102 < d.toNat ∨ d.toNat = 58) : c ≠ d := by
    rintro rfl
    omega
  refine ⟨fun hle => ?_, hne (by decide), ?_⟩
  · rw [Char.le_def, UInt32.le_iff_toNat_le] at hle
    change c.toNat ≤ 32 at hle
    omega
  · simp [isLineSeparator, hne (d := '\n') (by decide), hne (d := '\r') (by decide),
      hne (d := '\u0085') (by decide), hne (d := '\u2028') (by decide), hne (d := '\u2029') (by decide)]

/-- Only digits stand in pairs. -/
theorem digit_of_mem_pairs {pairs : List JavaString} (h : List.Forall₂ HexPair pairs bytes) :
    ∀ c ∈ pairs.flatten, ∃ n, hexToBin c = some n := by
  induction h with
  | nil => exact fun c hc => absurd hc List.not_mem_nil
  | cons hpair _ ih =>
    obtain ⟨c, d, high, low, rfl, hc, hd, -⟩ := hpair
    intro e he
    simp only [List.flatten_cons, List.cons_append, List.nil_append, List.mem_cons] at he
    rcases he with rfl | rfl | he
    · exact ⟨high, hc⟩
    · exact ⟨low, hd⟩
    · exact ih e he

/-- Bytes are written with blanks and digits. -/
theorem HexText.mem (h : HexText text bytes) (hc : c ∈ text) : c = ' ' ∨ ∃ n, hexToBin c = some n := by
  obtain ⟨pairs, htext, hpairs⟩ := h
  rcases eq_or_ne c ' ' with rfl | hne
  · exact .inl rfl
  · have hin : c ∈ pairs.flatten := by
      rw [← htext]
      exact List.mem_filter.mpr ⟨hc, by simpa using hne⟩
    exact .inr (digit_of_mem_pairs hpairs c hin)

theorem HexText.colon (h : HexText text bytes) : ':' ∉ text := by
  intro hc
  rcases h.mem hc with heq | ⟨n, hn⟩
  · exact absurd heq (by decide)
  · exact (hexToBin_bounds hn).2.1 rfl

theorem HexText.oneLine (h : HexText text bytes) : OneLine text := by
  intro c hc
  rcases h.mem hc with rfl | ⟨n, hn⟩
  · rfl
  · exact (hexToBin_bounds hn).2.2

theorem HexText.ne_nil (h : HexText text bytes) (hne : bytes ≠ []) : text ≠ [] := by
  rintro rfl
  obtain ⟨pairs, htext, hpairs⟩ := h
  cases hpairs with
  | nil => exact hne rfl
  | cons hpair _ =>
    obtain ⟨c, d, -, -, rfl, -⟩ := hpair
    cases htext

/-- Nothing but blanks is trimmed from bytes. -/
theorem normalizeHexString_eq (h : HexText text bytes) : normalizeHexString text =
    text.filter (· != ' ') := by
  have hblank : ∀ c ∈ text, decide (c ≤ ' ') = true → (c != ' ') = false := by
    intro c hc hle
    rcases h.mem hc with rfl | ⟨n, hn⟩
    · rfl
    · exact absurd (of_decide_eq_true hle) (hexToBin_bounds hn).1
  have hback : ∀ c ∈ text.dropWhile (· ≤ ' '), decide (c ≤ ' ') = true → (c != ' ') = false :=
    fun c hc => hblank c ((List.dropWhile_sublist _).mem hc)
  rw [normalizeHexString, trim, filter_rdropWhile hback, filter_dropWhile hblank]

/-- The bytes are read back. -/
theorem hexBinary_normalize (h : HexText text bytes) : hexBinary (normalizeHexString text) = some bytes := by
  rw [normalizeHexString_eq h]
  obtain ⟨pairs, htext, hpairs⟩ := h
  rw [htext]
  clear htext
  induction hpairs with
  | nil => rfl
  | cons hpair _ ih =>
    obtain ⟨c, d, high, low, rfl, hc, hd, rfl⟩ := hpair
    simp [hexBinary, hc, hd, ih]

/-- A text that is the digits of the bytes but for blanks. -/
theorem hexText_of_filter {digits : UInt8 → JavaString} (hdigits : ∀ b, HexPair (digits b) b)
    (htext : text.filter (· != ' ') = bytes.flatMap digits) : HexText text bytes := by
  refine ⟨bytes.map digits, htext.trans List.flatMap_def, ?_⟩
  rw [List.forall₂_map_left_iff, List.forall₂_same]
  exact fun b _ => hdigits b

/-- The characters of a byte are digits and no blanks. -/
theorem filter_digits {digits : UInt8 → JavaString} (hdigits : ∀ b, HexPair (digits b) b) (b : UInt8) :
    (digits b).filter (· != ' ') = digits b := by
  obtain ⟨c, d, high, low, htext, hc, hd, -⟩ := hdigits b
  have hblank {e : Char} {n : ℕ} (he : hexToBin e = some n) : e ≠ ' ' := by
    rintro rfl
    cases he
  rw [htext]
  simp [hblank hc, hblank hd]

theorem hexToBin_hexDigit : ∀ n < 16, hexToBin (PacketTree.hexDigit n) = some n := by decide

/-- The text of bytes writes them. -/
theorem hexText_printHexBinary (bytes : List UInt8) :
    HexText (PacketTree.printHexBinary bytes).toList bytes := by
  have hdigits (b : UInt8) :
      HexPair [PacketTree.hexDigit (b.toNat / 16), PacketTree.hexDigit (b.toNat % 16)] b := by
    have hb := b.toNat_lt
    refine ⟨_, _, _, _, rfl, hexToBin_hexDigit _ (by omega), hexToBin_hexDigit _ (by omega), ?_⟩
    rw [Nat.div_add_mod, UInt8.ofNat_toNat]
  refine hexText_of_filter hdigits ?_
  rw [PacketTree.printHexBinary, String.toList_ofList, List.filter_flatMap]
  exact congrArg (bytes.flatMap ·) (funext (filter_digits hdigits))

/-- A line with transmitted bytes. -/
theorem parseLine_transmitted (headerLength : ℕ) (h : HexText text bytes) (hne : bytes ≠ []) :
    parseLine headerLength ("transmitted".toList ++ ':' :: text) =
      handleTransmittedData headerLength bytes := by
  have hkey : ':' ∉ "transmitted".toList := by decide
  have hpair := processLine_pair hkey h.colon (h.ne_nil hne)
  rw [parseLine, hpair, handleABDULine, if_pos rfl, parseHexBinary, hexBinary_normalize h, pure_bind]

/-- A line with received bytes. -/
theorem parseLine_received (headerLength : ℕ) (h : HexText text bytes) (hne : bytes ≠ []) :
    parseLine headerLength ("received".toList ++ ':' :: text) = handleReceivedData bytes := by
  have hkey : ':' ∉ "received".toList := by decide
  have hpair := processLine_pair hkey h.colon (h.ne_nil hne)
  rw [parseLine, hpair, handleABDULine, if_neg (by decide), if_pos rfl, parseHexBinary, hexBinary_normalize h,
    pure_bind]

/-- A line with a response time. -/
theorem parseLine_responseTime (headerLength : ℕ) (hcolon : ':' ∉ text) (hne : text ≠ []) :
    parseLine headerLength ("responseTime".toList ++ ':' :: text) = handleResponseTime text := by
  have hkey : ':' ∉ "responseTime".toList := by decide
  have hpair := processLine_pair hkey hcolon hne
  rw [parseLine, hpair, handleABDULine, if_neg (by decide), if_neg (by decide), if_pos rfl]

end ApduPlay.LogLines
