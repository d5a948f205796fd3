import ApduPlay.TextPatterns

/-!
# Texts with white space

The columns of a pattern are split at white space of any length. So it does not
matter which white space characters stand between the bytes, nor how many.
-/

namespace ApduPlay.WhiteSpaceTexts

open LogParser TextOutput TextColumns TextPatterns
open PacketGraph (hexByte hexBinaryString hexBinaryString_cons hexBinaryString_concat)

variable {sep : Char} {str str' : JavaString} {settings : TextOutputSettings} {b : UInt8} {bytes : List UInt8}

/-- White space is replaced by blanks. -/
def blank (c : Char) : Char := if isWhiteSpace c then ' ' else c

theorem blank_of_not {ch : Char} (h : isWhiteSpace ch = false) : blank ch = ch := by
  rw [blank, h]
  rfl

theorem isWhiteSpace_blank (ch : Char) : isWhiteSpace (blank ch) = isWhiteSpace ch := by
  cases h : isWhiteSpace ch with
  | true =>
    rw [blank, if_pos h]
    rfl
  | false => rw [blank_of_not h, h]

theorem blank_le_iff (ch : Char) : blank ch ≤ ' ' ↔ ch ≤ ' ' := by
  cases h : isWhiteSpace ch with
  | true =>
    rw [blank, if_pos h]
    exact iff_of_true (by decide) (le_blank_of_isWhiteSpace h)
  | false => rw [blank_of_not h]

/-- The same characters are trimmed. -/
theorem trim_blank (str : JavaString) : trim (str.map blank) = (trim str).map blank := by
  have hsame : ((fun ch => decide (ch ≤ ' ')) ∘ blank) = fun ch => decide (ch ≤ ' ') :=
    funext fun ch => decide_eq_decide.mpr (blank_le_iff ch)
  rw [trim, trim, List.dropWhile_map, hsame, List.rdropWhile, ← List.map_reverse, List.dropWhile_map, hsame,
    ← List.map_reverse]
  rfl

/-- The text is split at the same places. -/
theorem splitOnP_blank (str : JavaString) :
    (str.map blank).splitOnP isWhiteSpace = str.splitOnP isWhiteSpace := by
  induction str with
  | nil => rfl
  | cons ch str ih =>
    rw [List.map_cons, List.splitOnP_cons_eq_if_modifyHead, List.splitOnP_cons_eq_if_modifyHead, ih,
      isWhiteSpace_blank]
    cases h : isWhiteSpace ch with
    | true => rfl
    | false => rw [blank_of_not h]

theorem splitWhiteSpace_blank (str : JavaString) : splitWhiteSpace (str.map blank) = splitWhiteSpace str := by
  have hany : (str.map blank).any isWhiteSpace = str.any isWhiteSpace := by
    rw [List.any_map]
    exact congrArg str.any (funext isWhiteSpace_blank)
  rw [splitWhiteSpace, splitWhiteSpace, hany, splitOnP_blank]
  by_cases hspace : str.any isWhiteSpace = true
  · rw [if_pos hspace, if_pos hspace]
  · have hnone : ∀ ch ∈ str, blank ch = ch := fun ch hch =>
      blank_of_not (Bool.eq_false_iff.mpr fun h => hspace (List.any_eq_true.mpr ⟨ch, hch, h⟩))
    rw [if_neg hspace, if_neg hspace, List.map_congr_left hnone, List.map_id']

/-- Texts that differ in their white space only have the same columns. -/
theorem splitAndJoinString_congr (settings : TextOutputSettings) (h : str.map blank = str'.map blank) :
    splitAndJoinString settings str = splitAndJoinString settings str' := by
  have hvalues : splitWhiteSpace (trim str) = splitWhiteSpace (trim str') := by
    rw [← splitWhiteSpace_blank, ← trim_blank, h, trim_blank, splitWhiteSpace_blank]
  rw [splitAndJoinString, splitAndJoinString, hvalues]

theorem isWhiteSpace_hexByte {b : UInt8} {ch : Char} (hch : ch ∈ hexByte b) : isWhiteSpace ch = false :=
  Bool.eq_false_iff.mpr fun h => (mem_hexByte hch).1.1 (le_blank_of_isWhiteSpace h)

/-- A text of bytes with white space between them. -/
theorem hexBinaryString_blank (hsep : isWhiteSpace sep = true) (bytes : List UInt8) :
    (hexBinaryString (some [sep]) bytes).map blank = hexBinaryString (some [' ']) bytes := by
  have hbyte (b : UInt8) : (hexByte b).map blank = hexByte b :=
    (List.map_congr_left fun ch hch => blank_of_not (isWhiteSpace_hexByte hch)).trans (List.map_id' _)
  have hbytes (b : UInt8) : (hexByte b ++ [sep]).map blank = hexByte b ++ [' '] := by
    rw [List.map_append, hbyte, List.map_singleton, blank, if_pos hsep]
  rcases List.eq_nil_or_concat bytes with rfl | ⟨bytes, b, rfl⟩
  · rfl
  · rw [List.concat_eq_append, hexBinaryString_concat, hexBinaryString_concat, List.map_append, hbyte,
      List.map_flatMap]
    exact congrArg (· ++ hexByte b) (List.flatMap_congr fun b _ => hbytes b)

/-- Texts of the same columns are shown the same. -/
theorem splitAndJoinString_of_split (settings : TextOutputSettings)
    (h : splitWhiteSpace (trim str) = splitWhiteSpace (trim str')) :
    splitAndJoinString settings str = splitAndJoinString settings str' := by
  rw [splitAndJoinString, splitAndJoinString, h]

/-- White space in front gives empty parts. -/
theorem splitOnP_front (hstr : ∀ c ∈ str, isWhiteSpace c = true) (rest : JavaString) :
    (str ++ rest).splitOnP isWhiteSpace = List.replicate str.length [] ++ rest.splitOnP isWhiteSpace := by
  induction str with
  | nil => rfl
  | cons c str ih =>
    obtain ⟨hc, hrest⟩ := List.forall_mem_cons.mp hstr
    rw [List.cons_append, List.splitOnP_cons_eq_if_modifyHead, if_pos hc, ih hrest]
    rfl

theorem hexByte_ne_nil (b : UInt8) : hexByte b ≠ [] := List.cons_ne_nil _ _

/-- The parts of a text of bytes are these, apart from empty ones. -/
theorem splitOnP_bytes {separator : JavaString} (hne : separator ≠ [])
    (hwhite : ∀ c ∈ separator, isWhiteSpace c = true) (b : UInt8) (bytes : List UInt8) :
    ∃ parts, (hexBinaryString (some separator) (b :: bytes)).splitOnP isWhiteSpace = hexByte b :: parts ∧
      (parts.filter fun part => !part.isEmpty) = bytes.map hexByte := by
  have hbyte (b : UInt8) : ∀ c ∈ hexByte b, isWhiteSpace c = false := fun c hc => isWhiteSpace_hexByte hc
  induction bytes generalizing b with
  | nil =>
    refine ⟨[], ?_, rfl⟩
    rw [hexBinaryString_cons, if_pos rfl, List.append_nil, List.splitOnP_eq_singleton (hbyte b)]
  | cons d bytes ih =>
    obtain ⟨parts, hsplit, hparts⟩ := ih d
    obtain ⟨c, separator, rfl⟩ := List.exists_cons_of_ne_nil hne
    obtain ⟨hc, hrest⟩ := List.forall_mem_cons.mp hwhite
    refine ⟨List.replicate separator.length [] ++ hexByte d :: parts, ?_, ?_⟩
    · rw [hexBinaryString_cons, if_neg (List.cons_ne_nil _ _), Option.getD_some, List.cons_append,
        List.splitOnP_append_cons_of_forall_mem (hbyte b) c hc, splitOnP_front hrest, hsplit]
    · have hnone : (List.replicate separator.length ([] : JavaString)).filter (fun part => !part.isEmpty) =
          [] := by simp
      have hsome : (!(hexByte d).isEmpty) = true := rfl
      rw [List.filter_append, hnone, List.nil_append, List.filter_cons, if_pos hsome, hparts, List.map_cons]

/-- A text of bytes begins and ends with digits. -/
theorem trim_bytes (separator : Option JavaString) (b : UInt8) (bytes : List UInt8) :
    trim (hexBinaryString separator (b :: bytes)) = hexBinaryString separator (b :: bytes) := by
  have hdigit {b : UInt8} {c : Char} (hc : c ∈ hexByte b) : decide (c ≤ ' ') = false :=
    decide_eq_false (mem_hexByte hc).1.1
  have hfront : (hexBinaryString separator (b :: bytes)).dropWhile (fun c => decide (c ≤ ' ')) =
      hexBinaryString separator (b :: bytes) := by
    rw [hexBinaryString_cons]
    exact List.dropWhile_cons_of_neg (by rw [hdigit (b := b) List.mem_cons_self]; exact Bool.false_ne_true)
  have hback : (hexBinaryString separator (b :: bytes)).rdropWhile (fun c => decide (c ≤ ' ')) =
      hexBinaryString separator (b :: bytes) := by
    obtain ⟨front, d, hd⟩ : ∃ front d, b :: bytes = front ++ [d] :=
      ⟨_, _, (List.dropLast_append_getLast (List.cons_ne_nil b bytes)).symm⟩
    rw [hd, hexBinaryString_concat, List.rdropWhile_eq_self_iff]
    intro hne
    rw [List.getLast_append_of_ne_nil hne (hexByte_ne_nil d), hdigit (List.getLast_mem (hexByte_ne_nil d))]
    exact Bool.false_ne_true
  rw [trim, hfront, hback]

/-- The columns of a text of bytes with white space between them. -/
theorem splitWhiteSpace_bytes {separator : JavaString} (hne : separator ≠ [])
    (hwhite : ∀ c ∈ separator, isWhiteSpace c = true) (b : UInt8) (bytes : List UInt8) :
    splitWhiteSpace (trim (hexBinaryString (some separator) (b :: bytes))) = (b :: bytes).map hexByte := by
  obtain ⟨parts, hsplit, hparts⟩ := splitOnP_bytes hne hwhite b bytes
  rw [trim_bytes, splitWhiteSpace, hsplit]
  split_ifs with hany
  · dsimp only
    rw [hparts, ← List.map_cons, List.rdropWhile_eq_self_iff]
    intro hmap
    obtain ⟨d, -, hd⟩ := List.mem_map.mp (List.getLast_mem hmap)
    rw [← hd]
    exact Bool.false_ne_true
  · have hnone : ∀ c ∈ hexBinaryString (some separator) (b :: bytes), isWhiteSpace c = false := fun c hc =>
      Bool.eq_false_iff.mpr fun h => hany (List.any_eq_true.mpr ⟨c, hc, h⟩)
    rw [List.splitOnP_eq_singleton hnone, List.cons.injEq] at hsplit
    rw [← hsplit.2] at hparts
    rw [hsplit.1, List.map_cons, ← hparts]
    rfl

end ApduPlay.WhiteSpaceTexts
