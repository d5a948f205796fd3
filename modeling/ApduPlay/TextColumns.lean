import Mathlib.Algebra.Order.BigOperators.Group.List
import Mathlib.Algebra.Order.Group.Nat
import Mathlib.Data.List.Dedup
import ApduPlay.ConstantBytes

/-!
# The columns between

Between the constant bytes every place gets a column with the values that the
messages have there. A message that ends before the place, counted with the
constant bytes at the end, adds the empty byte. A column with some values may
find that there are no packets, which happens when their number wraps around.
-/

namespace ApduPlay.TextColumns

open CommonPrefix JoinedWords LogParser OutputTrees TextOutput ConstantBytes WrappedText
open PacketGraph (HashOrder hexBinaryString hexByte hexByte_injective)

/-- The bytes at a place of the messages that do not end before it. -/
def valuesAt (d i : ℕ) (msgs : List ByteMessage) : List UInt8 :=
  msgs.filterMap fun msg => if i + d < msg.bytes.length then msg.bytes[i]? else none

/-- Number of packets. -/
def total (msgs : List ByteMessage) : ℕ := (msgs.map ByteMessage.occurrences).sum

/-- A message ends before the place. -/
def Ends (d i : ℕ) (msgs : List ByteMessage) : Prop := ∃ msg ∈ msgs, msg.bytes.length ≤ i + d

instance (d i : ℕ) (msgs : List ByteMessage) : Decidable (Ends d i msgs) :=
  inferInstanceAs (Decidable (∃ msg ∈ msgs, msg.bytes.length ≤ i + d))

/-- Bytes of a longest message. -/
def longest (msgs : List ByteMessage) : ℕ := (msgs.map fun msg => msg.bytes.length).foldr max 0

/-- What is read at a place. -/
def columnAt (d i : ℕ) (msgs : List ByteMessage) : Column :=
  ⟨((valuesAt d i msgs).map hexByte).foldl addString [], total msgs, decide (Ends d i msgs)⟩

variable {msg : ByteMessage} {msgs : List ByteMessage} {column : Column} {c d i n : ℕ} {b : UInt8}
  {sep : Char} {str : JavaString} {strings l : List JavaString} {settings : TextOutputSettings}
  {hash : HashOrder}

/-- A message has three characters for each byte, but for the last separator. -/
theorem length_text (sep : Char) (msg : ByteMessage) :
    (msg.text sep).message.length = 3 * msg.bytes.length - 1 := by
  rw [message_text, length_joined (twoDigits_map hexByte (fun _ => rfl) msg.bytes), List.length_map]

/-- The digits of a byte are cut out of the text. -/
theorem substring_bytes (sep : Char) {bytes : List UInt8} (hb : bytes[i]? = some b) :
    substring (hexBinaryString (some [sep]) bytes) (3 * i : ℕ) (3 * i + 2 : ℕ) = .ok (hexByte b) := by
  have hword : (bytes.map hexByte)[i]? = some (hexByte b) := by
    rw [List.getElem?_map, hb, Option.map_some]
  have hdigits := twoDigits_map hexByte (fun _ => rfl) bytes
  have hcut : ((joined sep (bytes.map hexByte)).drop (3 * i)).take 2 = hexByte b :=
    take_drop_joined hdigits hword
  have hi := (List.getElem?_eq_some_iff.mp hb).1
  rw [hexBinaryString_joined, substring_ok (by omega)
    (by rw [length_joined hdigits, List.length_map]; omega), Nat.add_sub_cancel_left, hcut]

/-- The place of a byte, behind the two digits and the character of every byte before, is an `int`. -/
theorem wrapInt_place (msg : ByteMessage) {k : ℕ} (hk : k < 3 * msg.bytes.length) :
    wrapInt k = k :=
  wrapInt_eq ⟨by omega, by have := msg.fits; omega⟩

/-- A message that goes on adds its byte. -/
theorem readMessage_ok {endIndex : ℤ} (hb : msg.bytes[i]? = some b)
    (hlong : wrapInt ((3 * i : ℕ) + endIndex) < (msg.text sep).message.length) :
    readMessage (3 * i : ℕ) endIndex column (msg.text sep) =
      .ok ⟨addString column.bytes (hexByte b), column.msgsCount + (msg.occurrences : ℕ),
        column.addEmptyByte⟩ := by
  have hi := (List.getElem?_eq_some_iff.mp hb).1
  have hplace : wrapInt ((3 * i : ℕ) + 2) = (3 * i + 2 : ℕ) := by
    rw [← wrapInt_place msg (k := 3 * i + 2) (by omega), Nat.cast_add, Nat.cast_ofNat]
  rw [readMessage, if_pos hlong, hplace]
  exact bind_ok (substring_bytes sep hb) _

/-- The sum of the indices of a place. -/
theorem wrapInt_sum (hsum : 3 * (i + d) < 2 ^ 31) :
    wrapInt ((3 * i : ℕ) + (3 * d : ℕ)) = (3 * i + 3 * d : ℕ) := by
  rw [← Nat.cast_add]
  exact wrapInt_eq ⟨by omega, by omega⟩

/-- A message that ends is only counted. -/
theorem readMessage_ends (hsum : 3 * (i + d) < 2 ^ 31) (hends : msg.bytes.length ≤ i + d) :
    readMessage (3 * i : ℕ) (3 * d : ℕ) column (msg.text sep) =
      .ok ⟨column.bytes, column.msgsCount + (msg.occurrences : ℕ), true⟩ := by
  have hlen : ¬ (msg.text sep).message.length > wrapInt ((3 * i : ℕ) + (3 * d : ℕ)) := by
    rw [wrapInt_sum hsum, length_text]
    omega
  rw [readMessage, if_neg hlen]
  rfl

/-- The loop over the messages. -/
theorem readMessages_ok (hsum : 3 * (i + d) < 2 ^ 31) (sep : Char) (msgs : List ByteMessage)
    (column : Column) :
    (msgs.map (ByteMessage.text sep)).foldlM (readMessage (3 * i : ℕ) (3 * d : ℕ)) column =
      .ok ⟨((valuesAt d i msgs).map hexByte).foldl addString column.bytes,
        column.msgsCount + (total msgs : ℕ), column.addEmptyByte || decide (Ends d i msgs)⟩ := by
  induction msgs generalizing column with
  | nil => simp [valuesAt, total, Ends]; rfl
  | cons msg msgs ih =>
    have htotal : total (msg :: msgs) = msg.occurrences + total msgs := List.sum_cons
    have hends : Ends d i (msg :: msgs) ↔ msg.bytes.length ≤ i + d ∨ Ends d i msgs :=
      List.exists_mem_cons_iff ..
    rw [List.map_cons, List.foldlM_cons, htotal, Nat.cast_add, ← add_assoc]
    by_cases hlong : i + d < msg.bytes.length
    · have hb : msg.bytes[i]? = some msg.bytes[i] := List.getElem?_eq_getElem (by omega)
      have hvalues : valuesAt d i (msg :: msgs) = msg.bytes[i] :: valuesAt d i msgs :=
        List.filterMap_cons_some (by rw [if_pos hlong, hb])
      have hgoes : ¬ msg.bytes.length ≤ i + d := not_le.mpr hlong
      have hlen : wrapInt ((3 * i : ℕ) + (3 * d : ℕ)) < (msg.text sep).message.length := by
        rw [wrapInt_sum hsum, length_text]
        omega
      have hread : readMessage (3 * i : ℕ) (3 * d : ℕ) column (msg.text sep) = _ := readMessage_ok hb hlen
      rw [bind_ok hread, ih, hvalues, List.map_cons, List.foldl_cons,
        decide_eq_decide.mpr (hends.trans (or_iff_right hgoes))]
    · have hvalues : valuesAt d i (msg :: msgs) = valuesAt d i msgs :=
        List.filterMap_cons_none (if_neg hlong)
      have hread : readMessage (3 * i : ℕ) (3 * d : ℕ) column (msg.text sep) = _ :=
        readMessage_ends hsum (not_lt.mp hlong)
      rw [bind_ok hread, ih, hvalues,
        decide_eq_true (hends.mpr (Or.inl (not_lt.mp hlong))), Bool.true_or, Bool.or_true]

/-- A value is added. -/
theorem mem_addString {s : JavaString} : str ∈ addString strings s ↔ str ∈ strings ∨ str = s := by
  rw [addString]
  split
  · rename_i hold
    exact (or_iff_left_of_imp fun heq => heq ▸ hold).symm
  · rw [List.mem_append, List.mem_singleton]

/-- It is not added twice. -/
theorem nodup_addString (h : strings.Nodup) (str : JavaString) : (addString strings str).Nodup := by
  rw [addString]
  split
  · exact h
  · rename_i hnew
    exact List.nodup_append.mpr ⟨h, List.nodup_singleton str, fun a ha b hb heq =>
      hnew (List.mem_singleton.mp hb ▸ heq ▸ ha)⟩

/-- All values are added. -/
theorem mem_addStrings : str ∈ l.foldl addString strings ↔ str ∈ strings ∨ str ∈ l := by
  induction l generalizing strings with
  | nil => simp
  | cons s l ih => rw [List.foldl_cons, ih, mem_addString, List.mem_cons, or_assoc]

/-- None of them is added twice. -/
theorem nodup_addStrings (h : strings.Nodup) : (l.foldl addString strings).Nodup := by
  induction l generalizing strings with
  | nil => exact h
  | cons s l ih => exact ih (nodup_addString h s)

/-- There are as many strings in the set as there are different ones. -/
theorem length_addStrings (l : List JavaString) : (l.foldl addString []).length = l.dedup.length := by
  have hperm : (l.foldl addString []).Perm l.dedup := by
    refine (List.perm_ext_iff_of_nodup (nodup_addStrings List.nodup_nil) (List.nodup_dedup l)).mpr fun s => ?_
    rw [mem_addStrings, List.mem_dedup]
    exact or_iff_right List.not_mem_nil
  exact hperm.length_eq

/-- Some message is longer. -/
theorem lt_longest_iff : n < longest msgs ↔ ∃ msg ∈ msgs, n < msg.bytes.length := by
  induction msgs with
  | nil => simp [longest]
  | cons msg msgs ih =>
    rw [longest, List.map_cons, List.foldr_cons, lt_max_iff, List.exists_mem_cons_iff]
    exact or_congr_right ih

/-- The values of a column are those of the messages that reach it. -/
theorem mem_valuesAt :
    b ∈ valuesAt d i msgs ↔ ∃ msg ∈ msgs, i + d < msg.bytes.length ∧ msg.bytes[i]? = some b := by
  rw [valuesAt, List.mem_filterMap]
  simp only [Option.ite_none_right_eq_some]

/-- There are values up to the end of a longest message. -/
theorem valuesAt_eq_nil_iff : valuesAt d i msgs = [] ↔ longest msgs ≤ i + d := by
  rw [← not_lt, lt_longest_iff, List.eq_nil_iff_forall_not_mem]
  constructor
  · rintro hnone ⟨msg, hmsg, hlong⟩
    exact hnone _ (mem_valuesAt.mpr ⟨msg, hmsg, hlong, List.getElem?_eq_getElem (by omega)⟩)
  · intro hends b hb
    obtain ⟨msg, hmsg, hlong, -⟩ := mem_valuesAt.mp hb
    exact hends ⟨msg, hmsg, hlong⟩

/-- The strings of a column, with the empty byte if it is shown. -/
def shownStrings (settings : TextOutputSettings) (column : Column) : List JavaString :=
  if column.addEmptyByte ∧ settings.emptyByteIncluded then addString column.bytes settings.emptyByteValue
  else column.bytes

/-- The number of the strings is not divided, or there are packets to divide it by. -/
def Divisible (settings : TextOutputSettings) (column : Column) : Prop :=
  (shownStrings settings column).length = 1 ∨ 20 < (shownStrings settings column).length ∨
    column.msgsCount ≠ 0

instance (settings : TextOutputSettings) (column : Column) : Decidable (Divisible settings column) :=
  inferInstanceAs (Decidable (_ ∨ _ ∨ _))

/-- A column is random if it has too many strings, or as many as there are
packets, unless it has one. -/
def IsRandom (settings : TextOutputSettings) (column : Column) : Prop :=
  (shownStrings settings column).length ≠ 1 ∧
    (20 < (shownStrings settings column).length ∨
      ((shownStrings settings column).length : ℤ).tdiv column.msgsCount.toInt > 0)

instance (settings : TextOutputSettings) (column : Column) : Decidable (IsRandom settings column) :=
  inferInstanceAs (Decidable (_ ∧ _))

/-- The text of a column that has one. -/
def valueText (settings : TextOutputSettings) (hash : HashOrder) (column : Column) : JavaString :=
  if (shownStrings settings column).length = 1 then (hash.order (shownStrings settings column)).headD []
  else if IsRandom settings column then settings.randomByteValue
  else settings.byteEnumerationSeparator.intercalate (hash.order (shownStrings settings column))

/-- The tests of a column one after the other. -/
theorem columnText_tests (settings : TextOutputSettings) (hash : HashOrder) (column : Column) :
    columnText settings hash column =
      if (shownStrings settings column).length = 1 then
        .ok ((hash.order (shownStrings settings column)).headD [])
      else if 20 < (shownStrings settings column).length then .ok settings.randomByteValue
      else if column.msgsCount = 0 then .error .arithmetic
      else if ((shownStrings settings column).length : ℤ).tdiv column.msgsCount.toInt > 0 then
        .ok settings.randomByteValue
      else .ok (settings.byteEnumerationSeparator.intercalate
        (hash.order (shownStrings settings column))) := by
  rw [columnText]
  refine if_congr Iff.rfl rfl (if_congr Iff.rfl rfl ?_)
  by_cases hzero : column.msgsCount = 0
  · rw [if_pos hzero, if_pos hzero]
    rfl
  · rw [if_neg hzero, if_neg hzero]
    rfl

/-- A column has a text, or nothing to divide by. -/
theorem columnText_eq (settings : TextOutputSettings) (hash : HashOrder) (column : Column) :
    columnText settings hash column =
      if Divisible settings column then .ok (valueText settings hash column) else .error .arithmetic := by
  rw [columnText_tests, valueText]
  by_cases hone : (shownStrings settings column).length = 1
  · have hdivisible : Divisible settings column := Or.inl hone
    rw [if_pos hone, if_pos hone, if_pos hdivisible]
  · rw [if_neg hone, if_neg hone]
    by_cases hmany : 20 < (shownStrings settings column).length
    · have hdivisible : Divisible settings column := Or.inr (Or.inl hmany)
      have hrandom : IsRandom settings column := ⟨hone, Or.inl hmany⟩
      rw [if_pos hmany, if_pos hdivisible, if_pos hrandom]
    · rw [if_neg hmany]
      by_cases hzero : column.msgsCount = 0
      · have hnot : ¬ Divisible settings column := by
          rintro (h | h | h)
          exacts [hone h, hmany h, h hzero]
        rw [if_pos hzero, if_neg hnot]
      · have hdivisible : Divisible settings column := Or.inr (Or.inr hzero)
        have hrandom : IsRandom settings column ↔
            ((shownStrings settings column).length : ℤ).tdiv column.msgsCount.toInt > 0 :=
          (and_iff_right hone).trans (or_iff_right hmany)
        rw [if_neg hzero, if_pos hdivisible, if_congr hrandom rfl rfl]
        split <;> rfl

/-- A byte is not a single character. -/
theorem hexByte_ne_singleton (b : UInt8) (c : Char) : hexByte b ≠ [c] := fun h =>
  Nat.succ_ne_self 1 (congrArg List.length h)

/-- The byte strings at a place are those of the values there. -/
theorem mem_bytes : str ∈ (columnAt d i msgs).bytes ↔ ∃ b ∈ valuesAt d i msgs, hexByte b = str := by
  rw [columnAt, mem_addStrings, List.mem_map]
  exact or_iff_right List.not_mem_nil

/-- The strings at a place are those of the values there, and the empty byte. -/
theorem mem_shownStrings : str ∈ shownStrings settings (columnAt d i msgs) ↔
    (∃ b ∈ valuesAt d i msgs, hexByte b = str) ∨
      (Ends d i msgs ∧ settings.emptyByteIncluded) ∧ str = settings.emptyByteValue := by
  have hflag : (columnAt d i msgs).addEmptyByte ∧ settings.emptyByteIncluded ↔
      Ends d i msgs ∧ settings.emptyByteIncluded :=
    and_congr_left' decide_eq_true_iff
  rw [shownStrings]
  split
  · rename_i hends
    rw [mem_addString, mem_bytes, and_iff_right (hflag.mp hends)]
  · rename_i hgoes
    rw [mem_bytes, or_iff_left fun h => hgoes (hflag.mpr h.1)]

/-- A column with values shows some. -/
theorem shownStrings_ne_nil (hvalues : valuesAt d i msgs ≠ []) :
    shownStrings settings (columnAt d i msgs) ≠ [] := by
  obtain ⟨b, hb⟩ := List.exists_mem_of_ne_nil _ hvalues
  exact List.ne_nil_of_mem (mem_shownStrings.mpr (Or.inl ⟨b, hb, rfl⟩))

/-- As many as there are different values, and one more for the empty byte. -/
theorem length_shownStrings (d i : ℕ) (msgs : List ByteMessage) :
    (shownStrings defaultTextOutputSettings (columnAt d i msgs)).length =
    (valuesAt d i msgs).dedup.length + if Ends d i msgs then 1 else 0 := by
  have hbytes : (columnAt d i msgs).bytes.length = (valuesAt d i msgs).dedup.length := by
    rw [columnAt, length_addStrings, List.dedup_map_of_injective hexByte_injective, List.length_map]
  have hflag : (columnAt d i msgs).addEmptyByte ∧ defaultTextOutputSettings.emptyByteIncluded ↔
      Ends d i msgs :=
    (and_iff_left rfl).trans decide_eq_true_iff
  rw [shownStrings]
  by_cases hends : Ends d i msgs
  · have hnew : defaultTextOutputSettings.emptyByteValue ∉ (columnAt d i msgs).bytes := by
      rw [mem_bytes]
      rintro ⟨b, -, hb⟩
      exact hexByte_ne_singleton b '-' hb
    rw [if_pos (hflag.mpr hends), if_pos hends, addString, if_neg hnew, List.length_append, hbytes,
      List.length_singleton]
  · rw [if_neg (mt hflag.mp hends), if_neg hends, hbytes, Nat.add_zero]

/-- A quotient is positive if the divisor is, but not above the dividend. -/
theorem tdiv_pos_iff {a : ℕ} {b : ℤ} : (a : ℤ).tdiv b > 0 ↔ 0 < b ∧ b ≤ a := by
  rw [Int.tdiv_eq_ediv_of_nonneg (Int.natCast_nonneg a)]
  rcases le_or_gt b 0 with hneg | hpos
  · exact iff_of_false (not_lt.mpr (Int.ediv_nonpos_of_nonneg_of_nonpos (Int.natCast_nonneg a) hneg))
      fun h => absurd h.1 (not_lt.mpr hneg)
  · rw [and_iff_right hpos, gt_iff_lt, Int.lt_iff_add_one_le, zero_add, Int.le_ediv_iff_mul_le hpos, one_mul]

/-- The number of packets as it is counted. -/
theorem toInt_msgsCount (d i : ℕ) (msgs : List ByteMessage) :
    (columnAt d i msgs).msgsCount.toInt = wrapInt (total msgs) := JavaInt.toInt_natCast _

/-- The empty byte of a place is listed. -/
def ListsEmpty (d i : ℕ) (msgs : List ByteMessage) : Prop :=
  (valuesAt d i msgs).dedup.length + 1 ≤ 20 ∧
    ¬ (0 < wrapInt (total msgs) ∧ wrapInt (total msgs) ≤ (valuesAt d i msgs).dedup.length + 1)

/-- A column with the empty byte has at least two strings. -/
theorem isRandom_columnAt (hends : Ends d i msgs) (hvalues : valuesAt d i msgs ≠ []) :
    IsRandom defaultTextOutputSettings (columnAt d i msgs) ↔ ¬ ListsEmpty d i msgs := by
  have hsome : 0 < (valuesAt d i msgs).dedup.length := by
    rw [List.length_pos_iff, ne_eq, List.dedup_eq_nil]
    exact hvalues
  rw [IsRandom, toInt_msgsCount, tdiv_pos_iff, length_shownStrings, if_pos hends, ListsEmpty, Nat.cast_add,
    Nat.cast_one]
  omega

/-- The text of a place. -/
def textAt (hash : HashOrder) (d i : ℕ) (msgs : List ByteMessage) : JavaString :=
  valueText defaultTextOutputSettings hash (columnAt d i msgs)

/-- A column is random or lists its strings. -/
theorem textAt_eq (hash : HashOrder) (d i : ℕ) (msgs : List ByteMessage) :
    textAt hash d i msgs =
      if IsRandom defaultTextOutputSettings (columnAt d i msgs) then ['x']
      else [','].intercalate (hash.order (shownStrings defaultTextOutputSettings (columnAt d i msgs))) := by
  rw [textAt, valueText]
  by_cases hone : (shownStrings defaultTextOutputSettings (columnAt d i msgs)).length = 1
  · obtain ⟨s, hs⟩ := List.length_eq_one_iff.mp hone
    rw [if_pos hone, if_neg fun h => h.1 hone, hs, List.perm_singleton.mp (hash.perm [s]),
      List.intercalate_singleton]
    rfl
  · rw [if_neg hone]
    rfl

/-- The columns between. -/
def middle (hash : HashOrder) (c d : ℕ) (msgs : List ByteMessage) : List JavaString :=
  (List.range' c (longest msgs - d - c)).map fun i => textAt hash d i msgs

/-- The characters of the columns. -/
def IsPatternChar (c : Char) : Prop := ¬ c ≤ ' ' ∧ c ≠ ';' ∧ c ≠ '}'

instance (c : Char) : Decidable (IsPatternChar c) := inferInstanceAs (Decidable (_ ∧ _))

/-- A text that stands for a column. -/
def IsColumn (text : JavaString) : Prop := text ≠ [] ∧ ∀ c ∈ text, IsPatternChar c

/-- Digits are characters of a pattern, and not the comma. -/
theorem hexDigit_chars :
    ∀ n < 16, IsPatternChar (PacketTree.hexDigit n) ∧ PacketTree.hexDigit n ≠ ',' := by decide

/-- So are those of a byte. -/
theorem mem_hexByte {c : Char} (hc : c ∈ hexByte b) : IsPatternChar c ∧ c ≠ ',' := by
  have hb := b.toNat_lt
  rcases List.mem_cons.mp hc with rfl | hlow
  · exact hexDigit_chars _ (by omega)
  · rw [List.mem_singleton.mp hlow]
    exact hexDigit_chars _ (by omega)

/-- A byte can stand in a column. -/
theorem isColumn_hexByte (b : UInt8) : IsColumn (hexByte b) :=
  ⟨List.cons_ne_nil _ _, fun _ hc => (mem_hexByte hc).1⟩

/-- So can a character of a pattern. -/
theorem isColumn_singleton {c : Char} (hc : IsPatternChar c) : IsColumn [c] :=
  ⟨List.cons_ne_nil _ _, List.forall_mem_singleton.mpr hc⟩

/-- The strings of a column have no comma and stand for columns themselves. -/
theorem of_mem_shownStrings (hmem : str ∈ shownStrings defaultTextOutputSettings (columnAt d i msgs)) :
    ',' ∉ str ∧ IsColumn str := by
  rcases mem_shownStrings.mp hmem with ⟨b, -, rfl⟩ | ⟨-, rfl⟩
  · exact ⟨fun hc => (mem_hexByte hc).2 rfl, isColumn_hexByte b⟩
  · exact ⟨by decide, isColumn_singleton (by decide)⟩

/-- The text of a place with values stands for a column. -/
theorem isColumn_textAt (hash : HashOrder) (hvalues : valuesAt d i msgs ≠ []) :
    IsColumn (textAt hash d i msgs) := by
  rw [textAt_eq]
  split
  · exact isColumn_singleton (by decide)
  · have hperm := hash.perm (shownStrings defaultTextOutputSettings (columnAt d i msgs))
    have hne : hash.order (shownStrings defaultTextOutputSettings (columnAt d i msgs)) ≠ [] := fun hnil =>
      shownStrings_ne_nil hvalues (List.perm_nil.mp (hnil ▸ hperm.symm))
    have hall : ∀ s ∈ hash.order (shownStrings defaultTextOutputSettings (columnAt d i msgs)), IsColumn s :=
      fun s hs => (of_mem_shownStrings (hperm.subset hs)).2
    refine ⟨?_, forall_mem_joined (by decide) fun s hs => (hall s hs).2⟩
    obtain ⟨s, rest, hcons⟩ := List.exists_cons_of_ne_nil hne
    obtain ⟨c, s', hs⟩ := List.exists_cons_of_ne_nil (hall s (hcons ▸ List.mem_cons_self)).1
    rw [hcons, hs, List.intercalate_cons_cons_left]
    exact List.cons_ne_nil _ _

end ApduPlay.TextColumns
