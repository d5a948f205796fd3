import Mathlib.Algebra.Order.Field.Rat
import Mathlib.Algebra.Order.Field.Basic
import Mathlib.Tactic.NormNum
import ApduPlay.AnalyzedColumns

/-!
# Which columns are random

A column should be random if its values are more than a third, roughly, of the
packets. The quotient is an `int`, so that it is above that only if the values
are as many as the packets, and the number of packets is an `int` that wraps
around.
-/

namespace ApduPlay.RandomColumns

open LogParser TextOutput ConstantBytes TextColumns AnalyzedColumns
open PacketGraph (HashOrder anyOrder)

/-- The text of a column by the exact ratio of its values to the packets. -/
def ratioText (settings : TextOutputSettings) (hash : HashOrder) (packets : ℕ) (column : Column) :
    JavaString :=
  let bytes := shownStrings settings column
  if bytes.length = 1 then (hash.order bytes).headD []
  else if 20 < bytes.length ∨ (33 / 100 : ℚ) < bytes.length / packets then settings.randomByteValue
  else settings.byteEnumerationSeparator.intercalate (hash.order bytes)

/-- The analysis ends with one text for every column between, the one by the exact
ratio. -/
def RendersColumns (settings : TextOutputSettings) (hash : HashOrder) (sep : Char) (msgs : List ByteMessage)
    (c d : ℕ) : Prop :=
  columnTexts settings hash (columnsAt c d msgs) =
      .ok ((columnsAt c d msgs).map (ratioText settings hash (total msgs))) ∧
    analyzeMessages settings hash (msgs.map (ByteMessage.text sep)) (3 * c - 1 : ℕ) (3 * d - 1 : ℕ) =
      .ok (((columnsAt c d msgs).map (ratioText settings hash (total msgs))).foldl appendColumn [])

/-- The values are less than the packets, but more than the ratio allows, or not
less than the packets that are counted after the number wrapped around. -/
def Misjudged (values packets : ℕ) : Prop :=
  2 ≤ values ∧ values ≤ 20 ∧ values < packets ∧
    (33 * packets < 100 * values ∨ packets % 2 ^ 32 ≤ values)

/-- The values are not divided by zero. -/
def Counted (values packets : ℕ) : Prop := 2 ≤ values → values ≤ 20 → packets % 2 ^ 32 ≠ 0

/-- The column is counted, and not misjudged unless its list of values reads like
the random marker. -/
def Judged (settings : TextOutputSettings) (hash : HashOrder) (packets : ℕ) (column : Column) : Prop :=
  Counted (shownStrings settings column).length packets ∧
    (¬ Misjudged (shownStrings settings column).length packets ∨
      settings.byteEnumerationSeparator.intercalate (hash.order (shownStrings settings column)) =
        settings.randomByteValue)

instance (values packets : ℕ) : Decidable (Misjudged values packets) :=
  inferInstanceAs (Decidable (_ ∧ _ ∧ _ ∧ _))

instance (values packets : ℕ) : Decidable (Counted values packets) :=
  inferInstanceAs (Decidable (_ → _ → _))

instance (settings : TextOutputSettings) (hash : HashOrder) (packets : ℕ) (column : Column) :
    Decidable (Judged settings hash packets column) :=
  inferInstanceAs (Decidable (_ ∧ _))

variable {settings : TextOutputSettings} {hash : HashOrder} {column : Column} {msgs : List ByteMessage}
  {c d values packets : ℕ}

/-- The exact quotient without a division. -/
theorem ratio_iff (values : ℕ) (hpackets : 0 < packets) :
    (33 / 100 : ℚ) < values / packets ↔ 33 * packets < 100 * values := by
  have hpos : (0 : ℚ) < packets := Nat.cast_pos.mpr hpackets
  have hcross : (33 / 100 : ℚ) * packets < values ↔ (33 * packets : ℚ) < 100 * values := by
    rw [div_mul_eq_mul_div, div_lt_iff₀' (by norm_num)]
  rw [lt_div_iff₀ hpos, hcross]
  exact_mod_cast Iff.rfl

/-- The number of packets is small as an `int` if the number itself is, or after
it wrapped around. -/
theorem wrapInt_small (hvalues : values ≤ 20) :
    0 < wrapInt packets ∧ wrapInt packets ≤ values ↔ 0 < packets % 2 ^ 32 ∧ packets % 2 ^ 32 ≤ values := by
  rw [wrapInt, Int.bmod_def]
  split_ifs <;> omega

/-- The values are divided by the packets unless their number is zero as an `int`. -/
theorem divisible_iff (hcount : column.msgsCount = (packets : ℕ))
    (hsome : 0 < (shownStrings settings column).length) :
    Divisible settings column ↔ Counted (shownStrings settings column).length packets := by
  have hzero : column.msgsCount ≠ 0 ↔ packets % 2 ^ 32 ≠ 0 := by
    rw [hcount, ne_eq, BitVec.toNat_eq]
    exact Iff.rfl
  rw [Divisible, Counted, hzero]
  omega

/-- A column is random by both quotients or by none exactly if it is not misjudged. -/
theorem isRandom_iff_ratio (hcount : column.msgsCount = (packets : ℕ)) (hpackets : 0 < packets)
    (hmore : 2 ≤ (shownStrings settings column).length)
    (hcounted : Counted (shownStrings settings column).length packets) :
    (IsRandom settings column ↔ 20 < (shownStrings settings column).length ∨
      (33 / 100 : ℚ) < (shownStrings settings column).length / packets) ↔
        ¬ Misjudged (shownStrings settings column).length packets := by
  have hint : column.msgsCount.toInt = wrapInt packets := by rw [hcount, JavaInt.toInt_natCast]
  rw [IsRandom, and_iff_right (by omega), tdiv_pos_iff, hint, ratio_iff _ hpackets, Misjudged]
  rcases lt_or_ge 20 (shownStrings settings column).length with hmany | hfew
  · exact iff_of_true (iff_of_true (Or.inl hmany) (Or.inl hmany)) fun h => absurd h.2.1 (not_le.mpr hmany)
  · have hnonzero := hcounted hmore hfew
    rw [or_iff_right (not_lt.mpr hfew), or_iff_right (not_lt.mpr hfew), wrapInt_small hfew]
    omega

/-- A column with packets and a value has the text by the exact ratio exactly if it
is judged. -/
theorem columnText_eq_ratioText (hcount : column.msgsCount = (packets : ℕ)) (hpackets : 0 < packets)
    (hsome : 0 < (shownStrings settings column).length) :
    columnText settings hash column = .ok (ratioText settings hash packets column) ↔
      Judged settings hash packets column := by
  rw [columnText_eq, Judged, if_congr (divisible_iff hcount hsome) rfl rfl]
  by_cases hcounted : Counted (shownStrings settings column).length packets
  · rw [if_pos hcounted, and_iff_right hcounted, Except.ok.injEq, valueText, ratioText]
    by_cases hone : (shownStrings settings column).length = 1
    · have hnot : ¬ Misjudged (shownStrings settings column).length packets := fun h =>
        absurd h.1 (by omega)
      rw [if_pos hone, if_pos hone]
      exact iff_of_true rfl (Or.inl hnot)
    · rw [if_neg hone, if_neg hone, ← isRandom_iff_ratio hcount hpackets (by omega) hcounted]
      split_ifs with hrandom hratio hratio
      · exact iff_of_true rfl (Or.inl (iff_of_true hrandom hratio))
      · rw [or_iff_right fun h => hratio (h.mp hrandom)]
        exact eq_comm
      · rw [or_iff_right fun h => hrandom (h.mpr hratio)]
      · exact iff_of_true rfl (Or.inl (iff_of_false hrandom hratio))
  · rw [if_neg hcounted]
    exact iff_of_false (fun h => by cases h) fun h => hcounted h.1

/-- A column between has packets and a value. -/
theorem pos_column (settings : TextOutputSettings) (hcolumn : column ∈ columnsAt c d msgs) :
    column.msgsCount = (total msgs : ℕ) ∧ 0 < total msgs ∧ 0 < (shownStrings settings column).length := by
  obtain ⟨i, -, hlong, rfl⟩ := mem_columnsAt.mp hcolumn
  have hvalues : valuesAt d i msgs ≠ [] := fun hnil =>
    absurd (valuesAt_eq_nil_iff.mp hnil) (not_le.mpr hlong)
  obtain ⟨b, hb⟩ := List.exists_mem_of_ne_nil _ hvalues
  obtain ⟨msg, hmsg, -⟩ := mem_valuesAt.mp hb
  refine ⟨rfl, ?_, List.length_pos_iff.mpr (shownStrings_ne_nil hvalues)⟩
  exact msg.occurs.trans_le (List.le_sum_of_mem (List.mem_map_of_mem hmsg))

/-- All columns have the texts by the exact ratio if each has its own. -/
theorem columnTexts_eq_iff {columns : List Column} {text : Column → JavaString} :
    columnTexts settings hash columns = .ok (columns.map text) ↔
      ∀ column ∈ columns, columnText settings hash column = .ok (text column) := by
  induction columns with
  | nil => exact iff_of_true rfl (List.forall_mem_nil _)
  | cons column columns ih =>
    rw [columnTexts_cons, List.forall_mem_cons, ← ih]
    constructor
    · intro h
      obtain ⟨first, hfirst, h⟩ := WrappedText.of_bind_ok h
      obtain ⟨rest, hrest, h⟩ := WrappedText.of_bind_ok h
      obtain ⟨rfl, rfl⟩ := List.cons.inj (Except.ok.inj h)
      exact ⟨hfirst, hrest⟩
    · rintro ⟨hfirst, hrest⟩
      rw [bind_ok hfirst, bind_ok hrest]
      rfl

end ApduPlay.RandomColumns
