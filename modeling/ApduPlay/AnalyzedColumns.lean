import ApduPlay.TextColumns

/-!
# The analysis of the columns

The columns between the constant bytes are written one after the other, up to
the end of a longest message. There is an exception if the constant bytes at
both ends are too many for an `int`, or if a column has nothing to divide by.
-/

namespace ApduPlay.AnalyzedColumns

open JoinedWords LogParser OutputTrees TextOutput ConstantBytes TextColumns WrappedText
open PacketGraph (HashOrder hexByte)

variable {msg : ByteMessage} {msgs : List ByteMessage} {column : Column} {c d i : ℕ} {sep : Char}
  {settings : TextOutputSettings} {hash : HashOrder}

/-- Behind a text of columns a blank and the next column are written. -/
theorem append_column {words : List JavaString} (word : JavaString) (hwords : ∀ w ∈ words, w ≠ []) :
    (if (joined ' ' words).length > 0 then joined ' ' words ++ [' '] else joined ' ' words) ++ word =
      joined ' ' (words ++ [word]) := by
  rcases List.eq_nil_or_concat words with rfl | ⟨front, last, rfl⟩
  · exact (joined_singleton ' ' word).symm
  · rw [List.concat_eq_append] at hwords ⊢
    have hlast : last ≠ [] := hwords last (List.mem_append_right _ List.mem_cons_self)
    have hpos : (joined ' ' (front ++ [last])).length > 0 := by
      rw [joined_concat, List.length_append]
      exact Nat.add_pos_right _ (List.length_pos_iff.mpr hlast)
    rw [if_pos hpos, joined_append (List.append_ne_nil_of_right_ne_nil _ (List.cons_ne_nil _ _))
      (List.cons_ne_nil _ _),
      joined_singleton, List.append_assoc]
    rfl

/-- A column is written behind the text of the columns before. -/
def appendColumn (returnStr text : JavaString) : JavaString :=
  (if returnStr.length > 0 then returnStr ++ [' '] else returnStr) ++ text

/-- The columns between, from a place on. -/
def columnsAt (c d : ℕ) (msgs : List ByteMessage) : List Column :=
  (List.range' c (longest msgs - d - c)).map fun i => columnAt d i msgs

theorem mem_columnsAt : column ∈ columnsAt c d msgs ↔ ∃ i, c ≤ i ∧ i + d < longest msgs ∧
    columnAt d i msgs = column := by
  rw [columnsAt, List.mem_map]
  simp only [List.mem_range'_1, and_assoc]
  refine exists_congr fun i => and_congr_right fun hi => and_congr_left' ?_
  omega

/-- The columns behind the end of a longest message are none. -/
theorem columnsAt_eq_nil (hend : longest msgs ≤ i + d) : columnsAt i d msgs = [] := by
  rw [columnsAt, Nat.sub_sub, Nat.sub_eq_zero_of_le (by omega)]
  rfl

theorem columnsAt_cons (hmore : i + d < longest msgs) :
    columnsAt i d msgs = columnAt d i msgs :: columnsAt (i + 1) d msgs := by
  have hcount : longest msgs - d - i = longest msgs - d - (i + 1) + 1 := by omega
  rw [columnsAt, columnsAt, hcount, List.range'_succ, List.map_cons]

/-- A longest message has room in a string. -/
theorem longest_fits (msgs : List ByteMessage) : 3 * longest msgs ≤ 2 ^ 31 := by
  refine not_lt.mp fun hlt => ?_
  obtain ⟨msg, -, hlong⟩ := lt_longest_iff.mp (by omega : 2 ^ 31 / 3 < longest msgs)
  have hfits := msg.fits
  omega

/-- The texts of columns. -/
def columnTexts (settings : TextOutputSettings) (hash : HashOrder) (columns : List Column) :
    OutputM (List JavaString) :=
  columns.mapM (columnText settings hash)

theorem columnTexts_cons (settings : TextOutputSettings) (hash : HashOrder) (column : Column)
    (columns : List Column) :
    columnTexts settings hash (column :: columns) =
      columnText settings hash column >>= fun text =>
        columnTexts settings hash columns >>= fun texts => .ok (text :: texts) :=
  List.mapM_cons

/-- The columns have texts if each has one. -/
theorem columnTexts_ok {columns : List Column} (h : ∀ column ∈ columns, Divisible settings column) :
    columnTexts settings hash columns = .ok (columns.map (valueText settings hash)) := by
  induction columns with
  | nil => rfl
  | cons column columns ih =>
    obtain ⟨hcolumn, hcolumns⟩ := List.forall_mem_cons.mp h
    have htext : columnText settings hash column = .ok (valueText settings hash column) := by
      rw [columnText_eq, if_pos hcolumn]
    rw [columnTexts_cons, bind_ok htext, bind_ok (ih hcolumns)]
    rfl

/-- Only then. -/
theorem divisible_of_columnTexts {columns : List Column} {texts : List JavaString}
    (h : columnTexts settings hash columns = .ok texts) : ∀ column ∈ columns, Divisible settings column := by
  induction columns generalizing texts with
  | nil => exact List.forall_mem_nil _
  | cons column columns ih =>
    rw [columnTexts_cons] at h
    obtain ⟨text, htext, hrest⟩ := of_bind_ok h
    obtain ⟨rest, hcolumns, -⟩ := of_bind_ok hrest
    refine List.forall_mem_cons.mpr ⟨?_, ih hcolumns⟩
    rw [columnText_eq] at htext
    by_contra hnot
    rw [if_neg hnot] at htext
    cases htext

/-- The loop writes one column after the other up to the end of a longest message. -/
theorem analyzeLoop_columns (settings : TextOutputSettings) (hash : HashOrder) (sep : Char)
    (msgs : List ByteMessage) (d rounds : ℕ) {i : ℕ} (returnStr : JavaString) (hsum : 3 * (i + d) < 2 ^ 31)
    (hrounds : longest msgs ≤ i + d + rounds) :
    analyzeLoop settings hash (msgs.map (ByteMessage.text sep)) (3 * d : ℕ) rounds (3 * i : ℕ) returnStr =
      columnTexts settings hash (columnsAt i d msgs) >>= fun texts =>
        .ok (texts.foldl appendColumn returnStr) := by
  induction rounds generalizing i returnStr with
  | zero =>
    rw [columnsAt_eq_nil (by omega : longest msgs ≤ i + d)]
    rfl
  | succ rounds ih =>
    have hcolumn : (⟨((valuesAt d i msgs).map hexByte).foldl addString [], 0 + (total msgs : ℕ),
        false || decide (Ends d i msgs)⟩ : Column) = columnAt d i msgs := by
      rw [zero_add, Bool.false_or, columnAt]
    rw [analyzeLoop, bind_ok (readMessages_ok hsum sep msgs ⟨[], 0, false⟩), hcolumn]
    by_cases hvalues : valuesAt d i msgs = []
    · have hempty : (columnAt d i msgs).bytes.isEmpty = true := by rw [columnAt, hvalues]; rfl
      rw [if_pos hempty, columnsAt_eq_nil (valuesAt_eq_nil_iff.mp hvalues)]
      rfl
    · have hmore : i + d < longest msgs := not_le.mp (mt valuesAt_eq_nil_iff.mpr hvalues)
      have hsome : ¬ (columnAt d i msgs).bytes.isEmpty = true := by
        obtain ⟨b, hb⟩ := List.exists_mem_of_ne_nil _ hvalues
        rw [List.isEmpty_iff]
        exact List.ne_nil_of_mem (mem_bytes.mpr ⟨b, hb, rfl⟩)
      have hnext : 3 * (i + 1 + d) < 2 ^ 31 := by
        have hfits := longest_fits msgs
        omega
      have hplace : wrapInt ((3 * i : ℕ) + 3) = (3 * (i + 1) : ℕ) := by
        rw [Nat.mul_succ, Nat.cast_add, Nat.cast_ofNat]
        exact wrapInt_eq ⟨by omega, by omega⟩
      rw [if_neg hsome, columnsAt_cons hmore, columnTexts_cons, hplace, bind_assoc]
      refine bind_congr fun text => ?_
      rw [bind_assoc]
      exact ih _ hnext (by omega)

/-- The texts of columns are joined with blanks unless one is empty. -/
theorem foldl_appendColumn (texts words : List JavaString) (hwords : ∀ w ∈ words ++ texts, w ≠ []) :
    texts.foldl appendColumn (joined ' ' words) = joined ' ' (words ++ texts) := by
  induction texts generalizing words with
  | nil => rw [List.append_nil]; rfl
  | cons text texts ih =>
    have hnext := append_column text fun w hw => hwords w (List.mem_append_left _ hw)
    rw [List.append_cons] at hwords ⊢
    rw [List.foldl_cons, ← ih (words ++ [text]) hwords]
    exact congrArg (fun str => texts.foldl appendColumn str) hnext

/-- A longest message is within the text of all. -/
theorem longest_le (sep : Char) (msgs : List ByteMessage) :
    longest msgs ≤ ((msgs.map (ByteMessage.text sep)).map fun msg => msg.message.length).sum + 1 := by
  refine not_lt.mp fun hlt => ?_
  obtain ⟨msg, hmsg, hlong⟩ := lt_longest_iff.mp hlt
  have hsum := List.le_sum_of_mem (List.mem_map_of_mem (f := fun msg : OutputMessage => msg.message.length)
    (List.mem_map_of_mem (f := ByteMessage.text sep) hmsg))
  rw [length_text] at hsum
  omega

/-- The analysis begins behind the constant bytes. -/
theorem analyzeMessages_loop (settings : TextOutputSettings) (hash : HashOrder)
    (messages : List OutputMessage)
    (hc : 3 * c ≤ 2 ^ 31) (hd : 3 * d ≤ 2 ^ 31) :
    analyzeMessages settings hash messages (3 * c - 1 : ℕ) (3 * d - 1 : ℕ) =
      analyzeLoop settings hash messages (3 * d : ℕ) ((messages.map fun msg => msg.message.length).sum + 1)
        (3 * c : ℕ) [] := by
  have hindex {k : ℕ} (hk : 3 * k ≤ 2 ^ 31) :
      (if ((3 * k - 1 : ℕ) : ℤ) > 0 then wrapInt ((3 * k - 1 : ℕ) + 1) else ((3 * k - 1 : ℕ) : ℤ)) =
        (3 * k : ℕ) := by
    split
    · rw [wrapInt_eq ⟨by omega, by omega⟩]
      omega
    · omega
  rw [analyzeMessages, hindex hc, hindex hd]

/-- The columns between are analysed behind the constant bytes. -/
theorem analyzeMessages_columns (settings : TextOutputSettings) (hash : HashOrder) (sep : Char)
    (hsum : 3 * (c + d) < 2 ^ 31) :
    analyzeMessages settings hash (msgs.map (ByteMessage.text sep)) (3 * c - 1 : ℕ) (3 * d - 1 : ℕ) =
      columnTexts settings hash (columnsAt c d msgs) >>= fun texts => .ok (texts.foldl appendColumn []) := by
  have hrounds := longest_le sep msgs
  rw [analyzeMessages_loop settings hash _ (by omega) (by omega)]
  exact analyzeLoop_columns settings hash sep msgs d _ [] hsum (by omega)

/-- A sum of the constant bytes that is too large is negative. -/
theorem wrapInt_sum_neg (hi : 3 * i ≤ 2 ^ 31) (hd : 3 * d ≤ 2 ^ 31) (hsum : 2 ^ 31 ≤ 3 * (i + d)) :
    wrapInt ((3 * i : ℕ) + (3 * d : ℕ)) < 0 := by
  rw [← Nat.cast_add, wrapInt_natCast (by omega), if_neg (by omega)]
  omega

/-- A message without a byte at the place is read all the same, so that the analysis fails. -/
theorem readMessage_fails {endIndex : ℤ} (hi : 3 * i ≤ 2 ^ 31) (hshort : msg.bytes.length ≤ i)
    (hneg : wrapInt ((3 * i : ℕ) + endIndex) < 0) :
    readMessage (3 * i : ℕ) endIndex column (msg.text sep) = .error .stringIndexOutOfBounds := by
  have hlong : wrapInt ((3 * i : ℕ) + endIndex) < (msg.text sep).message.length :=
    hneg.trans_le (Int.natCast_nonneg _)
  have hend : ¬ (0 ≤ ((3 * i : ℕ) : ℤ) ∧ ((3 * i : ℕ) : ℤ) ≤ wrapInt ((3 * i : ℕ) + 2) ∧
      wrapInt ((3 * i : ℕ) + 2) ≤ (msg.text sep).message.length) := by
    rw [length_text]
    rintro ⟨-, hbegin, hend⟩
    rcases lt_or_ge (3 * i + 2) (2 ^ 31) with hlt | hge
    · rw [wrapInt_eq ⟨by omega, by omega⟩] at hend
      omega
    · have hlimit : wrapInt ((3 * i : ℕ) + 2) < 2 ^ 31 := (isInt_wrapInt _).2
      have hcast : ((3 * i : ℕ) : ℤ) + 2 = (3 * i + 2 : ℕ) := by rw [Nat.cast_add, Nat.cast_ofNat]
      rw [hcast, wrapInt_natCast (by omega), if_neg (by omega)] at hbegin
      omega
  rw [readMessage, if_pos hlong, substring, if_neg hend]
  rfl

/-- A loop over the messages with one that fails. -/
theorem readMessages_fails {endIndex : ℤ} (hi : 3 * i ≤ 2 ^ 31)
    (hneg : wrapInt ((3 * i : ℕ) + endIndex) < 0) (hshort : ∃ msg ∈ msgs, msg.bytes.length ≤ i)
    (column : Column) :
    ∃ x, (msgs.map (ByteMessage.text sep)).foldlM (readMessage (3 * i : ℕ) endIndex) column = .error x := by
  induction msgs generalizing column with
  | nil => simp at hshort
  | cons msg msgs ih =>
    rw [List.map_cons, List.foldlM_cons]
    by_cases hmsg : msg.bytes.length ≤ i
    · rw [readMessage_fails hi hmsg hneg]
      exact ⟨_, rfl⟩
    · have hb : msg.bytes[i]? = some msg.bytes[i] := List.getElem?_eq_getElem (not_le.mp hmsg)
      rw [bind_ok (readMessage_ok hb (hneg.trans_le (Int.natCast_nonneg _)))]
      exact ih (((List.exists_mem_cons_iff ..).mp hshort).resolve_left hmsg) _

/-- While all messages go on, there are values. -/
theorem readMessages_goes {endIndex : ℤ} (hneg : wrapInt ((3 * i : ℕ) + endIndex) < 0)
    (hlong : ∀ msg ∈ msgs, i < msg.bytes.length) (column : Column) :
    ∃ column', (msgs.map (ByteMessage.text sep)).foldlM (readMessage (3 * i : ℕ) endIndex) column =
      .ok column' ∧ (msgs ≠ [] ∨ column.bytes ≠ [] → column'.bytes ≠ []) := by
  induction msgs generalizing column with
  | nil => exact ⟨column, rfl, fun h => h.resolve_left fun hne => hne rfl⟩
  | cons msg msgs ih =>
    obtain ⟨hmsg, hrest⟩ := List.forall_mem_cons.mp hlong
    have hb : msg.bytes[i]? = some msg.bytes[i] := List.getElem?_eq_getElem hmsg
    rw [List.map_cons, List.foldlM_cons,
      bind_ok (readMessage_ok hb (hneg.trans_le (Int.natCast_nonneg _)))]
    obtain ⟨column', hread, hsome⟩ := ih hrest _
    exact ⟨column', hread, fun _ => hsome (Or.inr (List.ne_nil_of_mem (mem_addString.mpr (Or.inr rfl))))⟩

/-- The loop fails at the end of a shortest message, or before. -/
theorem analyzeLoop_fails (settings : TextOutputSettings) (hash : HashOrder) (hd : 3 * d ≤ 2 ^ 31)
    (hmsg : msg ∈ msgs) (rounds : ℕ) (returnStr : JavaString) (hi : 3 * i ≤ 2 ^ 31)
    (hsum : 2 ^ 31 ≤ 3 * (i + d)) (hrounds : msg.bytes.length < i + rounds) (hpos : 0 < rounds) :
    ∃ x, analyzeLoop settings hash (msgs.map (ByteMessage.text sep)) (3 * d : ℕ) rounds (3 * i : ℕ)
      returnStr =
      .error x := by
  induction rounds generalizing i returnStr with
  | zero => exact absurd hpos (lt_irrefl 0)
  | succ rounds ih =>
    have hneg := wrapInt_sum_neg hi hd hsum
    rw [analyzeLoop]
    by_cases hlong : ∀ msg ∈ msgs, i < msg.bytes.length
    · obtain ⟨column, hread, hsome⟩ := readMessages_goes hneg hlong ⟨[], 0, false⟩
      have hbytes : ¬ column.bytes.isEmpty = true := by
        rw [List.isEmpty_iff]
        exact hsome (Or.inl (List.ne_nil_of_mem hmsg))
      rw [bind_ok hread, if_neg hbytes]
      cases htext : columnText settings hash column with
      | error x => exact ⟨x, rfl⟩
      | ok text =>
        have hgoes := hlong msg hmsg
        have hfits := msg.fits
        have hplace : wrapInt ((3 * i : ℕ) + 3) = (3 * (i + 1) : ℕ) := by
          rw [Nat.mul_succ, Nat.cast_add, Nat.cast_ofNat]
          exact wrapInt_eq ⟨by omega, by omega⟩
        obtain ⟨x, hx⟩ := ih ((if returnStr.length > 0 then returnStr ++ [' '] else returnStr) ++ text)
          (by omega : 3 * (i + 1) ≤ 2 ^ 31) (by omega) (by omega) (by omega)
        refine ⟨x, ?_⟩
        rw [← hx, ← hplace]
        rfl
    · obtain ⟨x, hx⟩ : ∃ x, (msgs.map (ByteMessage.text sep)).foldlM (readMessage (3 * i : ℕ) (3 * d : ℕ))
          ⟨[], 0, false⟩ = .error x := readMessages_fails hi hneg (by simpa using hlong) _
      rw [hx]
      exact ⟨x, rfl⟩

/-- With too many constant bytes the analysis of some messages fails. -/
theorem analyzeMessages_fails (settings : TextOutputSettings) (hash : HashOrder) (sep : Char)
    (hne : msgs ≠ []) (hc : 3 * c ≤ 2 ^ 31) (hd : 3 * d ≤ 2 ^ 31) (hsum : 2 ^ 31 ≤ 3 * (c + d)) :
    ∃ x, analyzeMessages settings hash (msgs.map (ByteMessage.text sep)) (3 * c - 1 : ℕ) (3 * d - 1 : ℕ) =
      .error x := by
  obtain ⟨msg, hmsg⟩ := List.exists_mem_of_ne_nil msgs hne
  rw [analyzeMessages_loop settings hash _ hc hd]
  have hsumLe : msg.bytes.length ≤
      ((msgs.map (ByteMessage.text sep)).map fun msg => msg.message.length).sum := by
    have hle := List.le_sum_of_mem (List.mem_map_of_mem (f := fun msg : OutputMessage => msg.message.length)
      (List.mem_map_of_mem (f := ByteMessage.text sep) hmsg))
    rw [length_text] at hle
    omega
  exact analyzeLoop_fails settings hash hd hmsg _ [] hc hsum (by omega) (Nat.succ_pos _)

/-- The analysis has a text for every column between. -/
def Completes (settings : TextOutputSettings) (c d : ℕ) (msgs : List ByteMessage) : Prop :=
  (msgs = [] ∨ 3 * (c + d) < 2 ^ 31) ∧ ∀ column ∈ columnsAt c d msgs, Divisible settings column

instance (settings : TextOutputSettings) (c d : ℕ) (msgs : List ByteMessage) :
    Decidable (Completes settings c d msgs) :=
  inferInstanceAs (Decidable (_ ∧ _))

/-- The texts of the columns between are written one after the other. -/
theorem analyzeMessages_ok (hash : HashOrder) (sep : Char) (hc : 3 * c ≤ 2 ^ 31) (hd : 3 * d ≤ 2 ^ 31)
    (h : Completes settings c d msgs) :
    analyzeMessages settings hash (msgs.map (ByteMessage.text sep)) (3 * c - 1 : ℕ) (3 * d - 1 : ℕ) =
      .ok (((columnsAt c d msgs).map (valueText settings hash)).foldl appendColumn []) := by
  rcases h.1 with rfl | hsum
  · rw [analyzeMessages_loop settings hash _ hc hd, columnsAt_eq_nil (Nat.zero_le _)]
    rfl
  · rw [analyzeMessages_columns settings hash sep hsum, bind_ok (columnTexts_ok h.2)]

/-- The analysis ends with an exception unless there is a text for every column. -/
theorem completes_of_analyzeMessages {text : JavaString} (hc : 3 * c ≤ 2 ^ 31) (hd : 3 * d ≤ 2 ^ 31)
    (h : analyzeMessages settings hash (msgs.map (ByteMessage.text sep)) (3 * c - 1 : ℕ) (3 * d - 1 : ℕ) =
      .ok text) :
    Completes settings c d msgs := by
  by_cases hnil : msgs = []
  · refine ⟨Or.inl hnil, ?_⟩
    rw [hnil, columnsAt_eq_nil (Nat.zero_le _)]
    exact List.forall_mem_nil _
  · have hsum : 3 * (c + d) < 2 ^ 31 := by
      by_contra hlarge
      obtain ⟨x, hx⟩ := analyzeMessages_fails settings hash sep hnil hc hd (not_lt.mp hlarge)
      cases hx.symm.trans h
    rw [analyzeMessages_columns settings hash sep hsum] at h
    obtain ⟨texts, htexts, -⟩ := of_bind_ok h
    exact ⟨Or.inr hsum, divisible_of_columnTexts htexts⟩

/-- With the default settings no text is empty. -/
theorem analyzeMessages_middle (hash : HashOrder) (sep : Char) (hc : 3 * c ≤ 2 ^ 31) (hd : 3 * d ≤ 2 ^ 31)
    (h : Completes defaultTextOutputSettings c d msgs) :
    analyzeMessages defaultTextOutputSettings hash (msgs.map (ByteMessage.text sep)) (3 * c - 1 : ℕ)
        (3 * d - 1 : ℕ) =
      .ok (joined ' ' (middle hash c d msgs)) := by
  have hmiddle : (columnsAt c d msgs).map (valueText defaultTextOutputSettings hash) =
      middle hash c d msgs := by
    rw [columnsAt, List.map_map]
    rfl
  have htexts : ∀ w ∈ [] ++ middle hash c d msgs, w ≠ [] := by
    intro w hw
    rw [List.nil_append, middle, List.mem_map] at hw
    obtain ⟨i, hi, rfl⟩ := hw
    have hvalues : valuesAt d i msgs ≠ [] := by
      rw [List.mem_range'_1] at hi
      exact fun hnil => absurd (valuesAt_eq_nil_iff.mp hnil) (by omega)
    exact (isColumn_textAt hash hvalues).1
  rw [analyzeMessages_ok hash sep hc hd h, hmiddle]
  exact congrArg Except.ok (foldl_appendColumn (middle hash c d msgs) [] htexts)

end ApduPlay.AnalyzedColumns
