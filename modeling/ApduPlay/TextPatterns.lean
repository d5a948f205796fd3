import Mathlib.Order.WellFounded
import ApduPlay.Library.ColumnPatterns
import ApduPlay.AnalyzedColumns
import ApduPlay.TrimmedWords

/-!
# Reading the patterns

The columns of a printed pattern are separated by semicolons and its values by
commas. A value stands for its byte, the random value for any byte, and a
column with the empty value may be absent. The pattern of some messages
describes them all if they are equally long. Otherwise it does so exactly if no
message is shorter than the constant bytes at both ends, and the empty value is
listed wherever a message ends.
-/

namespace ApduPlay.TextPatterns

open ColumnPatterns CommonPrefix JoinedWords LogParser OutputTrees TextOutput ConstantBytes TextColumns
  AnalyzedColumns TrimmedWords WrappedText
open PacketGraph (HashOrder anyOrder hexByte hexByte_injective)

/-- The columns of a pattern. -/
def columns (text : JavaString) : List JavaString := if text = [] then [] else text.splitOn ';'

/-- A column stands for a byte. -/
def Accepts (column : JavaString) (b : UInt8) : Prop := column = ['x'] ∨ hexByte b ∈ column.splitOn ','

/-- A column may be absent. -/
def MayBeAbsent (column : JavaString) : Prop := ['-'] ∈ column.splitOn ','

instance (column : JavaString) : Decidable (MayBeAbsent column) :=
  inferInstanceAs (Decidable (['-'] ∈ column.splitOn ','))

/-- The two patterns in a line, each up to the brace that closes it. -/
def HasPatterns (header line transmitted received : JavaString) : Prop :=
  line = header ++ ":\x7b".toList ++ transmitted ++ "\x7d\x7b".toList ++ received ++ "\x7d".toList ∧
    '}' ∉ transmitted ∧ '}' ∉ received

/-- A pattern describes all messages. -/
def DescribesAll (text : JavaString) (msgs : List ByteMessage) : Prop :=
  ∀ msg ∈ msgs, Describes Accepts MayBeAbsent (columns text) msg.bytes

/-- The empty byte is listed wherever a message ends but not all of them. -/
def EmptyListed (d : ℕ) (msgs : List ByteMessage) : Prop :=
  ∀ i, Ends d i msgs → valuesAt d i msgs ≠ [] → ListsEmpty d i msgs

/-- All messages are equally long, or none is shorter than the constant bytes at
both ends and the empty byte is listed wherever one of them ends but not all. -/
def Describable (settings : Settings) (msgs : List ByteMessage) : Prop :=
  (∀ msg ∈ msgs, ∀ msg' ∈ msgs, msg.bytes.length = msg'.bytes.length) ∨
    (∀ msg ∈ msgs, prefixLength settings msgs + suffixLength settings msgs ≤ msg.bytes.length) ∧
      EmptyListed (suffixLength settings msgs) msgs

/-- The analysis of the columns between the constant bytes completes. -/
def Prints (settings : Settings) (msgs : List ByteMessage) : Prop :=
  Completes defaultTextOutputSettings (prefixLength settings msgs) (suffixLength settings msgs) msgs

instance (settings : Settings) (msgs : List ByteMessage) : Decidable (Prints settings msgs) :=
  inferInstanceAs (Decidable (Completes _ _ _ _))

variable {words front back : List JavaString} {msg first : ByteMessage} {msgs : List ByteMessage}
  {settings : Settings} {hash : HashOrder} {c d i : ℕ} {b : UInt8} {sep : Char}

/-- Only the places up to the end of a longest message matter. -/
theorem emptyListed_iff : EmptyListed d msgs ↔
    ∀ i < longest msgs, Ends d i msgs → valuesAt d i msgs ≠ [] → ListsEmpty d i msgs := by
  refine ⟨fun h i _ => h i, fun h i hends hvalues => h i ?_ hends hvalues⟩
  have hlongest : i + d < longest msgs := not_le.mp (mt valuesAt_eq_nil_iff.mpr hvalues)
  omega

instance (d i : ℕ) (msgs : List ByteMessage) : Decidable (ListsEmpty d i msgs) :=
  inferInstanceAs (Decidable (_ ∧ _))

instance (d : ℕ) (msgs : List ByteMessage) : Decidable (EmptyListed d msgs) :=
  decidable_of_iff _ emptyListed_iff.symm

instance (settings : Settings) (msgs : List ByteMessage) : Decidable (Describable settings msgs) :=
  inferInstanceAs (Decidable (_ ∨ _ ∧ _))

theorem isWord_of_isColumn (hwords : ∀ w ∈ words, IsColumn w) : ∀ w ∈ words, IsWord w := fun w hw =>
  ⟨(hwords w hw).1, fun c hc => ((hwords w hw).2 c hc).1⟩

/-- A text of columns is trimmed already. -/
theorem trim_joined (hwords : ∀ w ∈ words, IsColumn w) : trim (joined ' ' words) = joined ' ' words := by
  by_cases hnil : words = []
  · rw [hnil]
    rfl
  · have htrim := trim_words (List.forall_mem_nil _) (isWord_of_isColumn hwords) hnil (List.forall_mem_nil _)
    rwa [List.nil_append, List.append_nil] at htrim

/-- Blanks around the columns are trimmed as well. -/
theorem trim_blanks (hfront : ∀ w ∈ front, IsColumn w) (hwords : ∀ w ∈ words, IsColumn w) (hne : words ≠ [])
    (hback : ∀ w ∈ back, IsColumn w) :
    trim (joined ' ' front ++ [' '] ++ joined ' ' words ++ [' '] ++ joined ' ' back) =
      joined ' ' (front ++ words ++ back) := by
  have hall : ∀ w ∈ front ++ words ++ back, IsWord w := isWord_of_isColumn
    (List.forall_mem_append.mpr ⟨List.forall_mem_append.mpr ⟨hfront, hwords⟩, hback⟩)
  have hblank (only : Bool) : ∀ c ∈ (if only then [' '] else []), c ≤ ' ' := by
    cases only
    · exact List.forall_mem_nil _
    · exact List.forall_mem_singleton.mpr (by decide)
  have hsome : front ++ words ++ back ≠ [] := by simp [hne]
  have hfirst : joined ' ' front ++ [' '] ++ joined ' ' words =
      (if front.isEmpty then [' '] else []) ++ joined ' ' (front ++ words) := by
    cases front with
    | nil => rfl
    | cons w front =>
      rw [joined_append (List.cons_ne_nil _ _) hne, List.append_assoc]
      rfl
  have hlast : joined ' ' (front ++ words) ++ [' '] ++ joined ' ' back =
      joined ' ' (front ++ words ++ back) ++ if back.isEmpty then [' '] else [] := by
    cases back with
    | nil => simp [joined]
    | cons w back =>
      rw [joined_append (List.append_ne_nil_of_right_ne_nil _ hne) (List.cons_ne_nil _ _), List.append_assoc]
      exact (List.append_nil _).symm
  rw [hfirst, List.append_assoc, List.append_assoc, ← List.append_assoc (joined ' ' (front ++ words)), hlast,
    ← List.append_assoc, trim_words (hblank _) hall hsome (hblank _)]

theorem le_blank_of_isWhiteSpace {c : Char} (hc : isWhiteSpace c = true) : c ≤ ' ' := by
  simp only [isWhiteSpace, Bool.or_eq_true, beq_iff_eq] at hc
  rcases hc with ((((rfl | rfl) | rfl) | rfl) | rfl) | rfl <;> decide

/-- The columns are split at the blanks between them. -/
theorem splitWhiteSpace_joined (hwords : ∀ w ∈ words, IsColumn w) (hne : words ≠ []) :
    splitWhiteSpace (joined ' ' words) = words := by
  have hno : ∀ w ∈ words, ∀ c ∈ w, isWhiteSpace c = false := fun w hw c hc =>
    Bool.eq_false_iff.mpr fun h => ((hwords w hw).2 c hc).1 (le_blank_of_isWhiteSpace h)
  have hsplit : (joined ' ' words).splitOnP isWhiteSpace = words := by
    clear hwords
    induction words with
    | nil => exact absurd rfl hne
    | cons w words ih =>
      obtain ⟨hw, hrest⟩ := List.forall_mem_cons.mp hno
      by_cases hnil : words = []
      · rw [hnil, joined_singleton, List.splitOnP_eq_singleton hw]
      · rw [joined, List.intercalate_cons_of_ne_nil hnil, List.append_assoc, List.singleton_append,
          List.splitOnP_append_cons_of_forall_mem hw _ (by decide), ih hnil hrest]
  rw [splitWhiteSpace, hsplit]
  split
  · obtain ⟨w, rest, rfl⟩ := List.exists_cons_of_ne_nil hne
    have hfull : ∀ v ∈ w :: rest, ¬ v.isEmpty = true := fun v hv => by simpa using (hwords v hv).1
    have hkeep : (rest.filter fun part => !part.isEmpty) = rest :=
      List.filter_eq_self.mpr fun v hv => by simpa using hfull v (List.mem_cons_of_mem _ hv)
    dsimp only
    rw [hkeep, List.rdropWhile_eq_self_iff]
    exact fun hl => hfull _ (List.getLast_mem hl)
  · rename_i hnone
    have htext : ∀ c ∈ joined ' ' words, isWhiteSpace c = false := fun c hc =>
      Bool.eq_false_iff.mpr fun h => hnone (List.any_eq_true.mpr ⟨c, hc, h⟩)
    exact (List.splitOnP_eq_singleton htext).symm.trans hsplit

/-- The columns of a text are joined with semicolons. -/
theorem splitAndJoinString_eq {str : JavaString} (hwords : ∀ w ∈ words, IsColumn w)
    (htrim : trim str = joined ' ' words) :
    splitAndJoinString defaultTextOutputSettings str = joined ';' words := by
  have hsplit : splitAndJoinString defaultTextOutputSettings str =
      joined ';' (splitWhiteSpace (trim str)) := rfl
  rw [hsplit, htrim]
  by_cases hnil : words = []
  · rw [hnil]
    rfl
  · rw [splitWhiteSpace_joined hwords hnil]

/-- They are read back. -/
theorem columns_joined (hwords : ∀ w ∈ words, IsColumn w) : columns (joined ';' words) = words := by
  by_cases hnil : words = []
  · rw [hnil]
    rfl
  · obtain ⟨c, text, htext, -⟩ := exists_cons_joined ';' (isWord_of_isColumn hwords) hnil
    have hne : joined ';' words ≠ [] := htext ▸ List.cons_ne_nil c text
    rw [columns, if_neg hne]
    exact List.splitOn_intercalate ';' (fun w hw hc => ((hwords w hw).2 _ hc).2.1 rfl) hnil

/-- The constant bytes at both ends and the columns between. -/
def allColumns (settings : Settings) (hash : HashOrder) (msgs : List ByteMessage) (first : ByteMessage) :
    List JavaString :=
  (first.bytes.take (prefixLength settings msgs)).map hexByte ++
    middle hash (prefixLength settings msgs) (suffixLength settings msgs) msgs ++
    (first.bytes.drop (first.bytes.length - suffixLength settings msgs)).map hexByte

/-- The columns that are printed for some messages: only the first of them if
there is nothing between the constant bytes. -/
def printedColumns (settings : Settings) (hash : HashOrder) (msgs : List ByteMessage)
    (first : ByteMessage) :
    List JavaString :=
  if longest msgs ≤ prefixLength settings msgs + suffixLength settings msgs then first.bytes.map hexByte
  else allColumns settings hash msgs first

theorem isColumn_map (bytes : List UInt8) : ∀ w ∈ bytes.map hexByte, IsColumn w := by
  intro w hw
  obtain ⟨b, -, rfl⟩ := List.mem_map.mp hw
  exact isColumn_hexByte b

/-- A column between has values. -/
theorem valuesAt_of_middle (hi : i ∈ List.range' c (longest msgs - d - c)) : valuesAt d i msgs ≠ [] := by
  have hbounds := List.mem_range'_1.mp hi
  exact fun hnil => absurd (valuesAt_eq_nil_iff.mp hnil) (by omega)

theorem isColumn_middle (hash : HashOrder) (c d : ℕ) (msgs : List ByteMessage) :
    ∀ w ∈ middle hash c d msgs, IsColumn w := by
  intro w hw
  obtain ⟨i, hi, rfl⟩ := List.mem_map.mp hw
  exact isColumn_textAt hash (valuesAt_of_middle hi)

theorem isColumn_printed : ∀ w ∈ printedColumns settings hash msgs first, IsColumn w := by
  rw [printedColumns]
  split
  · exact isColumn_map _
  · exact List.forall_mem_append.mpr ⟨List.forall_mem_append.mpr ⟨isColumn_map _, isColumn_middle hash _ _ _⟩,
      isColumn_map _⟩

/-- Nothing in a pattern closes it. -/
theorem closes_printed : '}' ∉ joined ';' (printedColumns settings hash msgs first) := by
  have hall : ∀ c ∈ joined ';' (printedColumns settings hash msgs first), c ≠ '}' :=
    forall_mem_joined (by decide) fun w hw c hc => ((isColumn_printed w hw).2 c hc).2.2
  exact fun hclose => hall _ hclose rfl

/-- The first bytes of a message are cut out of its text. -/
theorem substring_front (hc : c ≤ msg.bytes.length) :
    substring (msg.text sep).message (0 : ℕ) (3 * c - 1 : ℕ) = .ok
      (joined sep ((msg.bytes.take c).map hexByte)) := by
  rw [substring_ok (Nat.zero_le _) (by rw [length_text]; omega), message_text, List.drop_zero, Nat.sub_zero,
    take_joined (twoDigits_map hexByte (fun _ => rfl) msg.bytes), List.map_take]

/-- So are the last ones. -/
theorem substring_back (hd : d ≤ msg.bytes.length) :
    substring (msg.text sep).message ((msg.text sep).message.length - (3 * d - 1 : ℕ))
      (msg.text sep).message.length =
      .ok (joined sep ((msg.bytes.drop (msg.bytes.length - d)).map hexByte)) := by
  have hle : 3 * d - 1 ≤ (msg.text sep).message.length := by
    rw [length_text]
    omega
  rw [← Int.natCast_sub hle, substring_ok (Nat.sub_le _ _) le_rfl]
  refine congrArg Except.ok ?_
  rw [List.take_of_length_le (by rw [List.length_drop])]
  by_cases hzero : d = 0
  · rw [hzero, List.drop_eq_nil_of_le (by omega), List.drop_eq_nil_of_le (by omega)]
    rfl
  · have hindex : (msg.text sep).message.length - (3 * d - 1) = 3 * (msg.bytes.length - d) := by
      rw [length_text]
      omega
    rw [hindex, message_text, drop_joined (twoDigits_map hexByte (fun _ => rfl) msg.bytes), List.map_drop]

/-- The pattern of some messages has the printed columns. -/
theorem dataStream_ok (hash : HashOrder) (hfirst : first ∈ msgs) (hprints : Prints settings msgs) :
    dataStream defaultTextOutputSettings hash (msgs.map (ByteMessage.text ' ')) (first.text ' ').message
        (3 * prefixLength settings msgs - 1, 3 * suffixLength settings msgs - 1) =
      .ok (joined ';' (printedColumns settings hash msgs first)) := by
  obtain ⟨hstarts, hsuffix⟩ := constant_fits settings (List.ne_nil_of_mem hfirst)
  have hmid := analyzeMessages_middle hash ' ' hstarts hsuffix hprints
  have hcolumns := isColumn_middle hash (prefixLength settings msgs) (suffixLength settings msgs) msgs
  refine (bind_ok hmid _).trans ?_
  rw [printedColumns]
  by_cases hall : longest msgs ≤ prefixLength settings msgs + suffixLength settings msgs
  · have hnone : middle hash (prefixLength settings msgs) (suffixLength settings msgs) msgs = [] := by
      rw [middle, Nat.sub_sub, Nat.sub_eq_zero_of_le (by omega)]
      rfl
    have htrim : trim (first.text ' ').message = joined ' ' (first.bytes.map hexByte) := by
      rw [message_text, trim_joined (isColumn_map _)]
    have hzero : (joined ' ' ([] : List JavaString)).length = 0 := rfl
    rw [hnone, if_pos hall, if_pos hzero, splitAndJoinString_eq (isColumn_map _) htrim]
    exact congrArg Except.ok (List.append_nil _)
  · have hsome : middle hash (prefixLength settings msgs) (suffixLength settings msgs) msgs ≠ [] := by
      rw [middle, ne_eq, List.map_eq_nil_iff, List.range'_eq_nil_iff]
      omega
    obtain ⟨ch, text, htext, -⟩ := exists_cons_joined ' ' (isWord_of_isColumn hcolumns) hsome
    have htrim := trim_blanks (isColumn_map (first.bytes.take (prefixLength settings msgs))) hcolumns hsome
      (isColumn_map (first.bytes.drop (first.bytes.length - suffixLength settings msgs)))
    have hlong : ¬ (joined ' '
        (middle hash (prefixLength settings msgs) (suffixLength settings msgs) msgs)).length =
        0 := by
      rw [htext]
      exact Nat.succ_ne_zero _
    rw [if_neg hall, if_neg hlong]
    refine (bind_ok (substring_front (prefixLength_le settings hfirst)) _).trans
      ((bind_ok (substring_back (suffixLength_le settings hfirst)) _).trans ?_)
    rw [trim_joined (isColumn_map _), trim_joined hcolumns, trim_joined (isColumn_map _),
      splitAndJoinString_eq
        (List.forall_mem_append.mpr
          ⟨List.forall_mem_append.mpr ⟨isColumn_map _, hcolumns⟩, isColumn_map _⟩) htrim]
    exact congrArg Except.ok (List.append_nil _)

/-- The pattern ends with an exception if the analysis does. -/
theorem prints_of_dataStream {text : JavaString} (hfirst : first ∈ msgs)
    (h : dataStream defaultTextOutputSettings hash (msgs.map (ByteMessage.text ' ')) (first.text ' ').message
        (3 * prefixLength settings msgs - 1, 3 * suffixLength settings msgs - 1) = .ok text) :
    Prints settings msgs := by
  obtain ⟨hstarts, hsuffix⟩ := constant_fits settings (List.ne_nil_of_mem hfirst)
  obtain ⟨mid, hmid, -⟩ := of_bind_ok h
  exact completes_of_analyzeMessages hstarts hsuffix hmid

theorem splitOn_hexByte (b : UInt8) : (hexByte b).splitOn ',' = [hexByte b] :=
  List.splitOn_eq_singleton fun hc => (mem_hexByte hc).2 rfl

/-- A single value stands for its byte and for no other. -/
theorem accepts_hexByte {b' : UInt8} : Accepts (hexByte b) b' ↔ b' = b := by
  have hmarker : hexByte b ≠ ['x'] := fun h => Nat.succ_ne_self 1 (congrArg List.length h)
  rw [Accepts, or_iff_right hmarker, splitOn_hexByte, List.mem_singleton, hexByte_injective.eq_iff]

theorem not_mayBeAbsent_hexByte (b : UInt8) : ¬ MayBeAbsent (hexByte b) := by
  rw [MayBeAbsent, splitOn_hexByte, List.mem_singleton]
  exact (hexByte_ne_singleton b '-').symm

/-- The values of a column that is not random. -/
theorem splitOn_textAt (hash : HashOrder) (hvalues : valuesAt d i msgs ≠ [])
    (hlisted : ¬ IsRandom defaultTextOutputSettings (columnAt d i msgs)) :
    (textAt hash d i msgs).splitOn ',' =
      hash.order (shownStrings defaultTextOutputSettings (columnAt d i msgs)) := by
  have hperm := hash.perm (shownStrings defaultTextOutputSettings (columnAt d i msgs))
  rw [textAt_eq, if_neg hlisted]
  exact List.splitOn_intercalate ',' (fun s hs => (of_mem_shownStrings (hperm.subset hs)).1) fun hnil =>
    shownStrings_ne_nil hvalues (List.perm_nil.mp (hnil ▸ hperm.symm))

/-- A column stands for the bytes that were read. -/
theorem accepts_textAt (hash : HashOrder) (hb : b ∈ valuesAt d i msgs) :
    Accepts (textAt hash d i msgs) b := by
  by_cases hrandom : IsRandom defaultTextOutputSettings (columnAt d i msgs)
  · exact Or.inl (by rw [textAt_eq, if_pos hrandom])
  · refine Or.inr ?_
    rw [splitOn_textAt hash (List.ne_nil_of_mem hb) hrandom, (hash.perm _).mem_iff]
    exact mem_shownStrings.mpr (Or.inl ⟨b, hb, rfl⟩)

/-- It may be absent exactly if a message ends before it and the empty byte is listed. -/
theorem mayBeAbsent_textAt (hash : HashOrder) (hvalues : valuesAt d i msgs ≠ []) :
    MayBeAbsent (textAt hash d i msgs) ↔ Ends d i msgs ∧ ListsEmpty d i msgs := by
  by_cases hrandom : IsRandom defaultTextOutputSettings (columnAt d i msgs)
  · have htext : textAt hash d i msgs = ['x'] := by rw [textAt_eq, if_pos hrandom]
    rw [htext]
    exact iff_of_false (by decide) fun h => (isRandom_columnAt h.1 hvalues).mp hrandom h.2
  · rw [MayBeAbsent, splitOn_textAt hash hvalues hrandom, (hash.perm _).mem_iff, mem_shownStrings]
    constructor
    · rintro (⟨b, -, hb⟩ | ⟨hends, -⟩)
      · exact absurd hb (hexByte_ne_singleton b '-')
      · exact ⟨hends.1, not_not.mp (mt (isRandom_columnAt hends.1 hvalues).mpr hrandom)⟩
    · exact fun h => Or.inr ⟨⟨h.1, rfl⟩, rfl⟩

/-- The values of some bytes describe them and nothing else. -/
theorem describes_map {bytes bytes' : List UInt8} :
    Describes Accepts MayBeAbsent (bytes.map hexByte) bytes' ↔ bytes' = bytes := by
  rw [describes_iff_forall₂ fun w hw => ?_]
  · rw [List.forall₂_map_left_iff, ← List.forall₂_eq_eq_eq]
    simp only [accepts_hexByte]
    exact ⟨List.Forall₂.flip, List.Forall₂.flip⟩
  · obtain ⟨b, -, rfl⟩ := List.mem_map.mp hw
    exact not_mayBeAbsent_hexByte b

/-- The columns between, before and behind the end of a message. -/
theorem middle_split (hash : HashOrder) (hlong : c + d ≤ msg.bytes.length) (hmsg : msg ∈ msgs) :
    middle hash c d msgs =
      ((List.range' c (msg.bytes.length - d - c)).map fun i => textAt hash d i msgs) ++
        (List.range' (msg.bytes.length - d) (longest msgs - msg.bytes.length)).map fun i =>
          textAt hash d i msgs := by
  have hlongest : msg.bytes.length ≤ longest msgs := not_lt.mp fun hlt =>
    lt_irrefl _ (lt_longest_iff.mpr ⟨msg, hmsg, hlt⟩)
  have hstart : msg.bytes.length - d = c + (msg.bytes.length - d - c) := by omega
  have hcount : longest msgs - d - c =
      msg.bytes.length - d - c + (longest msgs - msg.bytes.length) := by omega
  rw [← List.map_append, middle, hcount, ← List.range'_append_1, ← hstart]

/-- The columns before the end of a message stand for its bytes. -/
theorem describes_before (hash : HashOrder) (hlong : c + d ≤ msg.bytes.length) (hmsg : msg ∈ msgs) :
    List.Forall₂ Accepts ((List.range' c (msg.bytes.length - d - c)).map fun i => textAt hash d i msgs)
      ((msg.bytes.drop c).take (msg.bytes.length - d - c)) := by
  refine List.forall₂_iff_get.mpr ⟨?_, fun k hk _ => ?_⟩
  · rw [List.length_map, List.length_range', List.length_take, List.length_drop]
    omega
  · rw [List.length_map, List.length_range'] at hk
    simp only [List.get_eq_getElem, List.getElem_map, List.getElem_range', List.getElem_take,
      List.getElem_drop, Nat.one_mul]
    exact accepts_textAt hash (mem_valuesAt.mpr ⟨msg, hmsg, by omega, List.getElem?_eq_getElem (by omega)⟩)

/-- The bytes of a message between those that are constant. -/
theorem bytes_split (hlong : c + d ≤ msg.bytes.length) :
    msg.bytes = msg.bytes.take c ++ (msg.bytes.drop c).take (msg.bytes.length - d - c) ++
      msg.bytes.drop (msg.bytes.length - d) := by
  have hend : msg.bytes.drop (msg.bytes.length - d) = (msg.bytes.drop c).drop (msg.bytes.length - d - c) := by
    rw [List.drop_drop]
    congr 1
    omega
  rw [hend, List.append_assoc, List.take_append_drop, List.take_append_drop]

/-- A message is described if the columns behind its end may be absent. -/
theorem describes_of_listed (hash : HashOrder) (hfirst : first ∈ msgs) (hmsg : msg ∈ msgs)
    (hlong : prefixLength settings msgs + suffixLength settings msgs ≤ msg.bytes.length)
    (hlisted : EmptyListed (suffixLength settings msgs) msgs) :
    Describes Accepts MayBeAbsent (allColumns settings hash msgs first) msg.bytes := by
  have habsent : ∀ column ∈ (List.range' (msg.bytes.length - suffixLength settings msgs)
      (longest msgs - msg.bytes.length)).map fun i => textAt hash (suffixLength settings msgs) i msgs,
      MayBeAbsent column := by
    intro column hcolumn
    obtain ⟨i, hi, rfl⟩ := List.mem_map.mp hcolumn
    have hbounds := List.mem_range'_1.mp hi
    have hends : Ends (suffixLength settings msgs) i msgs := ⟨msg, hmsg, by omega⟩
    have hvalues : valuesAt (suffixLength settings msgs) i msgs ≠ [] := fun hnil =>
      absurd (valuesAt_eq_nil_iff.mp hnil) (by omega)
    exact (mayBeAbsent_textAt hash hvalues).mpr ⟨hends, hlisted i hends hvalues⟩
  have hbefore := (Describes.of_forall₂ (describes_before hash hlong hmsg)).append
    (Describes.of_optional habsent)
  rw [List.append_nil, ← middle_split hash hlong hmsg] at hbefore
  rw [bytes_split hlong]
  refine ((describes_map.mpr ?_).append hbefore).append (describes_map.mpr ?_)
  · exact take_prefixLength settings hmsg hfirst
  · exact drop_suffixLength settings hmsg hfirst

/-- If nothing is between the constant bytes, messages of one length are the same. -/
theorem bytes_eq_of_length (hfirst : first ∈ msgs) (hmsg : msg ∈ msgs)
    (hshort : first.bytes.length ≤ prefixLength settings msgs + suffixLength settings msgs)
    (hlen : msg.bytes.length = first.bytes.length) : msg.bytes = first.bytes := by
  have hstarts := take_prefixLength settings hmsg hfirst
  have hsuffix := drop_suffixLength settings hmsg hfirst
  have hdrop (bytes : List UInt8) : bytes.drop (prefixLength settings msgs) =
      (bytes.drop (first.bytes.length - suffixLength settings msgs)).drop
        (prefixLength settings msgs - (first.bytes.length - suffixLength settings msgs)) := by
    rw [List.drop_drop]
    congr 1
    omega
  rw [hlen] at hsuffix
  rw [← List.take_append_drop (prefixLength settings msgs) msg.bytes, hdrop, hstarts, hsuffix, ← hdrop,
    List.take_append_drop]

/-- The columns before the end of the shortest message cannot be absent. -/
theorem countP_before (hash : HashOrder) (hlong : c + d ≤ msg.bytes.length) (hmsg : msg ∈ msgs)
    (hshort : ∀ msg' ∈ msgs, msg.bytes.length ≤ msg'.bytes.length) :
    (((List.range' c (msg.bytes.length - d - c)).map fun i => textAt hash d i msgs).countP
      fun column => ¬ MayBeAbsent column) = msg.bytes.length - d - c := by
  rw [List.countP_eq_length.mpr, List.length_map, List.length_range']
  intro column hcolumn
  obtain ⟨i, hi, rfl⟩ := List.mem_map.mp hcolumn
  have hbounds := List.mem_range'_1.mp hi
  have hvalues : valuesAt d i msgs ≠ [] := fun hnil => by
    have hlongest := valuesAt_eq_nil_iff.mp hnil
    exact absurd (lt_longest_iff.mpr ⟨msg, hmsg, (by omega : i + d < msg.bytes.length)⟩) (not_lt.mpr hlongest)
  have hgoes : ¬ Ends d i msgs := by
    rintro ⟨msg', hmsg', hend⟩
    have hless := hshort msg' hmsg'
    omega
  exact decide_eq_true fun habsent => hgoes ((mayBeAbsent_textAt hash hvalues).mp habsent).1

/-- If there is a byte for every column that cannot be absent, also in a shortest
message, the empty byte is listed. Such a message takes all columns before its
end, so that none of those behind it is left. -/
theorem emptyListed_of_countP (hash : HashOrder) (hlong : ∀ msg ∈ msgs, c + d ≤ msg.bytes.length)
    (hcount : ∀ msg ∈ msgs,
      c + ((middle hash c d msgs).countP fun column => ¬ MayBeAbsent column) + d ≤ msg.bytes.length) :
    EmptyListed d msgs := by
  intro i hends hvalues
  obtain ⟨short, hmem, hend⟩ := hends
  obtain ⟨msg, hmsg, hshortest⟩ := (measure fun msg : ByteMessage => msg.bytes.length).wf.has_min
    {msg | msg ∈ msgs} ⟨short, hmem⟩
  have hshort : ∀ msg' ∈ msgs, msg.bytes.length ≤ msg'.bytes.length := fun msg' hmsg' =>
    not_lt.mp (hshortest msg' hmsg')
  have hle := hcount msg hmsg
  rw [middle_split hash (hlong msg hmsg) hmsg, List.countP_append,
    countP_before hash (hlong msg hmsg) hmsg hshort] at hle
  have hbytes := hlong msg hmsg
  have hnone := List.countP_eq_zero.mp (by omega : ((List.range' (msg.bytes.length - d)
    (longest msgs - msg.bytes.length)).map fun i => textAt hash d i msgs).countP
      (fun column => ¬ MayBeAbsent column) = 0)
  have hlongest : i + d < longest msgs := not_le.mp (mt valuesAt_eq_nil_iff.mpr hvalues)
  have hless := hshort short hmem
  have hcolumn := hnone (textAt hash d i msgs) (List.mem_map_of_mem (List.mem_range'_1.mpr (by omega)))
  exact ((mayBeAbsent_textAt hash hvalues).mp (by simpa using hcolumn)).2

/-- A pattern with columns between describes no message that is shorter than the
constant bytes, and describes all others only if the empty byte is listed. -/
theorem listed_of_describes (hash : HashOrder) (hfirst : first ∈ msgs)
    (hall : ∀ msg ∈ msgs, Describes Accepts MayBeAbsent (allColumns settings hash msgs first) msg.bytes) :
    (∀ msg ∈ msgs, prefixLength settings msgs + suffixLength settings msgs ≤ msg.bytes.length) ∧
      EmptyListed (suffixLength settings msgs) msgs := by
  have hconstant (bytes : List UInt8) :
      ((bytes.map hexByte).countP fun column => ¬ MayBeAbsent column) = bytes.length := by
    rw [List.countP_eq_length.mpr, List.length_map]
    intro column hcolumn
    obtain ⟨b, -, rfl⟩ := List.mem_map.mp hcolumn
    exact decide_eq_true (not_mayBeAbsent_hexByte b)
  have hcount : ∀ msg ∈ msgs, prefixLength settings msgs +
      ((middle hash (prefixLength settings msgs) (suffixLength settings msgs) msgs).countP
        fun column => ¬ MayBeAbsent column) + suffixLength settings msgs ≤ msg.bytes.length := by
    intro msg hmsg
    have hle := (hall msg hmsg).countP_le
    have hstarts := prefixLength_le settings hfirst
    have hsuffix := suffixLength_le settings hfirst
    rw [allColumns, List.countP_append, List.countP_append, hconstant, hconstant, List.length_take,
      List.length_drop] at hle
    omega
  have hlong : ∀ msg ∈ msgs, prefixLength settings msgs + suffixLength settings msgs ≤ msg.bytes.length := by
    intro msg hmsg
    have hle := hcount msg hmsg
    omega
  exact ⟨hlong, emptyListed_of_countP hash hlong hcount⟩

/-- The printed pattern describes all messages exactly under the condition. -/
theorem describesAll_iff (settings : Settings) (hash : HashOrder) (hfirst : first ∈ msgs) :
    DescribesAll (joined ';' (printedColumns settings hash msgs first)) msgs ↔ Describable settings msgs := by
  rw [DescribesAll, columns_joined isColumn_printed, printedColumns]
  by_cases hnone : longest msgs ≤ prefixLength settings msgs + suffixLength settings msgs
  · have hshort : ∀ msg ∈ msgs,
        msg.bytes.length ≤ prefixLength settings msgs + suffixLength settings msgs := fun msg hmsg =>
      not_lt.mp fun hlt => absurd hnone (not_le.mpr (lt_longest_iff.mpr ⟨msg, hmsg, hlt⟩))
    rw [if_pos hnone]
    constructor
    · intro hall
      refine Or.inl fun msg hmsg msg' hmsg' => ?_
      rw [describes_map.mp (hall msg hmsg), describes_map.mp (hall msg' hmsg')]
    · intro h msg hmsg
      have hlen : msg.bytes.length = first.bytes.length := by
        rcases h with hsame | ⟨hlong, -⟩
        · exact hsame msg hmsg first hfirst
        · exact le_antisymm ((hshort msg hmsg).trans (hlong first hfirst))
            ((hshort first hfirst).trans (hlong msg hmsg))
      exact describes_map.mpr (bytes_eq_of_length hfirst hmsg (hshort first hfirst) hlen)
  · rw [if_neg hnone]
    constructor
    · exact fun hall => Or.inr (listed_of_describes hash hfirst hall)
    · rintro (hsame | ⟨hlong, hlisted⟩) msg hmsg
      · obtain ⟨long, hmem, hlong⟩ := lt_longest_iff.mp (not_le.mp hnone)
        refine describes_of_listed hash hfirst hmsg (hsame msg hmsg long hmem ▸ hlong.le) ?_
        intro i hends hvalues
        obtain ⟨short, hshort, hend⟩ := hends
        refine absurd (valuesAt_eq_nil_iff.mpr (not_lt.mp fun hlt => ?_)) hvalues
        obtain ⟨other, hother, hgoes⟩ := lt_longest_iff.mp hlt
        have hlen := hsame short hshort other hother
        omega
      · exact describes_of_listed hash hfirst hmsg (hlong msg hmsg) hlisted

/-- The patterns of a line are unique. -/
theorem hasPatterns_unique {header line transmitted received transmitted' received' : JavaString}
    (h : HasPatterns header line transmitted received) (h' : HasPatterns header line transmitted' received') :
    transmitted = transmitted' ∧ received = received' := by
  have hfirst (pattern rest : JavaString) (hpattern : '}' ∉ pattern) :
      (pattern ++ "\x7d\x7b".toList ++ rest).takeWhile (· != '}') = pattern := by
    rw [List.append_assoc, List.takeWhile_append_of_pos fun c hc => by
      simpa using fun heq : c = '}' => hpattern (heq ▸ hc)]
    exact List.append_nil _
  obtain ⟨hline, hclose, -⟩ := h
  obtain ⟨hline', hclose', -⟩ := h'
  rw [hline] at hline'
  simp only [List.append_assoc, List.append_cancel_left_eq] at hline'
  simp only [← List.append_assoc] at hline'
  have hsent : transmitted = transmitted' := by
    rw [List.append_assoc, List.append_assoc (transmitted' ++ _)] at hline'
    rw [← hfirst transmitted _ hclose, hline', hfirst transmitted' _ hclose']
  refine ⟨hsent, ?_⟩
  rw [hsent] at hline'
  simpa using hline'

/-- A line is printed exactly if both analyses complete, with both patterns. -/
theorem prepareTextOutput_ok_iff (settings : Settings)
    (hdefault : settings.textOutputSettings = defaultTextOutputSettings) (hash : HashOrder)
    (header : JavaString) {packets : List ByteGroup} {sent answer : ByteMessage}
    (hsent : (transmittedBytes packets).head? = some sent)
    (hanswer : (receivedBytes packets).head? = some answer) {line : JavaString} :
    prepareTextOutput settings hash (byteTree ' ' header packets) = .ok line ↔
      (Prints settings (transmittedBytes packets) ∧ Prints settings (receivedBytes packets)) ∧
        header ++ ":\x7b".toList ++ joined ';'
          (printedColumns settings hash (transmittedBytes packets) sent) ++
          "\x7d\x7b".toList ++ joined ';' (printedColumns settings hash (receivedBytes packets) answer) ++
          "\x7d".toList = line := by
  have hsentMem := List.mem_of_head? hsent
  have hanswerMem := List.mem_of_head? hanswer
  have hsentNe := List.ne_nil_of_mem hsentMem
  have hanswerNe := List.ne_nil_of_mem hanswerMem
  have hfirst {msgs : List ByteMessage} {msg : ByteMessage} (hmsg : msgs.head? = some msg) :
      firstMessage (msgs.map (ByteMessage.text ' ')) = .ok (msg.text ' ').message := by
    obtain ⟨rest, rfl⟩ := List.head?_eq_some_iff.mp hmsg
    rfl
  rw [prepareTextOutput, transmittedMessages_byteTree, receivedMessages_byteTree,
    bind_ok (longestCommonPrefixes_ok settings ' ' hsentNe),
    bind_ok (longestCommonPrefixes_ok settings ' ' hanswerNe), bind_ok (hfirst hsent),
      bind_ok (hfirst hanswer),
    hdefault]
  constructor
  · intro h
    obtain ⟨transmitted, htransmitted, h⟩ := of_bind_ok h
    obtain ⟨received, hreceived, h⟩ := of_bind_ok h
    have hprintsSent := prints_of_dataStream hsentMem htransmitted
    have hprintsAnswer := prints_of_dataStream hanswerMem hreceived
    rw [dataStream_ok hash hsentMem hprintsSent, Except.ok.injEq] at htransmitted
    rw [dataStream_ok hash hanswerMem hprintsAnswer, Except.ok.injEq] at hreceived
    rw [htransmitted, hreceived]
    exact ⟨⟨hprintsSent, hprintsAnswer⟩, Except.ok.inj h⟩
  · rintro ⟨⟨hprintsSent, hprintsAnswer⟩, rfl⟩
    rw [bind_ok (dataStream_ok hash hsentMem hprintsSent),
      bind_ok (dataStream_ok hash hanswerMem hprintsAnswer)]
    rfl

/-- The settings that are used by default. -/
def defaultSettings : Settings := ⟨0, false, defaultTextOutputSettings⟩

/-- A message of two bytes that occurs twice and one of the first of them. -/
def describablePackets : List ByteGroup :=
  [⟨⟨[0x01, 0x02], 1, 2, by decide, by decide⟩, [⟨[0x90, 0x00], 2, 2, by decide, by decide⟩]⟩,
    ⟨⟨[0x01], 3, 1, by decide, by decide⟩, [⟨[0x6A, 0x82], 4, 1, by decide, by decide⟩]⟩]

/-- A byte, and the same byte twice: it is both the constant bytes at the
beginning and those at the end, so that nothing is between. -/
def repeatedPackets : List ByteGroup :=
  [⟨⟨[0xAA], 1, 1, by decide, by decide⟩, [⟨[0x90, 0x00], 2, 1, by decide, by decide⟩]⟩,
    ⟨⟨[0xAA, 0xAA], 3, 1, by decide, by decide⟩, [⟨[0x90, 0x00], 2, 1, by decide, by decide⟩]⟩]

end ApduPlay.TextPatterns
