import ApduPlay.WhiteSpaceTexts

/-!
# Separators that are not seen

The pattern of some messages does not depend on the separator between their bytes
if there is none in it: the messages have one byte at most, or the separator is
one character that is white space, or stands neither in the constant bytes nor in
a message that is printed as a whole. A separator of white space of any length is
not seen in a message that is printed as a whole either.
-/

namespace ApduPlay.HiddenSeparators

open JoinedWords LogParser OutputTrees TextOutput ConstantBytes TextColumns AnalyzedColumns TextPatterns
  WhiteSpaceTexts WrappedText
open PacketGraph (HashOrder hexByte hexBinaryString)

/-- The message, with some separator between the bytes. -/
def textWith (bytesSeparator : Option JavaString) (msg : ByteMessage) : OutputMessage :=
  ⟨hexBinaryString bytesSeparator msg.bytes, msg.identifier, msg.occurrences⟩

/-- The pattern of some messages. -/
def pattern (settings : Settings) (hash : HashOrder) (msgs : List OutputMessage) : OutputM JavaString := do
  let prefixes ← longestCommonPrefixes settings msgs
  let first ← firstMessage msgs
  dataStream settings.textOutputSettings hash msgs first prefixes

/-- The analysis of the columns between the constant bytes completes. -/
def Analyzed (settings : Settings) (msgs : List ByteMessage) : Prop :=
  Completes settings.textOutputSettings (prefixLength settings msgs) (suffixLength settings msgs) msgs

instance (settings : Settings) (msgs : List ByteMessage) : Decidable (Analyzed settings msgs) :=
  inferInstanceAs (Decidable (Completes _ _ _ _))

/-- A column between the constant bytes is shown. -/
def MiddleShown (settings : Settings) (msgs : List ByteMessage) : Prop :=
  ∃ column ∈ columnsAt (prefixLength settings msgs) (suffixLength settings msgs) msgs,
    ¬ IsRandom settings.textOutputSettings column ∨ settings.textOutputSettings.randomByteValue ≠ []

/-- There is one constant byte at either end at most, and the first message has one
at most if it is printed as a whole. -/
def EndsShort (settings : Settings) (msgs : List ByteMessage) : Prop :=
  prefixLength settings msgs ≤ 1 ∧ suffixLength settings msgs ≤ 1 ∧
    (MiddleShown settings msgs ∨ ∀ msg ∈ msgs.head?, msg.bytes.length ≤ 1)

/-- There are the same bytes in all messages, which are constant, and a text of them
with this separator is short enough to be prefix and suffix at once. -/
def WholeConstant (settings : Settings) (separator : JavaString) (msgs : List ByteMessage) : Prop :=
  ∃ bytes : List UInt8, (∀ msg ∈ msgs, msg.bytes = bytes) ∧ prefixLength settings msgs = bytes.length ∧
    2 * ((hexBinaryString (some separator) bytes).length + 1) < 2 ^ 31

/-- The separator is not seen in the pattern of some messages. -/
def Unseen (settings : Settings) (bytesSeparator : Option JavaString) (msgs : List ByteMessage) : Prop :=
  (∀ msg ∈ msgs, msg.bytes.length ≤ 1) ∨
    (∃ c, bytesSeparator = some [c] ∧ (isWhiteSpace c = true ∨ EndsShort settings msgs)) ∨
    ∃ separator, bytesSeparator = some separator ∧ separator ≠ [] ∧
      (∀ c ∈ separator, isWhiteSpace c = true) ∧ WholeConstant settings separator msgs

variable {settings : Settings} {hash : HashOrder} {msgs : List ByteMessage} {first : ByteMessage}
  {messages : List OutputMessage} {bytesSeparator : Option JavaString} {sep c : Char} {text : JavaString}
  {column : Column}

/-- A column between has a text unless it is random and the random value is empty. -/
theorem valueText_ne_nil {textSettings : TextOutputSettings} {i d : ℕ} (hvalues : valuesAt d i msgs ≠ [])
    (h : ¬ IsRandom textSettings (columnAt d i msgs) ∨ textSettings.randomByteValue ≠ []) :
    valueText textSettings hash (columnAt d i msgs) ≠ [] := by
  obtain ⟨b, hb⟩ := List.exists_mem_of_ne_nil _ hvalues
  have hmem : hexByte b ∈ shownStrings textSettings (columnAt d i msgs) :=
    mem_shownStrings.mpr (Or.inl ⟨b, hb, rfl⟩)
  rw [valueText]
  split_ifs with hone hrandom
  · obtain ⟨s, hs⟩ := List.length_eq_one_iff.mp hone
    rw [hs] at hmem ⊢
    rw [List.perm_singleton.mp (hash.perm [s]), ← List.mem_singleton.mp hmem]
    exact hexByte_ne_nil b
  · exact h.resolve_left (not_not_intro hrandom)
  · have hle := length_le_intercalate ((hash.perm _).mem_iff.mpr hmem) textSettings.byteEnumerationSeparator
    exact List.ne_nil_of_length_pos (lt_of_lt_of_le Nat.two_pos hle)

/-- What was written stays, and texts are written behind it. -/
theorem length_le_appendColumns (texts : List JavaString) (str : JavaString) :
    str.length ≤ (texts.foldl appendColumn str).length ∧
      ∀ text ∈ texts, text.length ≤ (texts.foldl appendColumn str).length := by
  induction texts generalizing str with
  | nil => exact ⟨le_rfl, List.forall_mem_nil _⟩
  | cons text texts ih =>
    obtain ⟨hstr, hall⟩ := ih (appendColumn str text)
    have happend : str.length ≤ (appendColumn str text).length ∧
        text.length ≤ (appendColumn str text).length := by
      rw [appendColumn, List.length_append]
      refine ⟨?_, Nat.le_add_left _ _⟩
      split_ifs
      · rw [List.length_append]
        omega
      · exact Nat.le_add_right _ _
    rw [List.foldl_cons]
    exact ⟨happend.1.trans hstr, List.forall_mem_cons.mpr ⟨happend.2.trans hstr, hall⟩⟩

/-- The text of the columns between the constant bytes. -/
def middleText (settings : Settings) (hash : HashOrder) (msgs : List ByteMessage) : JavaString :=
  ((columnsAt (prefixLength settings msgs) (suffixLength settings msgs) msgs).map
    (valueText settings.textOutputSettings hash)).foldl appendColumn []

/-- It is not empty if a column is shown. -/
theorem middleText_ne_nil (h : MiddleShown settings msgs) : ¬ (middleText settings hash msgs).length = 0 := by
  obtain ⟨column, hcolumn, hshown⟩ := h
  obtain ⟨i, -, hlong, rfl⟩ := mem_columnsAt.mp hcolumn
  have hvalues : valuesAt (suffixLength settings msgs) i msgs ≠ [] := fun hnil =>
    absurd (valuesAt_eq_nil_iff.mp hnil) (not_le.mpr hlong)
  have hle := (length_le_appendColumns ((columnsAt (prefixLength settings msgs)
    (suffixLength settings msgs) msgs).map (valueText settings.textOutputSettings hash)) []).2 _
    (List.mem_map_of_mem hcolumn)
  exact (lt_of_lt_of_le (List.length_pos_iff.mpr (valueText_ne_nil hvalues hshown)) hle).ne'

/-- What is split for the pattern of some messages, with a character between the bytes. -/
def patternText (settings : Settings) (hash : HashOrder) (sep : Char) (msgs : List ByteMessage)
    (first : ByteMessage) : JavaString :=
  if (middleText settings hash msgs).length = 0 then (first.text sep).message
  else trim (joined sep ((first.bytes.take (prefixLength settings msgs)).map hexByte)) ++ [' '] ++
    trim (middleText settings hash msgs) ++ [' '] ++
    trim (joined sep ((first.bytes.drop (first.bytes.length - suffixLength settings msgs)).map hexByte))

/-- What is printed around it. -/
def surrounded (settings : TextOutputSettings) (text : JavaString) : JavaString :=
  settings.beforeDataStream ++ splitAndJoinString settings text ++ settings.afterDataStream

/-- With one character between the bytes the pattern is that of the columns. -/
theorem pattern_character_iff (hash : HashOrder) (sep : Char) (hfirst : msgs.head? = some first) :
    pattern settings hash (msgs.map (ByteMessage.text sep)) = .ok text ↔
      Analyzed settings msgs ∧
        surrounded settings.textOutputSettings (patternText settings hash sep msgs first) = text := by
  have hmem := List.mem_of_head? hfirst
  have hne := List.ne_nil_of_mem hmem
  obtain ⟨hstarts, hsuffix⟩ := constant_fits settings hne
  have hget : firstMessage (msgs.map (ByteMessage.text sep)) = .ok (first.text sep).message := by
    obtain ⟨rest, rfl⟩ := List.head?_eq_some_iff.mp hfirst
    rfl
  have hstream (h : Analyzed settings msgs) :
      dataStream settings.textOutputSettings hash (msgs.map (ByteMessage.text sep)) (first.text sep).message
        (3 * prefixLength settings msgs - 1, 3 * suffixLength settings msgs - 1) =
        .ok (surrounded settings.textOutputSettings (patternText settings hash sep msgs first)) := by
    refine (bind_ok (analyzeMessages_ok hash sep hstarts hsuffix h) _).trans ?_
    rw [← middleText, patternText]
    by_cases hzero : (middleText settings hash msgs).length = 0
    · rw [if_pos hzero, if_pos hzero]
      rfl
    · rw [if_neg hzero, if_neg hzero]
      exact (bind_ok (substring_front (prefixLength_le settings hmem)) _).trans
        (bind_ok (substring_back (suffixLength_le settings hmem)) _)
  rw [pattern, bind_ok (longestCommonPrefixes_ok settings sep hne), bind_ok hget]
  constructor
  · intro h
    obtain ⟨mid, hmid, -⟩ := of_bind_ok h
    have hanalyzed : Analyzed settings msgs := completes_of_analyzeMessages hstarts hsuffix hmid
    exact ⟨hanalyzed, Except.ok.inj ((hstream hanalyzed).symm.trans h)⟩
  · rintro ⟨hanalyzed, rfl⟩
    exact hstream hanalyzed

/-- At most one byte has no separator. -/
theorem joined_short (sep sep' : Char) {words : List JavaString} (h : words.length ≤ 1) :
    joined sep words = joined sep' words := by
  rcases words with - | ⟨w, - | ⟨w', words⟩⟩
  · rfl
  · rw [joined_singleton, joined_singleton]
  · rw [List.length_cons, List.length_cons] at h
    omega

/-- One white space character is as good as another. -/
theorem surrounded_whiteSpace (hash : HashOrder) (hc : isWhiteSpace c = true) :
    surrounded settings.textOutputSettings (patternText settings hash c msgs first) =
      surrounded settings.textOutputSettings (patternText settings hash ' ' msgs first) := by
  have hblank (bytes : List UInt8) :
      (joined c (bytes.map hexByte)).map blank = (joined ' ' (bytes.map hexByte)).map blank := by
    rw [← hexBinaryString_joined, ← hexBinaryString_joined, hexBinaryString_blank hc,
      hexBinaryString_blank rfl]
  have htrim (bytes : List UInt8) :
      (trim (joined c (bytes.map hexByte))).map blank = (trim (joined ' ' (bytes.map hexByte))).map
        blank := by
    rw [← trim_blank, hblank, trim_blank]
  rw [surrounded, surrounded]
  refine congrArg (fun text => _ ++ text ++ _) (splitAndJoinString_congr _ ?_)
  rw [patternText, patternText]
  split_ifs
  · rw [message_text, message_text, hblank]
  · simp only [List.map_append, htrim]

/-- So is any other character that does not stand in the text. -/
theorem patternText_endsShort (hash : HashOrder) (c : Char) (hfirst : msgs.head? = some first)
    (h : EndsShort settings msgs) :
    patternText settings hash c msgs first = patternText settings hash ' ' msgs first := by
  obtain ⟨hstarts, hsuffix, hwhole⟩ := h
  have hfront : ((first.bytes.take (prefixLength settings msgs)).map hexByte).length ≤ 1 := by
    rw [List.length_map, List.length_take]
    exact (min_le_left _ _).trans hstarts
  have hback : ((first.bytes.drop (first.bytes.length - suffixLength settings msgs)).map hexByte).length ≤
      1 := by
    rw [List.length_map, List.length_drop]
    omega
  rw [patternText, patternText]
  split_ifs with hzero
  · have hshort := hwhole.resolve_left (fun h => middleText_ne_nil h hzero) first hfirst
    rw [message_text, message_text]
    exact joined_short c ' ' (by rwa [List.length_map])
  · rw [joined_short c ' ' hfront, joined_short c ' ' hback]

/-- Messages of one byte at most have no separator. -/
theorem textWith_short (bytesSeparator : Option JavaString) {msg : ByteMessage} (h : msg.bytes.length ≤ 1) :
    textWith bytesSeparator msg = msg.text ' ' := by
  obtain ⟨bytes, identifier, occurrences, occurs, fits⟩ := msg
  rcases bytes with - | ⟨b, - | ⟨d, bytes⟩⟩
  · rfl
  · rw [textWith, ByteMessage.text, PacketGraph.hexBinaryString_cons, PacketGraph.hexBinaryString_cons,
      if_pos rfl, if_pos rfl]
  · rw [List.length_cons, List.length_cons] at h
    omega

/-- Strings that are all the same are common as a whole. -/
theorem longestCommonPrefix_same {str : JavaString} {strs : List JavaString} (hne : strs ≠ [])
    (hall : ∀ s ∈ strs, s = str)
    (henough : (settings.minimalConstantLength * 3).bmod (2 ^ 32) ≤ str.length ∨
      settings.checkMinimalLengthOnShorterStreams = false) :
    longestCommonPrefix settings strs = .ok str.length := by
  obtain ⟨first, rest, rfl⟩ := List.exists_cons_of_ne_nil hne
  have hmin : rest.foldl (fun minStr s => if s.length < minStr.length then s else minStr) first = str :=
    hall _ (shortest_spec first rest).1
  have hcompare (l : List JavaString) (hl : ∀ s ∈ l, s = str) :
      l.foldlM (compareString str) str.length = .ok str.length := by
    induction l with
    | nil => rfl
    | cons s l ih =>
      obtain ⟨hs, hrest⟩ := List.forall_mem_cons.mp hl
      have hself : compareString str str.length s = .ok str.length := if_pos hs
      rw [List.foldlM_cons, bind_ok hself]
      exact ih hrest
  have hreturn : (decide ((str.length : ℤ) ≥ (settings.minimalConstantLength * 3).bmod (2 ^ 32)) ||
      (!settings.checkMinimalLengthOnShorterStreams && decide (str.length ≥ str.length))) = true := by
    rcases henough with hlong | hcheck
    · rw [decide_eq_true hlong, Bool.true_or]
    · rw [hcheck, decide_eq_true (le_refl str.length), Bool.not_false, Bool.true_and, Bool.or_true]
  rw [longestCommonPrefix]
  dsimp only
  rw [hmin, bind_ok (hcompare _ hall), hreturn, if_neg (by decide), if_pos (le_refl str.length)]
  rfl

/-- Messages that are all the same, and constant, are printed as the first of them. -/
theorem pattern_whole (hash : HashOrder) (hne : messages ≠ []) {str : JavaString} (hpos : 0 < str.length)
    (hall : ∀ msg ∈ messages, msg.message = str)
    (henough : (settings.minimalConstantLength * 3).bmod (2 ^ 32) ≤ str.length ∨
      settings.checkMinimalLengthOnShorterStreams = false) (hroom : 2 * (str.length + 1) < 2 ^ 31) :
    pattern settings hash messages = .ok (surrounded settings.textOutputSettings str) := by
  obtain ⟨first, rest, rfl⟩ := List.exists_cons_of_ne_nil hne
  have hprefixes : longestCommonPrefixes settings (first :: rest) = .ok (str.length, str.length) := by
    have hleft : longestCommonPrefix settings ((first :: rest).map OutputMessage.message) = .ok str.length :=
      longestCommonPrefix_same (List.cons_ne_nil _ _) (List.forall_mem_map.mpr hall) henough
    have hright : longestCommonPrefix settings
        (((first :: rest).map OutputMessage.message).map List.reverse) = .ok str.reverse.length :=
      longestCommonPrefix_same (List.cons_ne_nil _ _)
        (List.forall_mem_map.mpr (List.forall_mem_map.mpr fun msg hmsg =>
          congrArg List.reverse (hall msg hmsg)))
        (by rwa [List.length_reverse])
    rw [List.length_reverse] at hright
    exact (bind_ok hleft _).trans (bind_ok hright _)
  have hindex : (if (str.length : ℤ) > 0 then wrapInt (str.length + 1) else (str.length : ℤ)) =
      (str.length + 1 : ℕ) := by
    rw [if_pos (by omega), Nat.cast_succ, wrapInt_eq ⟨by omega, by omega⟩]
  have hread (l : List OutputMessage) (hl : ∀ msg ∈ l, msg.message = str) (column : Column) :
      ∃ column', l.foldlM (readMessage (str.length + 1 : ℕ) (str.length + 1 : ℕ)) column = .ok column' ∧
        column'.bytes = column.bytes := by
    induction l generalizing column with
    | nil => exact ⟨column, rfl, rfl⟩
    | cons msg l ih =>
      obtain ⟨hmsg, hrest⟩ := List.forall_mem_cons.mp hl
      have hends : ¬ msg.message.length > wrapInt ((str.length + 1 : ℕ) + (str.length + 1 : ℕ)) := by
        rw [hmsg, wrapInt_eq ⟨by omega, by omega⟩]
        omega
      have hone : readMessage (str.length + 1 : ℕ) (str.length + 1 : ℕ) column msg =
          .ok ⟨column.bytes, column.msgsCount + msg.count, true⟩ := by
        rw [readMessage, if_neg hends]
        rfl
      obtain ⟨column', hrun, hbytes⟩ := ih hrest ⟨column.bytes, column.msgsCount + msg.count, true⟩
      exact ⟨column', by rw [List.foldlM_cons, bind_ok hone, hrun], hbytes⟩
  have hmid : analyzeMessages settings.textOutputSettings hash (first :: rest) str.length str.length =
      .ok [] := by
    obtain ⟨column, hrun, hbytes⟩ := hread (first :: rest) hall ⟨[], 0, false⟩
    rw [analyzeMessages, hindex, analyzeLoop, bind_ok hrun, hbytes]
    rfl
  have hfirst : firstMessage (first :: rest) = .ok str := congrArg Except.ok (hall first List.mem_cons_self)
  rw [pattern, bind_ok hprefixes, bind_ok hfirst]
  exact bind_ok hmid _

/-- Messages that are constant as a whole, of which there are enough characters. -/
theorem enough_of_wholeConstant {bytes : List UInt8} (hne : msgs ≠ []) (hpos : bytes ≠ [])
    (hall : ∀ msg ∈ msgs, msg.bytes = bytes) (hstarts : prefixLength settings msgs = bytes.length) :
    (settings.minimalConstantLength * 3).bmod (2 ^ 32) ≤ (3 * bytes.length - 1 : ℕ) ∨
      settings.checkMinimalLengthOnShorterStreams = false := by
  have hlength := List.length_pos_iff.mpr hpos
  obtain ⟨msg, hmsg⟩ := List.exists_mem_of_ne_nil _ hne
  have hcommon : CommonPrefix.commonLength (msgs.map ByteMessage.bytes) = bytes.length :=
    le_antisymm (hall msg hmsg ▸ CommonPrefix.commonLength_le (List.mem_map_of_mem hmsg))
      (hstarts ▸ constantLength_le settings)
  have hwhole : Whole (msgs.map ByteMessage.bytes) :=
    ⟨msg.bytes, List.mem_map_of_mem hmsg, by rw [hall msg hmsg, hcommon]⟩
  rw [prefixLength, constantLength, if_pos hwhole, hcommon] at hstarts
  by_contra hnot
  rw [if_neg fun h => hnot (h.imp_right And.left)] at hstarts
  exact absurd hstarts hlength.ne

/-- A separator that is not seen can as well be a blank. -/
theorem pattern_unseen (hash : HashOrder) (hne : msgs ≠ []) (h : Unseen settings bytesSeparator msgs) :
    pattern settings hash (msgs.map (textWith bytesSeparator)) = .ok text ↔
      pattern settings hash (msgs.map (ByteMessage.text ' ')) = .ok text := by
  obtain ⟨first, rest, hcons⟩ := List.exists_cons_of_ne_nil hne
  have hfirst : msgs.head? = some first := List.head?_eq_some_iff.mpr ⟨rest, hcons⟩
  rcases h with hshort | ⟨c, rfl, hone⟩ | ⟨separator, rfl, hsome, hwhite, bytes, hall, hstarts, hroom⟩
  · rw [List.map_congr_left fun msg hmsg => textWith_short bytesSeparator (hshort msg hmsg)]
  · have hsame : msgs.map (textWith (some [c])) = msgs.map (ByteMessage.text c) := rfl
    rw [hsame, pattern_character_iff hash c hfirst, pattern_character_iff hash ' ' hfirst]
    rcases hone with hc | hends
    · rw [surrounded_whiteSpace hash hc]
    · rw [patternText_endsShort hash c hfirst hends]
  · by_cases hnil : bytes = []
    · rw [List.map_congr_left fun msg hmsg => textWith_short (some separator)
        (by rw [hall msg hmsg, hnil]; exact Nat.zero_le 1)]
    · obtain ⟨b, bytes, rfl⟩ := List.exists_cons_of_ne_nil hnil
      have henough := enough_of_wholeConstant hne hnil hall hstarts
      have hlength (separator : JavaString) (hsome : separator ≠ []) :
          3 * (b :: bytes).length - 1 ≤ (hexBinaryString (some separator) (b :: bytes)).length := by
        have hone := List.length_pos_iff.mpr hsome
        have hmul : (b :: bytes).length * 3 ≤ (b :: bytes).length * (2 + separator.length) :=
          Nat.mul_le_mul_left _ (by omega)
        have hrest : (b :: bytes).length * (2 + separator.length) =
            bytes.length * (2 + separator.length) + (2 + separator.length) := by
          rw [List.length_cons, Nat.succ_mul]
        have hless : bytes.length * 3 ≤ bytes.length * (2 + separator.length) :=
          Nat.mul_le_mul_left _ (by omega)
        rw [PacketGraph.length_hexBinaryString, Option.getD_some, hrest, List.length_cons]
        omega
      have hpattern (separator : JavaString) (hsome : separator ≠ [])
          (hroom : 2 * ((hexBinaryString (some separator) (b :: bytes)).length + 1) < 2 ^ 31) :
          pattern settings hash (msgs.map (textWith (some separator))) =
            .ok (surrounded settings.textOutputSettings (hexBinaryString (some separator) (b :: bytes))) := by
        have hlong := hlength separator hsome
        rw [List.length_cons] at hlong henough
        refine pattern_whole hash (by simpa using hne) (by omega)
          (List.forall_mem_map.mpr fun msg hmsg =>
            congrArg (hexBinaryString (some separator)) (hall msg hmsg))
          (henough.imp_left fun h => h.trans (by omega)) hroom
      have hblank : 2 * ((hexBinaryString (some [' ']) (b :: bytes)).length + 1) < 2 ^ 31 := by
        have hlong := hlength separator hsome
        have hexact := PacketGraph.length_hexBinaryString (some [' ']) (b :: bytes)
        have hseparator : ((some [' '] : Option JavaString).getD []).length = 1 := rfl
        rw [hseparator] at hexact
        omega
      have hshown : surrounded settings.textOutputSettings (hexBinaryString (some separator) (b :: bytes)) =
          surrounded settings.textOutputSettings (hexBinaryString (some [' ']) (b :: bytes)) := by
        refine congrArg (fun text => _ ++ text ++ _) (splitAndJoinString_of_split _ ?_)
        rw [splitWhiteSpace_bytes hsome hwhite, splitWhiteSpace_bytes (List.cons_ne_nil _ _)
          (List.forall_mem_singleton.mpr rfl)]
      have hsame : msgs.map (ByteMessage.text ' ') = msgs.map (textWith (some [' '])) := rfl
      rw [hsame, hpattern separator hsome hroom, hpattern [' '] (List.cons_ne_nil _ _) hblank, hshown]

end ApduPlay.HiddenSeparators
