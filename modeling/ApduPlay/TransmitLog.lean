import ApduPlay.CardSession
import ApduPlay.ParserSteps
import ApduPlay.RuleFile

/-!
# The log of SCardTransmit

Every call of `SCardTransmit` appends its lines to the log, and the log is
read by the parser with the header length 4. A call is recorded unless its
command is nothing but a header, and the calls behind it unless that or its
response time ends the parse.
-/

namespace ApduPlay.TransmitLog

open PacketNode PacketTree LogParser LogLines ParserSteps RuleFile TextSearch

/-- What the log shows of one call. -/
structure Transmission where
  /-- `hCard` -/
  hCard : CardHandle
  /-- `apduCounter` -/
  apduCounter : ℤ
  /-- `m_processedApduByteCounter` -/
  processedApduByteCounter : ℤ
  /-- The line for the instruction, if descriptions are logged and there is one. -/
  description : Option JavaString
  /-- The bytes of `pbSendBuffer`. -/
  command : List UInt8
  /-- Milliseconds until the response. -/
  elapsedCard : ℤ
  /-- `result` -/
  result : Status
  /-- The bytes of `pbRecvBuffer`. -/
  response : List UInt8
  /-- A description stands on one line of the instruction file. -/
  description_line : ∀ d ∈ description, OneLine d
  /-- A command has a header. -/
  le_length : 4 ≤ command.length
  /-- A command fits in an `APDU_BUFFER`. -/
  length_le : command.length ≤ 300

/-- `%d`, which takes the argument as an `int`. -/
def decimalText (n : ℤ) : JavaString :=
  if wrapInt n < 0 then '-' :: Nat.toDigits 10 (wrapInt n).natAbs else Nat.toDigits 10 (wrapInt n).natAbs

/-- `%0.8X`, which takes the argument as an `int`. -/
def handleText (hCard : CardHandle) : JavaString :=
  (List.range 8).map fun i => PacketTree.hexDigit (hCard.toNat / 16 ^ (7 - i) % 16)

/-- `%.2x` -/
def byteText (b : UInt8) : JavaString := [(b.toNat / 16).digitChar, (b.toNat % 16).digitChar]

/-- `BYTE_ConvertFromArrayToHexString` -/
def convertFromArrayToHexString (bytes : List UInt8) : JavaString :=
  (bytes.flatMap fun b => byteText b ++ [' ']).rdropWhile (· == ' ')

/-- The length of a response is set to 0 after a failure. -/
def Transmission.received (c : Transmission) : List UInt8 :=
  if c.result ≠ scardSSuccess then [] else c.response

/-- The lines that one call appends to the log. -/
def Transmission.lines (c : Transmission) : List JavaString :=
  ("SCardTransmit (handle 0x".toList ++ handleText c.hCard ++ ")#".toList) ::
  ("apduCounter".toList ++ ':' :: (decimalText c.apduCounter ++ ['#'])) ::
  ("totalBytesINCounter".toList ++ ':' :: (decimalText (c.processedApduByteCounter + 1) ++ ['#'])) ::
  (c.description.toList.map fun d => "instruction info".toList ++ ':' :: ' ' :: d) ++
  [ "transmitted".toList ++ ':' :: convertFromArrayToHexString c.command,
    "responseTime".toList ++ ':' :: (decimalText c.elapsedCard ++ ['#']),
    "SCardTransmit result".toList ++ ':' :: ("0x".toList ++ Nat.toDigits 16 c.result.toNat ++ ['#']),
    "received".toList ++ ':' :: convertFromArrayToHexString c.received,
    [] ]

/-- The log of a run of the library: the line from its initialization and those
of the calls. -/
def log (calls : List Transmission) : JavaString :=
  ("[begin]".toList :: calls.flatMap Transmission.lines).flatMap (· ++ ['\n'])

/-- The parser after the log of these calls. -/
def parsed (h : Heap) (calls : List Transmission) : Parser := (parseFile 4 (log calls) (h, newParser)).2

/-- The header of a call. -/
def Transmission.header (c : Transmission) : List UInt8 := c.command.take 4

/-- There is one packet per call in the tree of its header, in the order of the
calls: after the log of the first calls there are as many, and they are the
first ones at the end. -/
def RecordsEachCall (h : Heap) (calls : List Transmission) : Prop :=
  ∀ before after, calls = before ++ after → ∀ header,
    (packetsOf (parsed h before) header).length = before.countP (fun c => c.header == header) ∧
    packetsOf (parsed h before) header <+: packetsOf (parsed h calls) header

/-- The printed response time can be read. -/
def Transmission.Timely (c : Transmission) : Prop := wrapInt c.elapsedCard ≠ -2 ^ 31

/-- Every command goes on behind its header, and every response time but the
last can be read. -/
def Recordable (calls : List Transmission) : Prop :=
  (∀ c ∈ calls, 4 < c.command.length) ∧ ∀ c ∈ calls.dropLast, c.Timely

variable {h : Heap} {s s' : Heap × Parser} {commands : List (List UInt8)} {c : Transmission}
  {calls before after : List Transmission}

/-- A number is written in digits. -/
theorem mem_toDigits {b n : ℕ} (hb : 1 < b) {ch : Char} (hch : ch ∈ Nat.toDigits b n) :
    ∃ d : ℕ, ch = d.digitChar := by
  induction n using Nat.strong_induction_on with
  | _ n ih =>
    rw [Nat.toDigits_eq_if hb] at hch
    split at hch
    · exact ⟨n, List.mem_singleton.mp hch⟩
    · rename_i hle
      rcases List.mem_append.mp hch with hmem | hmem
      · exact ih (n / b) (Nat.div_lt_self (by omega) hb) hmem
      · exact ⟨n % b, List.mem_singleton.mp hmem⟩

theorem isLineSeparator_digitChar (d : ℕ) : isLineSeparator d.digitChar = false := by
  simp [isLineSeparator]

/-- A number is written on one line and without a colon. -/
theorem mem_decimalText {n : ℤ} {ch : Char} (hch : ch ∈ decimalText n ++ ['#']) :
    isLineSeparator ch = false ∧ ch ≠ ':' := by
  have hdigit {m : ℕ} (hm : ch ∈ Nat.toDigits 10 m) : isLineSeparator ch = false ∧ ch ≠ ':' := by
    obtain ⟨d, rfl⟩ := mem_toDigits (by decide) hm
    exact ⟨isLineSeparator_digitChar d, by simp⟩
  rcases List.mem_append.mp hch with hin | hin
  · unfold decimalText at hin
    split at hin
    · rcases List.mem_cons.mp hin with rfl | hin
      · decide
      · exact hdigit hin
    · exact hdigit hin
  · rw [List.mem_singleton.mp hin]
    decide

/-- The digits of a number are those of its absolute value. -/
theorem filter_decimalText (n : ℤ) :
    (decimalText n ++ ['#']).filter Char.isDigit = Nat.toDigits 10 (wrapInt n).natAbs := by
  have hall : (Nat.toDigits 10 (wrapInt n).natAbs).filter Char.isDigit = Nat.toDigits 10 (wrapInt n).natAbs :=
    List.filter_eq_self.mpr fun ch hch => Nat.isDigit_of_mem_toDigits (by decide) (by decide) hch
  have hsign : Char.isDigit '-' = false := rfl
  have hend : Char.isDigit '#' = false := rfl
  unfold decimalText
  split <;> simp [List.filter_append, hall, hsign, hend]

/-- Every response time can be read but one. -/
theorem intOfDigits_decimalText (n : ℤ) :
    intOfDigits ((decimalText n ++ ['#']).filter Char.isDigit) =
      if wrapInt n = -2 ^ 31 then none else some ((wrapInt n).natAbs : ℤ) := by
  have hlow : -2 ^ 31 ≤ wrapInt n := Int.le_bmod (by decide)
  have hhigh : wrapInt n < 2 ^ 31 := Int.bmod_lt (by decide)
  rw [filter_decimalText, intOfDigits, Nat.ofDigitChars_ten_toDigits]
  split_ifs with h1 h2 h2
  · omega
  · rfl
  · rfl
  · exact absurd ⟨Nat.toDigits_ne_nil, by omega⟩ h1

theorem hexToBin_digitChar : ∀ n < 16, hexToBin n.digitChar = some n := by decide

theorem hexPair_byteText (b : UInt8) : HexPair (byteText b) b := by
  have hb := b.toNat_lt
  refine ⟨_, _, _, _, rfl, hexToBin_digitChar _ (by omega), hexToBin_digitChar _ (by omega), ?_⟩
  rw [Nat.div_add_mod, UInt8.ofNat_toNat]

/-- The dump of bytes writes them. -/
theorem hexText_convert (bytes : List UInt8) : HexText (convertFromArrayToHexString bytes) bytes := by
  refine hexText_of_filter hexPair_byteText ?_
  have hblank : ∀ ch ∈ bytes.flatMap (fun b => byteText b ++ [' ']),
      (ch == ' ') = true → (ch != ' ') = false := by
    intro ch _ hch
    rw [bne, hch]
    rfl
  rw [convertFromArrayToHexString, filter_rdropWhile hblank, List.filter_flatMap]
  refine congrArg (bytes.flatMap ·) (funext fun b => ?_)
  rw [List.filter_append, filter_digits hexPair_byteText]
  exact List.append_nil _

/-- A handle is written in digits. -/
theorem mem_handleText {hCard : CardHandle} {ch : Char} (hch : ch ∈ handleText hCard) :
    isLineSeparator ch = false ∧ ch ≠ ':' := by
  obtain ⟨i, -, rfl⟩ := List.mem_map.mp hch
  have hdigit := hexToBin_bounds (hexToBin_hexDigit (hCard.toNat / 16 ^ (7 - i) % 16)
    (Nat.mod_lt _ (by decide)))
  exact ⟨hdigit.2.2, hdigit.2.1⟩

theorem mem_resultText {result : ℕ} {ch : Char} (hch : ch ∈ "0x".toList ++ Nat.toDigits 16 result ++ ['#']) :
    isLineSeparator ch = false := by
  rcases List.mem_append.mp hch with hin | hin
  · rcases List.mem_append.mp hin with hin | hin
    · exact (by decide : OneLine "0x".toList) ch hin
    · obtain ⟨d, rfl⟩ := mem_toDigits (by decide) hin
      exact isLineSeparator_digitChar d
  · rw [List.mem_singleton.mp hin]
    rfl

theorem oneLine_decimalText (n : ℤ) : OneLine (decimalText n ++ ['#']) := fun _ hch => (mem_decimalText hch).1

/-- No line of a call is broken. -/
theorem oneLine_of_mem_lines {line : JavaString} (hline : line ∈ c.lines) : OneLine line := by
  have hpart (key value : JavaString) (hkey : OneLine key) (hvalue : OneLine value) :
    OneLine (key ++ ':' :: value) :=
    hkey.append (hvalue.cons (by decide))
  simp only [Transmission.lines, List.cons_append, List.mem_cons, List.mem_append, List.mem_map,
    Option.mem_toList,
    List.not_mem_nil, or_false] at hline
  rcases hline with rfl | rfl | rfl | ⟨d, hd, rfl⟩ | rfl | rfl | rfl | rfl | rfl
  · have hhandle : OneLine (handleText c.hCard) := fun ch hch => (mem_handleText hch).1
    exact (OneLine.append (by decide) hhandle).append (by decide)
  · exact hpart _ _ (by decide) (oneLine_decimalText _)
  · exact hpart _ _ (by decide) (oneLine_decimalText _)
  · exact hpart _ _ (by decide) ((c.description_line d hd).cons (by decide))
  · exact hpart _ _ (by decide) (hexText_convert _).oneLine
  · exact hpart _ _ (by decide) (oneLine_decimalText _)
  · exact hpart _ _ (by decide) fun ch hch => mem_resultText hch
  · exact hpart _ _ (by decide) (hexText_convert _).oneLine
  · exact fun ch hch => absurd hch List.not_mem_nil

/-- The parser reads the lines of the calls. -/
theorem parsed_eq (h : Heap) (calls : List Transmission) :
    parsed h calls = (parseLines 4 (calls.flatMap Transmission.lines) (h, newParser)).2 := by
  have hbegin : ignored "[begin]".toList = true := by decide
  have hcalls : ∀ line ∈ calls.flatMap Transmission.lines, OneLine line := by
    intro line hline
    obtain ⟨c, -, hc⟩ := List.mem_flatMap.mp hline
    exact oneLine_of_mem_lines hc
  have hlog : scannerLines (log calls) = "[begin]".toList :: calls.flatMap Transmission.lines :=
    scannerLines_lines (List.forall_mem_cons.mpr ⟨by decide, hcalls⟩)
  rw [parsed, parseFile, hlog, parseLines, parseLines, List.forM_cons, parseLine_ignored 4 hbegin, pure_bind]

/-- The lines of a call that count. -/
theorem forM_callLines (c : Transmission) :
    forM c.lines (parseLine 4) =
      (do
        handleTransmittedData 4 c.command
        handleResponseTime (decimalText c.elapsedCard ++ ['#'])
        if c.received = [] then pure () else handleReceivedData c.received) := by
  have hne : c.command ≠ [] := by
    intro hnil
    have hlen := c.le_length
    rw [hnil] at hlen
    exact absurd hlen (by decide)
  have hhandle : ignored ("SCardTransmit (handle 0x".toList ++ handleText c.hCard ++ ")#".toList) = true := by
    refine ignored_of_not_mem fun hin => ?_
    rcases List.mem_append.mp hin with hin | hin
    · rcases List.mem_append.mp hin with hin | hin
      · exact absurd hin (by decide)
      · exact (mem_handleText hin).2 rfl
    · exact absurd hin (by decide)
  have hcounter : ∀ rest, ignored ("apduCounter".toList ++ ':' :: rest) = true :=
    ignored_key (by decide) (by decide)
  have htotal : ∀ rest, ignored ("totalBytesINCounter".toList ++ ':' :: rest) = true :=
    ignored_key (by decide) (by decide)
  have hresult : ∀ rest, ignored ("SCardTransmit result".toList ++ ':' :: rest) = true :=
    ignored_key (by decide) (by decide)
  have hdescription : ∀ line ∈ c.description.toList.map fun d => "instruction info".toList ++ ':' :: ' ' :: d,
      ignored line = true := by
    intro line hline
    obtain ⟨d, -, rfl⟩ := List.mem_map.mp hline
    exact ignored_key (by decide) (by decide) _
  have htime : ':' ∉ decimalText c.elapsedCard ++ ['#'] := fun hin => (mem_decimalText hin).2 rfl
  have hreceived : parseLine 4 ("received".toList ++ ':' :: convertFromArrayToHexString c.received) =
      if c.received = [] then pure () else handleReceivedData c.received := by
    split_ifs with hnil
    · rw [hnil]
      have hkey : ':' ∉ "received".toList := by decide
      exact congrArg (handleABDULine 4) (processLine_empty_value hkey)
    · exact parseLine_received 4 (hexText_convert _) hnil
  have hend : parseLine 4 [] = pure () := rfl
  simp only [Transmission.lines, List.forM_append, List.forM_cons, List.forM_nil, pure_bind,
    parseLine_ignored 4 hhandle, parseLine_ignored 4 (hcounter _), parseLine_ignored 4 (htotal _),
    parseLine_ignored 4 (hresult _), forM_ignored 4 hdescription,
    parseLine_transmitted 4 (hexText_convert c.command) hne,
    parseLine_responseTime 4 htime (List.append_ne_nil_of_right_ne_nil _ (List.cons_ne_nil _ _)),
      hreceived, hend,
    bind_pure_unit]

/-- A command that is only a header ends the parse. -/
theorem call_short (hk : Kept 4 commands s) (hlen : c.command.length = 4) :
    ∃ err h', forM c.lines (parseLine 4) s = .error err (h', s.2) := by
  obtain ⟨err, h', herr, -⟩ := handleTransmittedData_error (fun t ht => (hk.rooted ht).root) hlen
  refine ⟨err, h', ?_⟩
  rw [forM_callLines]
  exact bind_error herr

/-- A longer command is recorded. The parse goes on if the response time can
be read. -/
theorem call_long (hk : Kept 4 commands s) (hlen : 4 < c.command.length) :
    ∃ s', Kept 4 (commands ++ [c.command]) s' ∧ Extends s.2 s'.2 ∧
      (c.Timely → forM c.lines (parseLine 4) s = .ok () s') ∧
      (¬ c.Timely → ∃ err, forM c.lines (parseLine 4) s = .error err s') := by
  obtain ⟨leaf, t, s1, hrun1, hp1, -⟩ := handleTransmittedData_ok hk hlen
  have hread := intOfDigits_decimalText c.elapsedCard
  rw [forM_callLines]
  by_cases htimely : c.Timely
  · rw [if_neg htimely] at hread
    obtain ⟨t2, s2, hrun2, hp2, -⟩ := handleResponseTime_ok hp1 hread
    by_cases hnil : c.received = []
    · refine ⟨s2, hp2.kept hk, hp2.extends, fun _ => (bind_ok hrun1).trans ((bind_ok hrun2).trans ?_),
        fun hnot => absurd htimely hnot⟩
      rw [if_pos hnil]
      rfl
    · obtain ⟨node, t3, s3, hrun3, hp3, -⟩ := handleReceivedData_ok hp2 hnil
      refine ⟨s3, hp3.kept hk, hp3.extends, fun _ => (bind_ok hrun1).trans ((bind_ok hrun2).trans ?_),
        fun hnot => absurd htimely hnot⟩
      rw [if_neg hnil]
      exact hrun3
  · rw [if_pos (of_not_not htimely)] at hread
    obtain ⟨err, herr⟩ := handleResponseTime_error hp1 hread
    exact ⟨s1, hp1.kept hk, hp1.extends, fun h => absurd h htimely,
      fun _ => ⟨err, (bind_ok hrun1).trans (bind_error herr)⟩⟩

/-- Calls that are recorded and do not end the parse. -/
theorem calls_ok (hk : Kept 4 commands s) (hlen : ∀ c ∈ calls, 4 < c.command.length)
    (htimely : ∀ c ∈ calls, c.Timely) :
    ∃ s', forM (calls.flatMap Transmission.lines) (parseLine 4) s = .ok () s' ∧
      Kept 4 (commands ++ calls.map Transmission.command) s' ∧ Extends s.2 s'.2 := by
  induction calls generalizing s commands with
  | nil =>
    refine ⟨s, rfl, ?_, .refl _⟩
    rw [List.map_nil, List.append_nil]
    exact hk
  | cons c calls ih =>
    obtain ⟨hc, hlens⟩ := List.forall_mem_cons.mp hlen
    obtain ⟨ht, htimes⟩ := List.forall_mem_cons.mp htimely
    obtain ⟨s1, hk1, hext1, hrun1, -⟩ := call_long hk hc
    obtain ⟨s2, hrun2, hk2, hext2⟩ := ih hk1 hlens htimes
    refine ⟨s2, ?_, ?_, hext1.trans hext2⟩
    · rw [List.flatMap_cons, List.forM_append]
      exact (bind_ok (hrun1 ht)).trans hrun2
    · rw [List.append_assoc] at hk2
      exact hk2

theorem parseLines_of_ok {lines more : List JavaString}
    (hrun : forM lines (parseLine 4) s = .ok () s') : parseLines 4 (lines ++ more) s =
      parseLines 4 more s' := by
  rw [parseLines, List.forM_append, bind_ok hrun, parseLines]

theorem parseLines_of_error {lines more : List JavaString} {err : JavaException}
    (hrun : forM lines (parseLine 4) s = .error err s') : parseLines 4 (lines ++ more) s = s' := by
  rw [parseLines, List.forM_append, bind_error hrun]
  rfl

/-- Recordable calls are recorded. -/
theorem kept_calls (hk : Kept 4 commands s) (hcalls : Recordable calls) :
    Kept 4 (commands ++ calls.map Transmission.command) (parseLines 4 (calls.flatMap Transmission.lines) s) ∧
      Extends s.2 (parseLines 4 (calls.flatMap Transmission.lines) s).2 := by
  obtain ⟨hlen, htimely⟩ := hcalls
  rcases List.eq_nil_or_concat calls with rfl | ⟨init, c, rfl⟩
  · rw [List.map_nil, List.append_nil]
    exact ⟨hk, .refl _⟩
  · rw [List.concat_eq_append] at hlen htimely ⊢
    rw [List.dropLast_concat] at htimely
    obtain ⟨s1, hrun1, hk1, hext1⟩ := calls_ok hk (fun c hc => hlen c (List.mem_append_left _ hc)) htimely
    obtain ⟨s2, hk2, hext2, hok, herror⟩ := call_long hk1 (hlen c
      (List.mem_append_right _ List.mem_cons_self))
    have hfinal : parseLines 4 ((init ++ [c]).flatMap Transmission.lines) s = s2 := by
      rw [List.flatMap_append, parseLines_of_ok hrun1, List.flatMap_singleton, parseLines]
      by_cases ht : c.Timely
      · rw [hok ht]
        rfl
      · obtain ⟨err, hrun⟩ := herror ht
        rw [hrun]
        rfl
    rw [hfinal, List.map_append, ← List.append_assoc]
    exact ⟨hk2, hext1.trans hext2⟩

/-- A call adds to the commands with its header. -/
theorem count_header_lt (c : Transmission) (commands more : List (List UInt8)) :
    commands.countP (fun command => command.take 4 == c.header) <
      (commands ++ c.command :: more).countP fun command => command.take 4 == c.header := by
  have hself : (c.command.take 4 == c.header) = true := beq_self_eq_true _
  rw [List.countP_append, List.countP_cons, if_pos hself]
  omega

/-- Calls whose packets are all there were recordable. The induction follows
the calls up to the one that ends the parse; its header, or that of the next
call, has too few packets. -/
theorem recordable_of_count (hk : Kept 4 commands s)
    (hcount : ∀ header, (packetsOf (parseLines 4 (calls.flatMap Transmission.lines) s).2 header).length =
      (commands ++ calls.map Transmission.command).countP fun command => command.take 4 == header) :
    Recordable calls := by
  induction calls generalizing s commands with
  | nil => exact ⟨fun c hc => absurd hc List.not_mem_nil, fun c hc => absurd hc List.not_mem_nil⟩
  | cons c calls ih =>
    rw [List.flatMap_cons, List.map_cons] at hcount
    rcases Nat.eq_or_lt_of_le c.le_length with hshort | hlong
    · obtain ⟨err, h', hrun⟩ := call_short hk hshort.symm
      rw [parseLines_of_error hrun] at hcount
      have hmissing := hcount c.header
      rw [hk.count] at hmissing
      exact absurd hmissing (count_header_lt c _ _).ne
    · obtain ⟨s1, hk1, -, hok, herror⟩ := call_long hk hlong
      by_cases htimely : c.Timely
      · rw [parseLines_of_ok (hok htimely)] at hcount
        obtain ⟨hlens, htimes⟩ := ih hk1 (by simpa using hcount)
        refine ⟨List.forall_mem_cons.mpr ⟨hlong, hlens⟩, ?_⟩
        cases calls with
        | nil => exact fun c hc => absurd hc List.not_mem_nil
        | cons d calls =>
          rw [List.dropLast_cons_cons]
          exact List.forall_mem_cons.mpr ⟨htimely, htimes⟩
      · obtain ⟨err, hrun⟩ := herror htimely
        rw [parseLines_of_error hrun] at hcount
        cases calls with
        | nil => exact ⟨by simpa using hlong, fun c hc => absurd hc List.not_mem_nil⟩
        | cons d calls =>
          have hmissing := hcount d.header
          rw [hk1.count,
            List.append_cons commands c.command ((d :: calls).map Transmission.command)] at hmissing
          exact absurd hmissing (count_header_lt d _ _).ne

/-- Calls that are all recorded were recordable. -/
theorem recordable_of_recordsEachCall (hw : WellFormed h) (hall : RecordsEachCall h calls) :
    Recordable calls := by
  refine recordable_of_count (kept_newParser 4 hw) fun header => ?_
  rw [← parsed_eq, (hall calls [] (List.append_nil _).symm header).1, List.nil_append, List.countP_map]
  rfl

/-- Every call is recorded if and only if every command goes on behind its
header and every response time but the last can be read. -/
theorem recordsEachCall_iff (hw : WellFormed h) : RecordsEachCall h calls ↔ Recordable calls := by
  refine ⟨recordable_of_recordsEachCall hw, fun ⟨hlen, htimely⟩ before after hsplit header => ?_⟩
  have hk := kept_newParser 4 hw
  have hcount {part : List Transmission} (hpart : Recordable part) :
      (packetsOf (parsed h part) header).length = part.countP fun c => c.header == header := by
    rw [parsed_eq, (kept_calls hk hpart).1.count, List.nil_append, List.countP_map]
    rfl
  cases after with
  | nil =>
    rw [hsplit, List.append_nil] at hlen htimely ⊢
    exact ⟨hcount ⟨hlen, htimely⟩, List.prefix_rfl⟩
  | cons c after =>
    rw [hsplit, List.dropLast_append_cons] at htimely
    have hlens : ∀ c ∈ before, 4 < c.command.length := fun c hc => hlen c (hsplit ▸ List.mem_append_left _ hc)
    have htimes : ∀ c ∈ before, c.Timely := fun c hc => htimely c (List.mem_append_left _ hc)
    refine ⟨hcount ⟨hlens, fun c hc => htimes c (List.mem_of_mem_dropLast hc)⟩, ?_⟩
    obtain ⟨s1, hrun, hk1, -⟩ := calls_ok hk hlens htimes
    have hrest : Recordable (c :: after) :=
      ⟨fun c hc => hlen c (hsplit ▸ List.mem_append_right _ hc), fun c hc =>
        htimely c (List.mem_append_right _ hc)⟩
    have hfirst : parseLines 4 (before.flatMap Transmission.lines) (h, newParser) = s1 := by
      rw [parseLines, hrun]
      rfl
    rw [parsed_eq, parsed_eq, hsplit, List.flatMap_append, parseLines_of_ok hrun, hfirst]
    exact (kept_calls hk1 hrest).2.packetsOf header

/-- A call that selects a file. -/
def selectFile : Transmission where
  hCard := 0xEA010000
  apduCounter := 0
  processedApduByteCounter := 0
  description := none
  command := [0x00, 0xA4, 0x00, 0x00, 0x02, 0x3F, 0x00]
  elapsedCard := 12
  result := scardSSuccess
  response := [0x90, 0x00]
  description_line := by simp
  le_length := by decide
  length_le := by decide

/-- A call that fails. -/
def failedSelect : Transmission := { selectFile with result := scardFCommError, elapsedCard := 2 ^ 31 }

/-- A call that is only a header. -/
def openChannel : Transmission where
  hCard := 0xEA010000
  apduCounter := 0
  processedApduByteCounter := 0
  description := none
  command := [0x00, 0x70, 0x00, 0x00]
  elapsedCard := 3
  result := scardSSuccess
  response := [0x01, 0x90, 0x00]
  description_line := by simp
  le_length := by decide
  length_le := by decide

/-- A failed call is recorded, at the end even one whose time cannot be read. -/
theorem recordsEachCall_failed : RecordsEachCall [] [selectFile, failedSelect] := by
  refine (recordsEachCall_iff WellFormed.nil).mpr ⟨?_, ?_⟩
  · simp only [List.forall_mem_cons]
    exact ⟨by decide, by decide, fun c hc => absurd hc List.not_mem_nil⟩
  · intro c hc
    rw [List.mem_singleton.mp hc, Transmission.Timely]
    decide

/-- A call that is only a header is not recorded, nor is the call behind it. -/
theorem not_recordsEachCall_header : ¬ RecordsEachCall [] [openChannel, selectFile] := by
  intro hall
  obtain ⟨hlen, -⟩ := recordable_of_recordsEachCall WellFormed.nil hall
  exact absurd (hlen openChannel List.mem_cons_self) (by decide)

end ApduPlay.TransmitLog
