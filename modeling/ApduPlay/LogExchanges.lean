import ApduPlay.ParserSteps

/-!
# The packets of a log

A log of exchanges is read to its end. Every exchange is the packet at the
place that the earlier exchanges with its header leave, with its own response
time, the nodes where its own bytes end, and its number in the log.
-/

namespace ApduPlay.LogExchanges

open PacketNode PacketTree LogParser LogLines ParserSteps

/-- An exchange as it stands in a log: the three lines of the exchange in
their order, with lines before, between and behind them that are passed over. -/
structure Exchange (headerLength : ℕ) where
  /-- Lines before. -/
  lead : List JavaString
  /-- Value of the line with the transmitted bytes. -/
  commandText : JavaString
  /-- The transmitted bytes. -/
  command : List UInt8
  /-- Lines between. -/
  afterCommand : List JavaString
  /-- Value of the line with the response time. -/
  timeText : JavaString
  /-- The response time. -/
  time : ℕ
  /-- Lines between. -/
  afterTime : List JavaString
  /-- Value of the line with the received bytes. -/
  responseText : JavaString
  /-- The received bytes. -/
  response : List UInt8
  /-- Lines behind. -/
  tail : List JavaString
  /-- The transmitted bytes are written in hexadecimal digits. -/
  command_text : HexText commandText command
  /-- There is at least one byte after the header. -/
  longer : headerLength < command.length
  /-- The value with the response time is one part. -/
  time_colon : ':' ∉ timeText
  /-- It has digits. -/
  time_digits : timeText.filter Char.isDigit ≠ []
  /-- They write the response time. -/
  time_value : Nat.ofDigitChars 10 (timeText.filter Char.isDigit) 0 = time
  /-- It is an `int`. -/
  time_lt : time < 2 ^ 31
  /-- The received bytes are written in hexadecimal digits. -/
  response_text : HexText responseText response
  /-- The response is not empty. -/
  response_ne_nil : response ≠ []
  /-- The other lines are passed over. -/
  others : ∀ line ∈ lead ++ afterCommand ++ afterTime ++ tail, ignored line = true

variable {headerLength : ℕ}

/-- The lines of an exchange. -/
def Exchange.lines (e : Exchange headerLength) : List JavaString :=
  e.lead ++ ("transmitted".toList ++ ':' :: e.commandText) :: e.afterCommand ++
    ("responseTime".toList ++ ':' :: e.timeText) :: e.afterTime ++
    ("received".toList ++ ':' :: e.responseText) :: e.tail

/-- The header of an exchange. -/
def Exchange.header (e : Exchange headerLength) : List UInt8 := e.command.take headerLength

/-- The data behind the header. -/
def Exchange.data (e : Exchange headerLength) : List UInt8 := e.command.drop headerLength

/-- Merging the data of an exchange returns the node `leaf` of the tree `t`.
The first data with a header go to the constructor, whose packet has the node. -/
def DataMerged (s : Heap × Parser) (e : Exchange headerLength) (t : Tree) (leaf : NodeId) (h : Heap) : Prop :=
  match s.2.packets.lookup (printHexBinary e.header) with
  | none => ∃ t0, newTree e.header e.data s.1 = .ok t0 h ∧ t0.root = t.root ∧
      t0.receivedRoot = t.receivedRoot ∧ t0.streamPackets = [newPacket leaf]
  | some t0 => t0.root = t.root ∧ t0.receivedRoot = t.receivedRoot ∧ mergeNode t.root e.data s.1 = .ok leaf h

/-- The exchange read in the state `s`, after `before`, has its packet in the
final trees: at its place, with its time, its number and its own nodes. -/
def RecordedAs (s : Heap × Parser) (final : Parser) (before : List (Exchange headerLength))
    (e : Exchange headerLength) (ac : ℤ) : Prop :=
  ∃ t leaf node h h', final.packets.lookup (printHexBinary e.header) = some t ∧
    t.streamPackets[before.countP fun e' => e'.header == e.header]? = some ⟨leaf, some node, e.time, ac⟩ ∧
    DataMerged s e t leaf h ∧ mergeNode t.receivedRoot e.response h = .ok node h'

variable {h : Heap} {s s' : Heap × Parser} {commands : List (List UInt8)} {text : JavaString}
  {e : Exchange headerLength} {exchanges before after : List (Exchange headerLength)}

/-- Only the three lines count. -/
theorem forM_lines (e : Exchange headerLength) :
    forM e.lines (parseLine headerLength) =
      (do
        handleTransmittedData headerLength e.command
        handleResponseTime e.timeText
        handleReceivedData e.response) := by
  have hpass : ∀ part ∈ [e.lead, e.afterCommand, e.afterTime, e.tail],
      ∀ line ∈ part, ignored line = true := by
    intro part hpart line hline
    refine e.others line ?_
    simp only [List.mem_cons, List.not_mem_nil, or_false] at hpart
    rcases hpart with rfl | rfl | rfl | rfl <;> simp [hline]
  simp only [List.forall_mem_cons] at hpass
  obtain ⟨hlead, hcommand, htime, htail, -⟩ := hpass
  have hcommand_ne : e.command ≠ [] := by
    intro hnil
    have hlen := e.longer
    rw [hnil] at hlen
    exact Nat.not_lt_zero _ hlen
  have htime_ne : e.timeText ≠ [] := by
    intro hnil
    exact e.time_digits (by rw [hnil]; rfl)
  simp only [Exchange.lines, List.forM_append, List.forM_cons, bind_assoc, forM_ignored _ hlead,
    forM_ignored _ hcommand, forM_ignored _ htime, forM_ignored _ htail, pure_bind,
    parseLine_transmitted headerLength e.command_text hcommand_ne,
    parseLine_responseTime headerLength e.time_colon htime_ne,
    parseLine_received headerLength e.response_text e.response_ne_nil, bind_pure_unit]

theorem intOfDigits_time (e : Exchange headerLength) :
    intOfDigits (e.timeText.filter Char.isDigit) = some (e.time : ℤ) := by
  rw [intOfDigits, e.time_value, if_pos ⟨e.time_digits, e.time_lt⟩]

/-- One exchange. -/
theorem exchange_ok (hk : Kept headerLength commands s) (e : Exchange headerLength) :
    ∃ t leaf node h s', forM e.lines (parseLine headerLength) s = .ok () s' ∧
      Pending headerLength s s' e.command ⟨leaf, some node, e.time, s.2.ac⟩ t ∧
      s'.2.ac = (s.2.ac + 1).bmod (2 ^ 32) ∧ DataMerged s e t leaf h ∧
      mergeNode t.receivedRoot e.response h = .ok node s'.1 := by
  obtain ⟨leaf, t1, s1, hrun1, hp1, hac1, hstore, hmerged⟩ := handleTransmittedData_ok hk e.longer
  obtain ⟨t2, s2, hrun2, hp2, hheap, hac2, hroot2, hreceived2⟩ :=
    handleResponseTime_ok hp1 (intOfDigits_time e)
  obtain ⟨node, t3, s3, hrun3, hp3, hac3, hnode, hroot3, hreceived3⟩ :=
    handleReceivedData_ok hp2 e.response_ne_nil
  have hroot : t3.root = t1.root := hroot3.trans hroot2
  have hreceived : t3.receivedRoot = t1.receivedRoot := hreceived3.trans hreceived2
  refine ⟨t3, leaf, node, s1.1, s3, ?_, hac1 ▸ hp3, ?_, ?_, ?_⟩
  · rw [forM_lines]
    exact (bind_ok hrun1).trans ((bind_ok hrun2).trans hrun3)
  · rw [hac3, hac2, hac1]
  · have hkey : printHexBinary e.header = headerText headerLength e.command := rfl
    rw [DataMerged, hkey]
    cases hold : s.2.packets.lookup (headerText headerLength e.command) with
    | none =>
      rw [hold] at hstore
      have hnone : packetsOf s.2 (e.command.take headerLength) = [] := by
        rw [packetsOf, ← headerText, hold]
        rfl
      refine ⟨t1, hstore, hroot.symm, hreceived.symm, ?_⟩
      rw [hp1.packets, hnone, List.nil_append]
    | some t0 =>
      obtain ⟨hr, hrr⟩ := hp3.roots t0 hold
      refine ⟨hr.symm, hrr.symm, ?_⟩
      rw [hroot]
      exact hmerged t0 hold
  · rw [hreceived3, ← hheap]
    exact hnode

/-- A log of exchanges is read to its end. -/
theorem exchanges_ok (exchanges : List (Exchange headerLength)) (hk : Kept headerLength commands s) (ac : ℤ)
    (hac : s.2.ac = ac.bmod (2 ^ 32)) :
    ∃ s', forM (exchanges.flatMap Exchange.lines) (parseLine headerLength) s = .ok () s' ∧
      Kept headerLength (commands ++ exchanges.map Exchange.command) s' ∧ Extends s.2 s'.2 ∧
      s'.2.ac = (ac + exchanges.length).bmod (2 ^ 32) := by
  induction exchanges generalizing s commands ac with
  | nil =>
    refine ⟨s, rfl, ?_, .refl _, ?_⟩
    · rw [List.map_nil, List.append_nil]
      exact hk
    · rw [hac, List.length_nil, Int.natCast_zero, Int.add_zero]
  | cons e exchanges ih =>
    obtain ⟨t, leaf, node, h, s1, hrun, hp, hac1, -, -⟩ := exchange_ok hk e
    rw [hac, Int.bmod_add_bmod] at hac1
    obtain ⟨s2, hrest, hk2, hext, hac2⟩ := ih (hp.kept hk) _ hac1
    refine ⟨s2, ?_, ?_, hp.extends.trans hext, ?_⟩
    · rw [List.flatMap_cons, List.forM_append]
      exact (bind_ok hrun).trans hrest
    · rw [List.append_assoc] at hk2
      exact hk2
    · have hsum : ac + 1 + exchanges.length = ac + (e :: exchanges).length := by
        rw [List.length_cons]
        omega
      rw [hac2, hsum]

/-- Only the roots of the tree matter. -/
theorem DataMerged.congr {t t' : Tree} {leaf : NodeId} (hd : DataMerged s e t leaf h)
    (hroot : t'.root = t.root)
    (hreceived : t'.receivedRoot = t.receivedRoot) : DataMerged s e t' leaf h := by
  unfold DataMerged at hd ⊢
  rw [hroot, hreceived]
  exact hd

/-- Every exchange of a log is recorded as what it is. The numbers are values
of an `int`. -/
theorem parseFile_records (hw : WellFormed h) (hlog : scannerLines text = exchanges.flatMap Exchange.lines)
    (hsplit : exchanges = before ++ e :: after) :
    RecordedAs (parseLines headerLength (before.flatMap Exchange.lines) (h, newParser))
      (parseFile headerLength text (h, newParser)).2 before e ((before.length + 1 : ℤ).bmod (2 ^ 32)) := by
  obtain ⟨s1, hrun1, hk1, -, hac1⟩ := exchanges_ok before (kept_newParser headerLength hw) 1 rfl
  obtain ⟨t, leaf, node, h1, s2, hrun2, hp, hac2, hdata, hresponse⟩ := exchange_ok hk1 e
  rw [hac1, Int.bmod_add_bmod] at hac2
  obtain ⟨s3, hrun3, -, hext, -⟩ := exchanges_ok after (hp.kept hk1) _ hac2
  obtain ⟨t', ht', hroot, hreceived, more, hmore⟩ := hext _ _ hp.tree
  have hbefore : parseLines headerLength (before.flatMap Exchange.lines) (h, newParser) = s1 := by
    rw [parseLines, hrun1]
    rfl
  have hfinal : parseFile headerLength text (h, newParser) = s3 := by
    rw [parseFile, hlog, hsplit, List.flatMap_append, List.flatMap_cons, parseLines, List.forM_append,
      List.forM_append, bind_ok hrun1, bind_ok hrun2, hrun3]
    rfl
  have hplace : (packetsOf s1.2 e.header).length = before.countP fun e' => e'.header == e.header := by
    rw [hk1.count, List.nil_append, List.countP_map]
    rfl
  rw [hbefore, hfinal]
  refine ⟨t', leaf, node, h1, s2.1, ht', ?_, hdata.congr hroot hreceived, ?_⟩
  · have hpackets : t.streamPackets = packetsOf s1.2 e.header ++ [⟨leaf, some node, e.time, s1.2.ac⟩] :=
      hp.packets
    rw [← hmore, hpackets, ← hplace, List.append_assoc, List.getElem?_append_right (Nat.le_refl _),
      Nat.sub_self, hac1, Int.add_comm]
    rfl
  · rw [hreceived]
    exact hresponse

/-- The text of a log of exchanges. -/
def logText (exchanges : List (Exchange headerLength)) : JavaString :=
  (exchanges.flatMap Exchange.lines).flatMap (· ++ ['\n'])

theorem scannerLines_logText (hlines : ∀ e ∈ exchanges, ∀ line ∈ e.lines, OneLine line) :
    scannerLines (logText exchanges) = exchanges.flatMap Exchange.lines := by
  refine scannerLines_lines fun line hline => ?_
  obtain ⟨e, he, hin⟩ := List.mem_flatMap.mp hline
  exact hlines e he line hin

/-- SELECT of a file, answered with success. -/
def selectFile : Exchange 4 where
  lead := ["SCardTransmit (handle 0xEA010000)#".toList, "apduCounter:0#".toList]
  commandText := (printHexBinary [0x00, 0xA4, 0x00, 0x00, 0x02, 0x3F, 0x00]).toList
  command := [0x00, 0xA4, 0x00, 0x00, 0x02, 0x3F, 0x00]
  afterCommand := []
  timeText := "12#".toList
  time := 12
  afterTime := ["SCardTransmit result:0x0#".toList]
  responseText := (printHexBinary [0x90, 0x00]).toList
  response := [0x90, 0x00]
  tail := [[]]
  command_text := hexText_printHexBinary _
  longer := by decide
  time_colon := by decide
  time_digits := by decide
  time_value := by decide
  time_lt := by decide
  response_text := hexText_printHexBinary _
  response_ne_nil := by decide
  others := by decide

/-- READ BINARY, answered with a byte. -/
def readBinary : Exchange 4 where
  lead := []
  commandText := (printHexBinary [0x00, 0xB0, 0x00, 0x00, 0x01]).toList
  command := [0x00, 0xB0, 0x00, 0x00, 0x01]
  afterCommand := []
  timeText := "5#".toList
  time := 5
  afterTime := []
  responseText := (printHexBinary [0x2A, 0x90, 0x00]).toList
  response := [0x2A, 0x90, 0x00]
  tail := [[]]
  command_text := hexText_printHexBinary _
  longer := by decide
  time_colon := by decide
  time_digits := by decide
  time_value := by decide
  time_lt := by decide
  response_text := hexText_printHexBinary _
  response_ne_nil := by decide
  others := by decide

theorem oneLine_selectFile : ∀ line ∈ selectFile.lines, OneLine line := by
  decide

theorem oneLine_readBinary : ∀ line ∈ readBinary.lines, OneLine line := by
  decide

/-- The third exchange has the second place in the tree of the first one. -/
theorem parseFile_records_three :
    RecordedAs (parseLines 4 ([selectFile, readBinary].flatMap Exchange.lines) ([], newParser))
      (parseFile 4 (logText [selectFile, readBinary, selectFile]) ([], newParser)).2
      [selectFile, readBinary] selectFile (([selectFile, readBinary].length + 1 : ℤ).bmod (2 ^ 32)) := by
  have hlines : ∀ e ∈ [selectFile, readBinary, selectFile], ∀ line ∈ e.lines, OneLine line := by
    simp only [List.forall_mem_cons]
    exact ⟨oneLine_selectFile, oneLine_readBinary, oneLine_selectFile, fun e he => absurd he List.not_mem_nil⟩
  exact parseFile_records WellFormed.nil (scannerLines_logText hlines) rfl

/-- The number of a packet is determined. -/
theorem RecordedAs.ac_unique {final : Parser} {m n : ℤ} (hm : RecordedAs s final before e m)
    (hn : RecordedAs s final before e n) : m = n := by
  obtain ⟨t, _, _, _, _, ht, hpacket, -⟩ := hm
  obtain ⟨t', _, _, _, _, ht', hpacket', -⟩ := hn
  cases ht.symm.trans ht'
  exact congrArg Packet.ac (Option.some.inj (hpacket.symm.trans hpacket'))

/-- The exchange after so many others that no `int` counts it. -/
theorem not_recordedAs_overflow (hlines : ∀ e' ∈ before ++ [e], ∀ line ∈ e'.lines, OneLine line)
    (hlen : before.length + 1 = 2 ^ 31) :
    ¬ RecordedAs (parseLines headerLength (before.flatMap Exchange.lines) ([], newParser))
      (parseFile headerLength (logText (before ++ [e])) ([], newParser)).2 before e (before.length + 1) := by
  intro hclaimed
  have hnumber := hclaimed.ac_unique (parseFile_records WellFormed.nil (scannerLines_logText hlines) rfl)
  have hcast : (before.length + 1 : ℤ) = 2 ^ 31 := by exact_mod_cast hlen
  rw [hcast] at hnumber
  revert hnumber
  decide

/-- Exchanges with two headers, one less than an `int` can count. -/
def longLog : List (Exchange 4) :=
  List.replicate (2 ^ 30) selectFile ++ List.replicate (2 ^ 30 - 1) readBinary

/-- The last exchange of a log with two headers gets another number. -/
theorem not_recordedAs_longLog :
    ¬ RecordedAs (parseLines 4 (longLog.flatMap Exchange.lines) ([], newParser))
      (parseFile 4 (logText (longLog ++ [readBinary])) ([], newParser)).2 longLog readBinary
      (longLog.length + 1) := by
  refine not_recordedAs_overflow (fun e he => ?_) ?_
  · rw [longLog, List.mem_append, List.mem_append, List.mem_replicate, List.mem_replicate,
      List.mem_singleton] at he
    rcases he with (⟨-, rfl⟩ | ⟨-, rfl⟩) | rfl
    · exact oneLine_selectFile
    · exact oneLine_readBinary
    · exact oneLine_readBinary
  · have hlen : longLog.length = 2 ^ 30 + (2 ^ 30 - 1) := by
      rw [longLog, List.length_append, List.length_replicate, List.length_replicate]
    omega

end ApduPlay.LogExchanges
