import ApduPlay.AnalyzedOutputs

/-!
# The files that are written

For every output in the settings files are written, one for all headers or one for each. An
exception ends the file it is raised in and is logged; the files behind it are written all
the same. So the files can be told from the exchanges in the log.
-/

namespace ApduPlay.WrittenFiles

open ExceptionRuns TreeTraversal LogParser PacketNode PacketTree LinkedTrees SimplifiedTrees NodesGraph
open RecordedLogs LogSizes OutputFunctions PrintedOutputs AnalyzedOutputs
open PacketGraph (HashOrder WriterM decimal)

/-- One of the two directions. -/
inductive Half
  | transmitted
  | received
  deriving DecidableEq, Repr

/-- The direction in the name of a file. -/
def Half.name : Half → JavaString
  | transmitted => "transmitted".toList
  | received => "received".toList

/-- The function of an output for a direction. -/
def Half.function (half : Half) (function : OutputFunction) : Option (Tree → FileM Unit) :=
  match half with
  | transmitted => function.transmittedFunction
  | received => function.receivedFunction

/-- The outputs whose bit is set. -/
def outputTypes (settings : Settings) : List OutputType :=
  types.filter fun type => settings.outputTypeMask &&& type.bit ≠ 0

/-- `getOutputFunctions` -/
def getOutputFunctions (settings : Settings) (env : Environment) : List OutputFunction :=
  (outputTypes settings).map (OutputType.function settings env)

/-- A line of the settings of graphs, unless its value is null. -/
def printSetting (before after : String) : Option JavaString → WriterM Unit
  | none => pure ()
  | some value => printLine (before.toList ++ value ++ after.toList)

/-- `printGraphSettings` -/
def printGraphSettings (settings : Settings) : WriterM Unit := do
  printSetting "\trankdir=" ";" settings.rankDir
  printSetting "\tsize=\"" "\";" settings.size
  printSetting "\tnode [" "];" settings.nodeAttributes

/-- The beginning of a graph. -/
def printBegin (settings : Settings) (wrapGraphvizOutput : Bool) (title : JavaString) : WriterM Unit :=
  if wrapGraphvizOutput then do
    printLine ("digraph ".toList ++ title ++ " \x7b".toList)
    printGraphSettings settings
  else pure ()

/-- The end of a graph. -/
def printEnd (wrapGraphvizOutput : Bool) : WriterM Unit :=
  if wrapGraphvizOutput then printLine ['}'] else pure ()

/-- What a file gets. -/
def printTrees (settings : Settings) (wrapGraphvizOutput : Bool) (title : JavaString) (trees : List Tree)
    (print : Tree → FileM Unit) : FileM Unit := do
  ofWriter (printBegin settings wrapGraphvizOutput title)
  trees.forM print
  ofWriter (printEnd wrapGraphvizOutput)

/-- A file with what was written to it. -/
structure OutputFile where
  /-- Its path. -/
  name : JavaString
  /-- Its lines. -/
  lines : List JavaString
  /-- The exception that ended it, if one did. -/
  exception : Option JavaException

/-- What the logger gets. -/
inductive Logged
  | fileNotFound
  | raised (e : JavaException)
  deriving DecidableEq

/-- The nodes, the number of the next flow, the files and the exceptions that were logged. -/
structure WriterState where
  /-- The nodes. -/
  heap : Heap
  /-- `flowIndex` -/
  flowIndex : ℕ
  /-- The files. -/
  files : List OutputFile
  /-- What the logger got. -/
  errors : List Logged

/-- The `try` statement of a file. -/
def writeFile (env : Environment) (name : JavaString) (content : FileM Unit)
    (s : WriterState) : WriterState :=
  if env.creates name then
    match content ⟨s.heap, s.flowIndex, []⟩ with
    | .ok _ r => ⟨r.heap, r.flowIndex, s.files ++ [⟨name, r.lines, none⟩], s.errors⟩
    | .error e r => ⟨r.heap, r.flowIndex, s.files ++ [⟨name, r.lines, some e⟩], s.errors ++ [.raised e]⟩
  else { s with errors := s.errors ++ [.fileNotFound] }

/-- The file of a direction, if the output has a function for it. -/
def writeHalf (settings : Settings) (env : Environment) (function : OutputFunction) (half : Half)
    (name title : JavaString) (trees : List Tree) (s : WriterState) : WriterState :=
  match half.function function with
  | none => s
  | some print => writeFile env name (printTrees settings function.wrapGraphvizOutput title trees print) s

/-- The path of a file, with the number of its output. -/
def fileName (directoryPath name : JavaString) (half : Half) (i : ℕ) : JavaString :=
  directoryPath ++ "/".toList ++ name ++ "_".toList ++ half.name ++ "(".toList ++ decimal i ++ ").dot".toList

/-- `writeInOneFile` -/
def writeInOneFile (settings : Settings) (env : Environment) (packets : List Tree)
    (directoryPath : JavaString)
    (s : WriterState) : WriterState :=
  let write (function : OutputFunction) (half : Half) (i : ℕ) :=
    writeHalf settings env function half (fileName directoryPath "packets".toList half i)
      "packets".toList packets
  (getOutputFunctions settings env).zipIdx.foldl
    (fun s item => write item.1 .received item.2 (write item.1 .transmitted item.2 s)) s

/-- `writeSeparated` -/
def writeSeparated (settings : Settings) (env : Environment) (packets : List Tree)
    (directoryPath : JavaString)
    (s : WriterState) : WriterState :=
  let write (function : OutputFunction) (half : Half) (i : ℕ) (tree : Tree) :=
    writeHalf settings env function half (fileName directoryPath tree.header.toList half i) half.name [tree]
  (getOutputFunctions settings env).zipIdx.foldl
    (fun s item => packets.foldl
      (fun s tree => write item.1 .received item.2 tree (write item.1 .transmitted item.2 tree s)) s) s

/-- The first part of `write`, whose exceptions are not caught. -/
def simplifyPackets (settings : Settings) (env : Environment) (packets : List Tree) : JavaM Unit :=
  if settings.simpleNodes then packets.forM (simplifyNodes env.hash) else pure ()

/-- `write`. The number of the next flow is kept between writers. -/
def write (settings : Settings) (env : Environment) (packets : List Tree) (flowIndex : ℕ) :
    JavaM WriterState := do
  simplifyPackets settings env packets
  let directoryPath := env.absolutePath settings.outputDirectory
  let s : WriterState := ⟨← get, flowIndex, [], []⟩
  let s := if settings.separatePackets then writeSeparated settings env packets directoryPath s
    else writeInOneFile settings env packets directoryPath s
  set s.heap
  return s

/-- `printData`, of a parser with its nodes. -/
def printData (settings : Settings) (env : Environment) (flowIndex : ℕ) (s : Heap × Parser) :
    EStateM.Result JavaException Heap WriterState :=
  write settings env ((env.hash.order s.2.packets.entries).map Sigma.snd) flowIndex s.1

/-- A file that is to be written. -/
structure PlannedFile where
  /-- Its path. -/
  name : JavaString
  /-- The name of its graph. -/
  title : JavaString
  /-- The output. -/
  type : OutputType
  /-- The direction. -/
  half : Half
  /-- The headers in it. -/
  headers : List (List UInt8)

/-- The directions of an output. -/
def OutputType.halves : OutputType → List Half
  | .nodes => [.transmitted, .received]
  | .flow => [.transmitted, .received]
  | .packets => [.transmitted]
  | .packetsAnalyzed => [.transmitted]
  | .packetsAnalyzedText => [.transmitted]

/-- The files for all headers together. -/
def plannedInOneFile (settings : Settings) (directoryPath : JavaString) (headers : List (List UInt8)) :
    List PlannedFile :=
  (outputTypes settings).zipIdx.flatMap fun item => (OutputType.halves item.1).map fun half =>
    ⟨fileName directoryPath "packets".toList half item.2, "packets".toList, item.1, half, headers⟩

/-- The files for each header. -/
def plannedSeparated (settings : Settings) (directoryPath : JavaString) (headers : List (List UInt8)) :
    List PlannedFile :=
  (outputTypes settings).zipIdx.flatMap fun item => headers.flatMap fun header =>
    (OutputType.halves item.1).map fun half =>
      ⟨fileName directoryPath (printHexBinary header).toList half item.2, half.name, item.1, half, [header]⟩

/-- The files that the settings ask for. -/
def plannedFiles (settings : Settings) (env : Environment) (headers : List (List UInt8)) : List PlannedFile :=
  let directoryPath := env.absolutePath settings.outputDirectory
  if settings.separatePackets then plannedSeparated settings directoryPath headers
  else plannedInOneFile settings directoryPath headers

/-- What went in a direction. -/
def Half.streams : Half → List LogExchange → List (List UInt8)
  | transmitted, exchanges => exchanges.map LogExchange.data
  | received, exchanges => exchanges.flatMap LogExchange.answers

/-- An output can show these exchanges: the nodes and the flow are always shown, the packets only
if no answer is missing or headers are empty, and the analysed packets only if none is missing. -/
def CanShow (settings : Settings) (exchanges : List LogExchange) : OutputType → Prop
  | .nodes => True
  | .flow => True
  | .packets => settings.headerLength = 0 ∨ ∀ e ∈ exchanges, e.answers ≠ []
  | .packetsAnalyzed => ∀ e ∈ exchanges, e.answers ≠ []
  | .packetsAnalyzedText => ∀ e ∈ exchanges, e.answers ≠ []

/-- A file can be written to its end. -/
def PlannedFile.CanEnd (settings : Settings) (exchangesOf : List UInt8 → List LogExchange)
    (planned : PlannedFile) : Prop :=
  ∀ header ∈ planned.headers, CanShow settings (exchangesOf header) planned.type

/-- Lines that an output has for a tree. Those of the nodes show what went in the direction, as long as
the numbers of nodes do not begin again. -/
def ShowsTree (settings : Settings) (nodes : ℕ) (type : OutputType) (half : Half) (header : List UInt8)
    (exchanges : List LogExchange) (lines : List JavaString) : Prop :=
  type = .nodes → nodes ≤ 2 ^ 31 → ShowsStreams settings.graph header (half.streams exchanges) lines

/-- The line of a setting. -/
def settingLines (before after : String) (value : Option JavaString) : List JavaString :=
  value.toList.map fun value => before.toList ++ value ++ after.toList

/-- The lines before those of the trees. -/
def beginLines (settings : Settings) (wrapGraphvizOutput : Bool) (title : JavaString) : List JavaString :=
  if wrapGraphvizOutput then
    ("digraph ".toList ++ title ++ " \x7b".toList) :: (settingLines "\trankdir=" ";" settings.rankDir ++
      settingLines "\tsize=\"" "\";" settings.size ++ settingLines "\tnode [" "];" settings.nodeAttributes)
  else []

/-- The line behind them. -/
def endLines (wrapGraphvizOutput : Bool) : List JavaString := if wrapGraphvizOutput then [['}']] else []

/-- An output is that of a graph. -/
def isGraph (type : OutputType) : Bool := type ≠ .packetsAnalyzedText

/-- A file has been written as planned, and there are so many nodes. -/
structure IsWritten (settings : Settings) (nodes : ℕ) (exchangesOf : List UInt8 → List LogExchange)
    (planned : PlannedFile) (file : OutputFile) : Prop where
  /-- It has the name. -/
  name : file.name = planned.name
  /-- It was written to its end if that can be done. -/
  ends : file.exception = none ↔ planned.CanEnd settings exchangesOf
  /-- It begins as its kind does. -/
  starts : beginLines settings (isGraph planned.type) planned.title <+: file.lines
  /-- At its end it has shown all headers one after the other. -/
  shows : file.exception = none → ∃ bodies : List (List JavaString),
    file.lines = beginLines settings (isGraph planned.type) planned.title ++ bodies.flatten ++
      endLines (isGraph planned.type) ∧
    List.Forall₂ (fun header =>
      ShowsTree settings nodes planned.type planned.half header (exchangesOf header)) planned.headers bodies

/-- What the output of a tree does. -/
structure PrintsTree (settings : Settings) (type : OutputType) (half : Half) (header : List UInt8)
    (exchanges : List LogExchange) (print : FileM Unit) (s : FileState) : Prop where
  /-- It adds nodes and lines. -/
  adds : AddsTo s (endState (print s))
  /-- It ends if the output can show the exchanges. -/
  ends : Ends print s ↔ CanShow settings exchanges type
  /-- Its lines. -/
  shows : Ends print s → ∃ lines, (endState (print s)).lines = s.lines ++ lines ∧
    ShowsTree settings (endState (print s)).heap.length type half header exchanges lines

variable {settings : Settings} {env : Environment} {h h' : Heap} {s s' : FileState} {t : Tree}
  {type : OutputType} {half : Half} {header : List UInt8} {exchanges : List LogExchange}
    {print : Tree → FileM Unit}
  {sep : Char}

/-- More nodes do not matter for what is shown. -/
theorem ShowsTree.of_le {nodes nodes' : ℕ} {lines : List JavaString}
    (hshows : ShowsTree settings nodes type half header exchanges lines) (hle : nodes ≤ nodes') :
    ShowsTree settings nodes' type half header exchanges lines :=
  fun htype hnodes => hshows htype (hle.trans hnodes)

/-- An output that ends as it is shows the exchanges. -/
theorem printsTree_of_ok {m : FileM Unit} {flowIndex : ℕ} {lines : List JavaString}
    (hrun : m s = .ok () ⟨s.heap, flowIndex, s.lines ++ lines⟩) (hcan : CanShow settings exchanges type)
    (hshows : ShowsTree settings s.heap.length type half header exchanges lines) :
    PrintsTree settings type half header exchanges m s where
  adds := by
    rw [hrun]
    exact ⟨List.prefix_rfl, List.prefix_append _ _⟩
  ends := iff_of_true ⟨_, _, hrun⟩ hcan
  shows _ := by
    rw [hrun]
    exact ⟨lines, rfl, hshows⟩

/-- One that ends when it can does so as well, unless nodes are shown. -/
theorem printsTree_of_ends {m : FileM Unit} (hadds : Advances AddsTo m)
    (hends : Ends m s ↔ CanShow settings exchanges type) (hne : type ≠ .nodes) :
    PrintsTree settings type half header exchanges m s where
  adds := hadds s
  ends := hends
  shows _ := by
    obtain ⟨lines, hlines⟩ := (hadds s).2
    exact ⟨lines, hlines.symm, fun heq => absurd heq hne⟩

/-- Every output does so for a tree that has recorded exchanges. -/
theorem printsTree (env : Environment) (hsep : settings.bytesSeparator = some [sep])
    (hprint : half.function (type.function settings env) = some print)
    (ht : HoldsTree settings.headerLength s.heap t header exchanges) :
    PrintsTree settings type half header exchanges (print t) s := by
  cases type with
  | nodes =>
    cases half with
    | transmitted =>
      cases hprint
      obtain ⟨lines, hrun, hshows⟩ := printTransmitted_ok env hsep ht
      exact printsTree_of_ok hrun trivial fun _ => hshows
    | received =>
      cases hprint
      obtain ⟨lines, hrun, hshows⟩ := printReceived_ok env hsep ht
      exact printsTree_of_ok hrun trivial fun _ => hshows
  | flow =>
    cases half with
    | transmitted =>
      cases hprint
      obtain ⟨flowIndex, lines, hrun⟩ :=
        printFlow_ok env ht.sent.linked (ht.nodesLabelled hsep).1 t.packetsCount
      exact printsTree_of_ok hrun trivial fun heq => by cases heq
    | received =>
      cases hprint
      obtain ⟨flowIndex, lines, hrun⟩ :=
        printFlow_ok env ht.received.linked (ht.nodesLabelled hsep).2 t.packetsCount
      exact printsTree_of_ok hrun trivial fun heq => by cases heq
  | packets =>
    cases half with
    | transmitted =>
      cases hprint
      exact printsTree_of_ends (advances_ofWriter (advances_printPackets _ _ _))
        (ends_ofWriter_iff.trans (ends_printPackets_iff env hsep ht s.lines)) (by decide)
    | received => cases hprint
  | packetsAnalyzed =>
    cases half with
    | transmitted =>
      cases hprint
      exact printsTree_of_ends (advances_ofWriter (advances_printAnalyzedPackets settings env t))
        (ends_ofWriter_iff.trans (ends_printAnalyzedPackets_iff env hsep ht s.lines)) (by decide)
    | received => cases hprint
  | packetsAnalyzedText =>
    cases half with
    | transmitted =>
      cases hprint
      exact printsTree_of_ends (advances_ofWriter (advances_printAnalyzedPacketsAsText settings env t))
        (ends_ofWriter_iff.trans (ends_printAnalyzedPacketsAsText_iff env hsep ht s.lines)) (by decide)
    | received => cases hprint

/-- What the output of the trees of some headers does. -/
structure PrintsTrees (settings : Settings) (type : OutputType) (half : Half)
    (exchangesOf : List UInt8 → List LogExchange) (headers : List (List UInt8)) (print : FileM Unit)
    (s : FileState) : Prop where
  /-- It adds nodes and lines. -/
  adds : AddsTo s (endState (print s))
  /-- It ends if the exchanges of all headers can be shown. -/
  ends : Ends print s ↔ ∀ header ∈ headers, CanShow settings (exchangesOf header) type
  /-- The lines of the headers. -/
  shows : Ends print s → ∃ bodies : List (List JavaString),
    (endState (print s)).lines = s.lines ++ bodies.flatten ∧
    List.Forall₂ (fun header =>
      ShowsTree settings (endState (print s)).heap.length type half header (exchangesOf header))
      headers bodies

variable {exchangesOf : List UInt8 → List LogExchange} {headers : List (List UInt8)}
  {treeOf : List UInt8 → Tree}
  {planned : PlannedFile} {plan : List PlannedFile} {w : WriterState}

/-- The trees are shown one after the other, up to one that cannot be shown. -/
theorem printsTrees (hprint : ∀ header ∈ headers, ∀ s : FileState, h <+: s.heap →
      PrintsTree settings type half header (exchangesOf header) (print (treeOf header)) s)
        (hs : h <+: s.heap) :
    PrintsTrees settings type half exchangesOf headers ((headers.map treeOf).forM print) s := by
  induction headers generalizing s with
  | nil =>
    refine ⟨Std.Refl.refl s, iff_of_true ⟨(), s, rfl⟩ (List.forall_mem_nil _), fun _ => ⟨[], ?_, .nil⟩⟩
    exact (List.append_nil s.lines).symm
  | cons header headers ih =>
    obtain ⟨hfirst, hrest⟩ := List.forall_mem_cons.mp hprint
    have htree := hfirst s hs
    rw [List.map_cons, forM_cons]
    cases hrun : print (treeOf header) s with
    | ok u s₁ =>
      have hadds := htree.adds
      obtain ⟨lines, hlines, hshows⟩ := htree.shows ⟨u, s₁, hrun⟩
      rw [hrun] at hadds hlines
      have htrees : PrintsTrees settings type half exchangesOf headers ((headers.map treeOf).forM print) s₁ :=
        ih hrest (hs.trans hadds.1)
      have hcan : CanShow settings (exchangesOf header) type := htree.ends.mp ⟨u, s₁, hrun⟩
      refine ⟨?_, ?_, fun hends => ?_⟩
      · rw [bind_ok hrun]
        exact IsTrans.trans _ _ _ hadds htrees.adds
      · rw [List.forall_mem_cons, and_iff_right hcan, ← htrees.ends, Ends, bind_ok hrun]
        rfl
      · rw [Ends, bind_ok hrun] at hends
        obtain ⟨bodies, hbodies, hall⟩ := htrees.shows hends
        rw [hrun] at hshows
        rw [bind_ok hrun]
        refine ⟨lines :: bodies, ?_, .cons (hshows.of_le htrees.adds.1.length_le) hall⟩
        rw [hbodies, List.flatten_cons, ← List.append_assoc]
        exact congrArg (· ++ bodies.flatten) hlines
    | error e s₁ =>
      have hadds := htree.adds
      rw [hrun] at hadds
      have hfail := bind_error (f := fun _ => (headers.map treeOf).forM print) hrun
      have hcannot : ¬ CanShow settings (exchangesOf header) type :=
        mt htree.ends.mpr (not_ends_of_error hrun)
      refine ⟨?_, iff_of_false (not_ends_of_error hfail) fun hall => hcannot (hall _ List.mem_cons_self),
        fun hends => absurd hends (not_ends_of_error hfail)⟩
      rw [hfail]
      exact hadds

/-- A setting has a line unless it is null. -/
theorem printSetting_ok (before after : String) (value : Option JavaString) (h : Heap)
    (lines : List JavaString) :
    printSetting before after value (h, lines) = .ok () (h, lines ++ settingLines before after value) := by
  cases value with
  | none =>
    rw [settingLines, Option.toList_none, List.map_nil, List.append_nil]
    rfl
  | some value => rfl

/-- The settings of graphs are written one after the other. -/
theorem printGraphSettings_ok (settings : Settings) (h : Heap) (lines : List JavaString) :
    printGraphSettings settings (h, lines) = .ok () (h, lines ++
      (settingLines "\trankdir=" ";" settings.rankDir ++ settingLines "\tsize=\"" "\";" settings.size ++
        settingLines "\tnode [" "];" settings.nodeAttributes)) := by
  refine (bind_ok (printSetting_ok _ _ _ h lines)).trans ((bind_ok (printSetting_ok _ _ _ _ _)).trans
    ((printSetting_ok _ _ _ _ _).trans ?_))
  simp only [List.append_assoc]

/-- A graph has a beginning. -/
theorem printBegin_ok (settings : Settings) (wrapGraphvizOutput : Bool) (title : JavaString) (s : FileState) :
    ofWriter (printBegin settings wrapGraphvizOutput title) s =
      .ok () { s with lines := s.lines ++ beginLines settings wrapGraphvizOutput title } := by
  refine ofWriter_ok ?_
  cases wrapGraphvizOutput with
  | false =>
    rw [beginLines, if_neg Bool.false_ne_true, List.append_nil]
    rfl
  | true =>
    have hline : printLine ("digraph ".toList ++ title ++ " \x7b".toList) (s.heap, s.lines) =
        .ok () (s.heap, s.lines ++ ["digraph ".toList ++ title ++ " \x7b".toList]) := rfl
    refine (bind_ok hline).trans ((printGraphSettings_ok settings _ _).trans ?_)
    rw [beginLines, if_pos rfl]
    simp only [List.append_assoc, List.singleton_append]

/-- It has an end. -/
theorem printEnd_ok (wrapGraphvizOutput : Bool) (s : FileState) :
    ofWriter (printEnd wrapGraphvizOutput) s =
      .ok () { s with lines := s.lines ++ endLines wrapGraphvizOutput } := by
  refine ofWriter_ok ?_
  cases wrapGraphvizOutput with
  | false =>
    rw [endLines, if_neg Bool.false_ne_true, List.append_nil]
    rfl
  | true => rfl

/-- What is written to a file. -/
structure WritesFile (settings : Settings) (exchangesOf : List UInt8 → List LogExchange)
    (planned : PlannedFile) (content : FileM Unit) (s : FileState) : Prop where
  /-- Nodes are only added. -/
  adds : s.heap <+: (endState (content s)).heap
  /-- It ends if all headers can be shown. -/
  ends : Ends content s ↔ planned.CanEnd settings exchangesOf
  /-- It begins as its kind does. -/
  starts : beginLines settings (isGraph planned.type) planned.title <+: (endState (content s)).lines
  /-- At its end it has shown all headers. -/
  shows : Ends content s → ∃ bodies : List (List JavaString),
    (endState (content s)).lines = beginLines settings (isGraph planned.type) planned.title ++
      bodies.flatten ++
      endLines (isGraph planned.type) ∧
    List.Forall₂ (fun header => ShowsTree settings (endState (content s)).heap.length planned.type
      planned.half header (exchangesOf header)) planned.headers bodies

/-- The lines of the trees are put between those of the graph. -/
theorem printTrees_writes (flowIndex : ℕ)
    (htrees : ∀ s : FileState, s.heap = h → PrintsTrees settings planned.type planned.half exchangesOf
      planned.headers ((planned.headers.map treeOf).forM print) s) :
    WritesFile settings exchangesOf planned
      (printTrees settings (isGraph planned.type) planned.title (planned.headers.map treeOf) print)
      ⟨h, flowIndex, []⟩ := by
  let s : FileState := ⟨h, flowIndex, beginLines settings (isGraph planned.type) planned.title⟩
  have hall := htrees s rfl
  have hrun : printTrees settings (isGraph planned.type) planned.title (planned.headers.map treeOf) print
      ⟨h, flowIndex, []⟩ = ((planned.headers.map treeOf).forM print >>= fun _ =>
        ofWriter (printEnd (isGraph planned.type))) s :=
    bind_ok (printBegin_ok _ _ _ _)
  have hadds := hall.adds
  cases hbody : (planned.headers.map treeOf).forM print s with
  | error e s₁ =>
    rw [hbody] at hadds
    have hfail := hrun.trans (bind_error hbody)
    have hcannot := mt hall.ends.mpr (not_ends_of_error hbody)
    refine ⟨?_, iff_of_false (not_ends_of_error hfail) hcannot, ?_, fun hends =>
      absurd hends (not_ends_of_error hfail)⟩
    · rw [hfail]
      exact hadds.1
    · rw [hfail]
      exact hadds.2
  | ok u s₁ =>
    have hends : Ends ((planned.headers.map treeOf).forM print) s := ⟨u, s₁, hbody⟩
    obtain ⟨bodies, hlines, hbodies⟩ := hall.shows hends
    rw [hbody] at hadds hlines
    rw [hbody] at hbodies
    have hok := hrun.trans ((bind_ok hbody).trans (printEnd_ok _ _))
    refine ⟨?_, iff_of_true ⟨(), _, hok⟩ (hall.ends.mp hends), ?_, fun _ => ?_⟩
    · rw [hok]
      exact hadds.1
    · rw [hok]
      exact hadds.2.trans (List.prefix_append _ _)
    · rw [hok]
      exact ⟨bodies, congrArg (· ++ endLines (isGraph planned.type)) hlines, hbodies⟩

/-- Write a planned file. -/
def writePlanned (settings : Settings) (env : Environment) (treeOf : List UInt8 → Tree) (w : WriterState)
    (planned : PlannedFile) : WriterState :=
  writeHalf settings env (planned.type.function settings env) planned.half planned.name planned.title
    (planned.headers.map treeOf) w

/-- The trees of the headers of a file have recorded their exchanges. -/
structure Plannable (settings : Settings) (exchangesOf : List UInt8 → List LogExchange)
    (treeOf : List UInt8 → Tree) (h : Heap) (planned : PlannedFile) : Prop where
  /-- The output has this direction. -/
  half : planned.half ∈ OutputType.halves planned.type
  /-- The trees are there. -/
  trees : ∀ header ∈ planned.headers,
    HoldsTree settings.headerLength h (treeOf header) header (exchangesOf header)

/-- An output has functions for its directions. -/
theorem isSome_function (settings : Settings) (env : Environment) (type : OutputType) (half : Half) :
    (half.function (type.function settings env)).isSome = decide (half ∈ OutputType.halves type) := by
  cases type <;> cases half <;> rfl

/-- So there is a function for each of these. -/
theorem exists_print (settings : Settings) (env : Environment) (hhalf : half ∈ OutputType.halves type) :
    ∃ print, half.function (type.function settings env) = some print :=
  Option.isSome_iff_exists.mp ((isSome_function settings env type half).trans (decide_eq_true hhalf))

/-- More nodes do not matter for what is shown. -/
theorem IsWritten.of_le {nodes nodes' : ℕ} {file : OutputFile}
    (hfile : IsWritten settings nodes exchangesOf planned file) (hle : nodes ≤ nodes') :
    IsWritten settings nodes' exchangesOf planned file :=
  { hfile with
    shows := fun hnone =>
      have ⟨bodies, hlines, hbodies⟩ := hfile.shows hnone
      ⟨bodies, hlines, hbodies.imp fun _ _ hshows => hshows.of_le hle⟩ }

/-- One file is written, or it cannot be created. -/
theorem writePlanned_step (env : Environment) (hsep : settings.bytesSeparator = some [sep])
    (hplanned : Plannable settings exchangesOf treeOf h planned) (hw : h <+: w.heap) :
    w.heap <+: (writePlanned settings env treeOf w planned).heap ∧
      ((env.creates planned.name = true ∧
          ∃ file, IsWritten settings (writePlanned settings env treeOf w planned).heap.length exchangesOf
              planned file ∧
            (writePlanned settings env treeOf w planned).files = w.files ++ [file] ∧
            (writePlanned settings env treeOf w planned).errors =
              w.errors ++ file.exception.toList.map .raised) ∨
        (env.creates planned.name = false ∧ (writePlanned settings env treeOf w planned).files = w.files ∧
          (writePlanned settings env treeOf w planned).errors = w.errors ++ [.fileNotFound])) := by
  obtain ⟨print, hprint⟩ := exists_print settings env hplanned.half
  have hgraph : (planned.type.function settings env).wrapGraphvizOutput = isGraph planned.type := by
    cases planned.type <;> rfl
  have hwrite : writePlanned settings env treeOf w planned = writeFile env planned.name
      (printTrees settings (isGraph planned.type) planned.title (planned.headers.map treeOf) print) w := by
    rw [writePlanned, writeHalf, hprint, hgraph]
  have hfile : WritesFile settings exchangesOf planned
      (printTrees settings (isGraph planned.type) planned.title (planned.headers.map treeOf) print)
      ⟨w.heap, w.flowIndex, []⟩ :=
    printTrees_writes w.flowIndex fun s hs => printsTrees (h := w.heap)
      (fun header hheader s hs => printsTree env hsep hprint
        ((hplanned.trees header hheader).of_added (hw.trans hs))) (hs ▸ List.prefix_rfl)
  have hadds := hfile.adds
  have hstarts := hfile.starts
  rw [hwrite, writeFile]
  split_ifs with hcreates
  · cases hrun : printTrees settings (isGraph planned.type) planned.title (planned.headers.map treeOf) print
        ⟨w.heap, w.flowIndex, []⟩ with
    | ok u r =>
      have hshows := hfile.shows ⟨u, r, hrun⟩
      rw [hrun] at hadds hstarts hshows
      refine ⟨hadds, Or.inl ⟨hcreates, _, ⟨rfl, ?_, hstarts, fun _ => hshows⟩, rfl, ?_⟩⟩
      · exact iff_of_true rfl (hfile.ends.mp ⟨u, r, hrun⟩)
      · exact (List.append_nil w.errors).symm
    | error e r =>
      rw [hrun] at hadds hstarts
      have hcannot := mt hfile.ends.mpr (not_ends_of_error hrun)
      refine ⟨hadds, Or.inl ⟨hcreates, _, ⟨rfl, ?_, hstarts, fun hnone => ?_⟩, rfl, rfl⟩⟩
      · exact iff_of_false (Option.some_ne_none e) hcannot
      · cases hnone
  · exact ⟨List.prefix_rfl, Or.inr ⟨Bool.eq_false_iff.mpr hcreates, rfl, rfl⟩⟩

/-- All files are written. What is logged are the exceptions that ended files, and that the others
could not be created. -/
theorem writePlanned_run (env : Environment) (hsep : settings.bytesSeparator = some [sep])
    (hplan : ∀ planned ∈ plan, Plannable settings exchangesOf treeOf h planned) (hw : h <+: w.heap) :
    w.heap <+: (plan.foldl (writePlanned settings env treeOf) w).heap ∧
      ∃ files, (plan.foldl (writePlanned settings env treeOf) w).files = w.files ++ files ∧
        List.Forall₂ (IsWritten settings (plan.foldl (writePlanned settings env treeOf) w).heap.length
          exchangesOf) (plan.filter fun planned => env.creates planned.name) files ∧
        (plan.foldl (writePlanned settings env treeOf) w).errors.Perm (w.errors ++
          (List.replicate (plan.countP fun planned => !env.creates planned.name) .fileNotFound ++
            (files.filterMap OutputFile.exception).map .raised)) := by
  induction plan generalizing w with
  | nil => exact ⟨List.prefix_rfl, [], (List.append_nil _).symm, .nil, by simp⟩
  | cons planned plan ih =>
    obtain ⟨hfirst, hrest⟩ := List.forall_mem_cons.mp hplan
    obtain ⟨hheap, ⟨hcreates, file, hfile, hfiles, herrors⟩ | ⟨hcreates, hfiles, herrors⟩⟩ :=
      writePlanned_step env hsep hfirst hw
    · obtain ⟨hmore, files, hall, hwritten, hlogged⟩ := ih hrest (hw.trans hheap)
      have hcount : (planned :: plan).countP (fun planned => !env.creates planned.name) =
          plan.countP fun planned => !env.creates planned.name :=
        List.countP_cons_of_neg (by simp [hcreates])
      have hexceptions : ((file :: files).filterMap OutputFile.exception).map Logged.raised =
          file.exception.toList.map .raised ++ (files.filterMap OutputFile.exception).map .raised := by
        rw [List.filterMap_cons]
        cases file.exception <;> rfl
      refine ⟨hheap.trans hmore, file :: files, ?_, ?_, ?_⟩
      · rw [List.foldl_cons, hall, hfiles, List.append_assoc, List.singleton_append]
      · rw [List.filter_cons_of_pos (p := fun planned : PlannedFile => env.creates planned.name) hcreates]
        exact .cons (hfile.of_le hmore.length_le) hwritten
      · rw [hcount, hexceptions]
        rw [herrors, List.append_assoc] at hlogged
        exact hlogged.trans ((List.perm_append_comm_assoc _ _ _).append_left w.errors)
    · obtain ⟨hmore, files, hall, hwritten, hlogged⟩ := ih hrest (hw.trans hheap)
      have hcount : (planned :: plan).countP (fun planned => !env.creates planned.name) =
          (plan.countP fun planned => !env.creates planned.name) + 1 :=
        List.countP_cons_of_pos (by simp [hcreates])
      refine ⟨hheap.trans hmore, files, ?_, ?_, ?_⟩
      · rw [List.foldl_cons, hall, hfiles]
      · rwa [List.filter_cons_of_neg (p := fun planned : PlannedFile => env.creates planned.name)
          (ne_true_of_eq_false hcreates)]
      · rw [hcount, List.replicate_succ]
        rw [herrors, List.append_assoc] at hlogged
        exact hlogged

/-- The loops over the outputs write the files of the plan. -/
theorem writeHalves_eq (settings : Settings) (env : Environment) (type : OutputType)
    (name title : Half → JavaString)
    (trees : List Tree) (w : WriterState) :
    writeHalf settings env (type.function settings env) .received (name .received) (title .received) trees
        (writeHalf settings env (type.function settings env) .transmitted (name .transmitted)
          (title .transmitted)
          trees w) =
      (OutputType.halves type).foldl (fun w half =>
        writeHalf settings env (type.function settings env) half (name half) (title half) trees w) w := by
  cases type <;> rfl

theorem writeInOneFile_eq (settings : Settings) (env : Environment) (directoryPath : JavaString)
    (w : WriterState) :
    writeInOneFile settings env (headers.map treeOf) directoryPath w =
      (plannedInOneFile settings directoryPath headers).foldl (writePlanned settings env treeOf) w := by
  rw [writeInOneFile, getOutputFunctions, List.zipIdx_map, List.foldl_map, plannedInOneFile,
    List.foldl_flatMap]
  refine List.foldl_ext _ _ w fun w item _ => ?_
  rw [List.foldl_map]
  exact writeHalves_eq settings env item.1 (fun half => fileName directoryPath "packets".toList half item.2)
    (fun _ => "packets".toList) (headers.map treeOf) w

theorem writeSeparated_eq (settings : Settings) (env : Environment) (directoryPath : JavaString)
    (w : WriterState)
    (hname : ∀ header ∈ headers, (treeOf header).header = printHexBinary header) :
    writeSeparated settings env (headers.map treeOf) directoryPath w =
      (plannedSeparated settings directoryPath headers).foldl (writePlanned settings env treeOf) w := by
  rw [writeSeparated, getOutputFunctions, List.zipIdx_map, List.foldl_map, plannedSeparated,
    List.foldl_flatMap]
  refine List.foldl_ext _ _ w fun w item _ => ?_
  rw [List.foldl_map, List.foldl_flatMap]
  refine List.foldl_ext _ _ w fun w header hheader => ?_
  rw [List.foldl_map, ← hname header hheader]
  exact writeHalves_eq settings env item.1
    (fun half => fileName directoryPath (treeOf header).header.toList half item.2)
    Half.name [treeOf header] w

/-- Trees of different headers have no node in common. -/
theorem not_reachable_of_header_ne {root root' i : NodeId} {header' : List UInt8}
    {streams streams' : List (List UInt8)} (hs : Shown h root header streams)
      (hs' : Shown h root' header' streams')
    (hne : header' ≠ header) (hi : Reachable (childIds h) root' i) : ¬ Reachable (childIds h) root i := by
  intro hi'
  obtain rfl := hs.linked.root_unique hs'.linked hi' hi
  exact hne (hs'.header.symm.trans hs.header)

/-- Simplifying a tree changes nothing about it, and leaves those of other headers alone. -/
theorem simplifyNodes_holds (hash : HashOrder) {headerLength : ℕ}
    (ht : HoldsTree headerLength h t header exchanges) :
    ∃ h', simplifyNodes hash t h = .ok () h' ∧ HoldsTree headerLength h' t header exchanges ∧
      ∀ {t' : Tree} {header' : List UInt8} {exchanges' : List LogExchange}, header' ≠ header →
        HoldsTree headerLength h t' header' exchanges' → HoldsTree headerLength h' t' header' exchanges' := by
  obtain ⟨h', hrun, hsent, hreceived, hframe⟩ :=
    simplifyNodes_frame hash ⟨ht.sent.linked, ht.received.linked, ht.roots_ne⟩
  refine ⟨h', hrun, { ht with
    sent := ht.sent.simplified hsent
    received := ht.received.simplified hreceived
    transmittedLeaf := fun p hp => hsent.reachable (ht.transmittedLeaf p hp)
    receivedLeaf := fun p hp n hn => hreceived.reachable (ht.receivedLeaf p hp n hn) },
      fun {t' header' exchanges'} hne ht' => ?_⟩
  have hsame {root i : NodeId} {streams : List (List UInt8)} (hs : Shown h root header' streams)
      (hi : Reachable (childIds h) root i) : h'[i]? = h[i]? := by
    obtain ⟨x, hx⟩ := hs.linked.exists_node hi
    exact hframe (lt_length hx) (not_reachable_of_header_ne ht.sent hs hne hi)
      (not_reachable_of_header_ne ht.received hs hne hi)
  exact ht'.frame (hsame ht'.sent) (hsame ht'.received)

/-- Simplifying trees one after the other changes nothing about any of them. -/
theorem simplifyTrees_holds (hash : HashOrder) {headerLength : ℕ} {todo : List (List UInt8)}
    (hholds : ∀ header ∈ headers, HoldsTree headerLength h (treeOf header) header (exchangesOf header))
    (htodo : todo ⊆ headers) :
    ∃ h', (todo.map treeOf).forM (simplifyNodes hash) h = .ok () h' ∧
      ∀ header ∈ headers, HoldsTree headerLength h' (treeOf header) header (exchangesOf header) := by
  induction todo generalizing h with
  | nil => exact ⟨h, rfl, hholds⟩
  | cons header todo ih =>
    obtain ⟨hfirst, hrest⟩ := List.cons_subset.mp htodo
    obtain ⟨h₁, hrun, hsame, hothers⟩ := simplifyNodes_holds hash (hholds header hfirst)
    have hholds₁ : ∀ header ∈ headers,
      HoldsTree headerLength h₁ (treeOf header) header (exchangesOf header) := by
      intro header' hheader'
      rcases eq_or_ne header' header with rfl | hne
      · exact hsame
      · exact hothers hne (hholds header' hheader')
    obtain ⟨h', hrun', hall⟩ := ih hholds₁ hrest
    exact ⟨h', (bind_ok hrun).trans hrun', hall⟩

/-- If the settings ask for it. -/
theorem simplifyPackets_holds (settings : Settings) (env : Environment)
    (hholds : ∀ header ∈ headers, HoldsTree settings.headerLength h (treeOf header) header
      (exchangesOf header)) :
    ∃ h', simplifyPackets settings env (headers.map treeOf) h = .ok () h' ∧
      ∀ header ∈ headers, HoldsTree settings.headerLength h' (treeOf header) header (exchangesOf header) := by
  rw [simplifyPackets]
  split_ifs
  · exact simplifyTrees_holds env.hash hholds (List.Subset.refl headers)
  · exact ⟨h, rfl, hholds⟩

/-- The tree of a header. -/
def treeOfHeader (p : Parser) (header : List UInt8) : Tree :=
  (p.packets.lookup (printHexBinary header)).getD ⟨0, none, 0, 0, "", []⟩

/-- The trees are those of the headers in the log, in some order. -/
theorem exists_headers {headerLength : ℕ} {r : Heap × Parser} {history : History} (hash : HashOrder)
    (hr : Recorded headerLength r history) (hcount : history.exchanges.length ≤ 2 * maxBytes)
    (hwithin : ∀ e ∈ history.exchanges, Within maxBytes e) :
    ∃ headers : List (List UInt8), headers.Nodup ∧
      (∀ header, header ∈ headers ↔ history.exchangesOf header ≠ []) ∧
      (hash.order r.2.packets.entries).map Sigma.snd = headers.map (treeOfHeader r.2) ∧
      ∀ header ∈ headers, HoldsTree headerLength r.1 (treeOfHeader r.2 header) header
        (history.exchangesOf header) := by
  let headerOf : (Sigma fun _ : String => Tree) → List UInt8 := fun e => Function.invFun printHexBinary e.1
  have hlookup {e : Sigma fun _ : String => Tree} (he : e ∈ r.2.packets.entries) :
      r.2.packets.lookup e.1 = some e.2 := AList.mem_lookup_iff.mpr he
  have hkey {e : Sigma fun _ : String => Tree} (he : e ∈ r.2.packets.entries) :
    printHexBinary (headerOf e) = e.1 := by
    obtain ⟨header, hheader⟩ := hr.key (hlookup he)
    exact Function.invFun_eq ⟨header, hheader.symm⟩
  have hperm := hash.perm r.2.packets.entries
  have hmem {header : List UInt8} : header ∈ (hash.order r.2.packets.entries).map headerOf ↔
      ∃ t, r.2.packets.lookup (printHexBinary header) = some t := by
    rw [List.mem_map]
    constructor
    · rintro ⟨e, he, rfl⟩
      exact ⟨e.2, by rw [hkey (hperm.mem_iff.mp he), hlookup (hperm.mem_iff.mp he)]⟩
    · rintro ⟨t, ht⟩
      exact ⟨⟨_, t⟩, hperm.mem_iff.mpr (AList.mem_lookup_iff.mp ht),
        Function.leftInverse_invFun ParserSteps.printHexBinary_injective header⟩
  refine ⟨(hash.order r.2.packets.entries).map headerOf, ?_, fun header => ?_, ?_, fun header hheader => ?_⟩
  · refine List.Nodup.of_map printHexBinary ?_
    have hkeys : ((hash.order r.2.packets.entries).map headerOf).map printHexBinary =
        (hash.order r.2.packets.entries).map Sigma.fst := by
      rw [List.map_map]
      exact List.map_congr_left fun e he => hkey (hperm.mem_iff.mp he)
    rw [hkeys]
    exact (hperm.map Sigma.fst).nodup_iff.mpr r.2.packets.nodupKeys
  · rw [hmem, ← Option.ne_none_iff_exists', ne_eq, hr.lookup_none]
  · rw [List.map_map]
    refine List.map_congr_left fun e he => ?_
    rw [Function.comp_apply, treeOfHeader, hkey (hperm.mem_iff.mp he),
      hlookup (hperm.mem_iff.mp he), Option.getD_some]
  · obtain ⟨t, ht⟩ := hmem.mp hheader
    rw [treeOfHeader, ht, Option.getD_some]
    exact holdsTree_of_recorded hr hcount hwithin ht

/-- A number has digits only. -/
theorem notMem_decimal {c : Char} (hc : c.isDigit = false) (i : ℕ) : c ∉ decimal i := by
  rw [decimal_natCast]
  exact fun hmem => Bool.eq_false_iff.mp hc (Nat.isDigit_of_mem_toDigits (by decide) (by decide) hmem)

/-- The parts of a path can be told from it. -/
theorem fileName_inj {directoryPath name name' : JavaString} {half' : Half} {i i' : ℕ} (hname : '_' ∉ name)
    (h : fileName directoryPath name half i = fileName directoryPath name' half' i') :
    name = name' ∧ half = half' ∧ i = i' := by
  have hhalf (half : Half) : '_' ∉ half.name ∧ '(' ∉ half.name := by cases half <;> decide
  have hsame : name ++ '_' :: (half.name ++ '(' :: (decimal i ++ ").dot".toList)) =
      name' ++ '_' :: (half'.name ++ '(' :: (decimal i' ++ ").dot".toList)) := by
    have hpaths : directoryPath ++ "/".toList ++
      (name ++ '_' :: (half.name ++ '(' :: (decimal i ++ ").dot".toList))) =
        directoryPath ++ "/".toList ++ (name' ++ '_' ::
          (half'.name ++ '(' :: (decimal i' ++ ").dot".toList))) := by
      simpa [fileName] using h
    exact List.append_cancel_left hpaths
  have hrest : '_' ∉ half.name ++ '(' :: (decimal i ++ ").dot".toList) := by
    rw [List.mem_append, List.mem_cons, List.mem_append]
    rintro (hmem | hmem | hmem | hmem)
    · exact (hhalf half).1 hmem
    · cases hmem
    · exact notMem_decimal (by decide) i hmem
    · exact absurd hmem (by decide)
  have hend : '(' ∉ decimal i ++ ").dot".toList := by
    rw [List.mem_append]
    rintro (hmem | hmem)
    · exact notMem_decimal (by decide) i hmem
    · exact absurd hmem (by decide)
  obtain ⟨rfl, -, hbehind⟩ := (List.append_cons_inj_of_notMem hname hrest).mp hsame
  obtain ⟨hhalves, -, hnumber⟩ := (List.append_cons_inj_of_notMem (hhalf half).2 hend).mp hbehind
  have hdot : ∀ c ∈ ").dot".toList.head?, c.isDigit = false := isDigit_head?_cons rfl _
  have hi : readNumber (decimal i ++ ").dot".toList) = some (i, ").dot".toList) :=
    readNumber_decimal i hdot
  rw [hnumber, readNumber_decimal i' hdot, Option.some.injEq, Prod.mk.injEq] at hi
  refine ⟨rfl, ?_, hi.1.symm⟩
  cases half <;> cases half' <;> first | rfl | exact absurd hhalves (by decide)

/-- A header has no underscore. -/
theorem underscore_notMem (header : List UInt8) : '_' ∉ (printHexBinary header).toList := by
  have hdigit : ∀ n < 16, hexDigit n ≠ '_' := by decide
  rw [printHexBinary, String.toList_ofList, List.mem_flatMap]
  rintro ⟨b, -, hmem⟩
  have hb := b.toNat_lt
  simp only [List.mem_cons, List.not_mem_nil, or_false] at hmem
  rcases hmem with heq | heq
  · exact hdigit _ (by omega) heq.symm
  · exact hdigit _ (by omega) heq.symm

/-- No file is written twice. -/
theorem nodup_plannedFiles (settings : Settings) (env : Environment) (hheaders : headers.Nodup) :
    ((plannedFiles settings env headers).map PlannedFile.name).Nodup := by
  have hnumbers : (outputTypes settings).zipIdx.Pairwise fun item item' => item.2 ≠ item'.2 := by
    have hnodup : ((outputTypes settings).zipIdx.map Prod.snd).Nodup := by
      rw [List.zipIdx_map_snd]
      exact List.nodup_range'
    exact List.pairwise_map.mp hnodup
  have hhalves {directoryPath name : JavaString} (hname : '_' ∉ name) (item : OutputType × ℕ) :
      ((OutputType.halves item.1).map fun half => fileName directoryPath name half item.2).Nodup := by
    refine List.Nodup.map (fun half half' heq => (fileName_inj hname heq).2.1) ?_
    cases item.1 <;> decide
  have hnames {directoryPath name name' path : JavaString} (hname : '_' ∉ name) {item item' : OutputType × ℕ}
      (hpath : path ∈ (OutputType.halves item.1).map fun half => fileName directoryPath name half item.2)
      (hpath' : path ∈ (OutputType.halves item'.1).map fun half =>
        fileName directoryPath name' half item'.2) :
      name = name' ∧ item.2 = item'.2 := by
    obtain ⟨half, -, rfl⟩ := List.mem_map.mp hpath
    obtain ⟨half', -, heq⟩ := List.mem_map.mp hpath'
    obtain ⟨hsame, -, hnumber⟩ := fileName_inj hname heq.symm
    exact ⟨hsame, hnumber⟩
  rw [plannedFiles]
  split_ifs
  · simp only [plannedSeparated, List.map_flatMap, List.map_map, List.nodup_flatMap]
    refine ⟨fun item _ => ⟨fun header _ => hhalves (underscore_notMem header) item, ?_⟩, ?_⟩
    · refine hheaders.imp fun hne path hpath hpath' => hne ?_
      exact ParserSteps.printHexBinary_injective
        (String.toList_inj.mp (hnames (underscore_notMem _) hpath hpath').1)
    · refine hnumbers.imp fun hne path hpath hpath' => hne ?_
      obtain ⟨header, -, hmem⟩ := List.mem_flatMap.mp hpath
      obtain ⟨header', -, hmem'⟩ := List.mem_flatMap.mp hpath'
      exact (hnames (underscore_notMem header) hmem hmem').2
  · simp only [plannedInOneFile, List.map_flatMap, List.map_map, List.nodup_flatMap]
    refine ⟨fun item _ => hhalves (by decide) item, hnumbers.imp fun hne path hpath hpath' => hne ?_⟩
    exact (hnames (by decide) hpath hpath').2

/-- The trees of the files are there. -/
theorem plannable_plannedFiles (env : Environment)
    (hholds : ∀ header ∈ headers, HoldsTree settings.headerLength h (treeOf header) header
      (exchangesOf header)) :
    ∀ planned ∈ plannedFiles settings env headers, Plannable settings exchangesOf treeOf h planned := by
  intro planned hplanned
  rw [plannedFiles] at hplanned
  split_ifs at hplanned
  · obtain ⟨item, -, hmem⟩ := List.mem_flatMap.mp hplanned
    obtain ⟨header, hheader, hmem⟩ := List.mem_flatMap.mp hmem
    obtain ⟨half, hhalf, rfl⟩ := List.mem_map.mp hmem
    exact ⟨hhalf, fun header' hheader' => List.mem_singleton.mp hheader' ▸ hholds header hheader⟩
  · obtain ⟨item, -, hmem⟩ := List.mem_flatMap.mp hplanned
    obtain ⟨half, hhalf, rfl⟩ := List.mem_map.mp hmem
    exact ⟨hhalf, hholds⟩

/-- The trees of headers are written as planned. -/
theorem write_eq (settings : Settings) (env : Environment) (flowIndex : ℕ)
    (hrun : simplifyPackets settings env (headers.map treeOf) h = .ok () h')
    (hname : ∀ header ∈ headers, (treeOf header).header = printHexBinary header) :
    write settings env (headers.map treeOf) flowIndex h =
      .ok ((plannedFiles settings env headers).foldl (writePlanned settings env treeOf)
        ⟨h', flowIndex, [], []⟩)
        ((plannedFiles settings env headers).foldl (writePlanned settings env treeOf)
          ⟨h', flowIndex, [], []⟩).heap := by
  have hplan : (if settings.separatePackets then
        writeSeparated settings env (headers.map treeOf) (env.absolutePath settings.outputDirectory)
          ⟨h', flowIndex, [], []⟩
      else
        writeInOneFile settings env (headers.map treeOf) (env.absolutePath settings.outputDirectory)
          ⟨h', flowIndex, [], []⟩) =
      (plannedFiles settings env headers).foldl (writePlanned settings env treeOf)
        ⟨h', flowIndex, [], []⟩ := by
    rw [plannedFiles]
    split_ifs
    · exact writeSeparated_eq settings env _ _ hname
    · exact writeInOneFile_eq settings env _ _
  rw [← hplan]
  exact bind_ok hrun

/-- Hash maps in the order of insertion, red counts, and files that can all be created. -/
def plainEnvironment : Environment :=
  ⟨PacketGraph.anyOrder, PacketGraph.anyOrder, ['\n'], fun _ _ => "#FF0000".toList, id, fun _ => true⟩

end ApduPlay.WrittenFiles
