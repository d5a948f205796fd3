import ApduPlay.PrintedFlow
import ApduPlay.RecordedLogs
import ApduPlay.WrappedLabels

/-!
# The output functions

Every output has a function for what was sent with a header, and some have one for what was
answered. All of them write lines, may create nodes, and may end with an exception. None of
them changes a node that exists.
-/

namespace ApduPlay.OutputFunctions

open ExceptionRuns TreeTraversal LogParser PacketNode PacketTree LinkedTrees OutputTrees NodesGraph
open RecordedLogs WrappedText
open PacketGraph (PrintSettings HashOrder WriterM leafBytes println toHexBinaryString)
open TextOutput (TextOutputSettings)

/-- The settings of the parser and of its outputs. -/
structure Settings where
  /-- Where files are written. -/
  outputDirectory : JavaString
  /-- Put between the bytes of a node, null for nothing. -/
  bytesSeparator : Option JavaString
  /-- Whether every header has files of its own. -/
  separatePackets : Bool
  /-- Whether nodes have one byte each. -/
  simpleNodes : Bool
  /-- Whether the length below also holds for messages that are shorter. -/
  checkMinimalLengthOnShorterStreams : Bool
  /-- The outputs, by their bits. -/
  outputTypeMask : BitVec 32
  /-- Bytes of a header. -/
  headerLength : ℕ
  /-- Bytes below which what is common is not constant. -/
  minimalConstantLength : ℤ
  /-- Direction of a graph, null for none. -/
  rankDir : Option JavaString
  /-- Size of a graph, null for none. -/
  size : Option JavaString
  /-- Attributes of nodes, null for none. -/
  nodeAttributes : Option JavaString
  /-- Colours of bytes that vary, and bytes in a line of a label. -/
  colors : StreamColors.GraphSettings
  /-- The settings of the text output. -/
  textOutputSettings : TextOutputSettings

/-- `setDefaults` -/
def defaultSettings : Settings where
  outputDirectory := "output".toList
  bytesSeparator := some [' ']
  separatePackets := false
  simpleNodes := false
  checkMinimalLengthOnShorterStreams := false
  outputTypeMask := -1
  headerLength := 4
  minimalConstantLength := 0
  rankDir := some "LR".toList
  size := none
  nodeAttributes := some "color=lightblue2, style=filled".toList
  colors := ⟨0, "darkorchid4".toList, "red".toList⟩
  textOutputSettings := TextOutput.defaultTextOutputSettings

/-- The settings of the graphs. -/
def Settings.graph (settings : Settings) : PrintSettings :=
  ⟨settings.headerLength, settings.bytesSeparator, settings.colors.wrapAfter⟩

/-- The settings of what is constant. -/
def Settings.analysis (settings : Settings) : TextOutput.Settings :=
  ⟨settings.minimalConstantLength, settings.checkMinimalLengthOnShorterStreams, settings.textOutputSettings⟩

/-- What the outputs rely on. -/
structure Environment where
  /-- The order of hash maps. -/
  hash : HashOrder
  /-- The order of the counts of a depth. -/
  entryHash : HashOrder
  /-- The end of a line. -/
  lineSeparator : JavaString
  /-- The colour of a count among the packets. -/
  hexColor : JavaInt → JavaInt → JavaString
  /-- The path of a directory. -/
  absolutePath : JavaString → JavaString
  /-- Whether a file can be created. -/
  creates : JavaString → Bool

/-- What the output of a file works on. -/
structure FileState where
  /-- The nodes. -/
  heap : Heap
  /-- `Writer.flowIndex` -/
  flowIndex : ℕ
  /-- The lines of the file. -/
  lines : List JavaString

/-- Computations that write a file. -/
abbrev FileM := EStateM JavaException FileState

/-- A computation on the nodes and the lines. -/
def ofWriter {α : Type} (m : WriterM α) : FileM α := fun s =>
  match m (s.heap, s.lines) with
  | .ok a s' => .ok a { s with heap := s'.1, lines := s'.2 }
  | .error e s' => .error e { s with heap := s'.1, lines := s'.2 }

/-- `writer.println` of a line. -/
def printLine (line : JavaString) : WriterM Unit := modify fun s => (s.1, s.2 ++ [line])

/-- `printFlow`, which goes on with the number of the flow before. Depths before an exception
have their numbers. -/
def printFlow (settings : Settings) (env : Environment) (node : NodeId) (packetsCount : JavaInt) :
    FileM Unit := fun s =>
  match PrintedFlow.printFlow settings.graph env.lineSeparator env.hexColor env.hash env.entryHash node
    packetsCount s.flowIndex (s.heap, s.lines) with
  | .ok next s' => .ok () ⟨s'.1, next, s'.2⟩
  | .error e s' =>
    let depths := PrintedFlow.numberedDepths settings.graph env.hash env.entryHash s.heap.length [node] s.heap
    .error e ⟨s'.1, s.flowIndex + depths, s'.2⟩

/-- One packet of `prepareAnalyzedPackets`. Its answer has to be there. -/
def exchangeOf (settings : Settings) (packet : Packet) : WriterM Exchange := do
  let transmitted ← leafBytes (some packet.transmittedLeafNode)
  let received ← leafBytes packet.receivedLeafNode
  let transmittedStr ← toHexBinaryString settings.bytesSeparator
    (← copyOfRange transmitted settings.headerLength transmitted.length)
  let receivedStr ← toHexBinaryString settings.bytesSeparator
    (← copyOfRange received settings.headerLength received.length)
  match packet.receivedLeafNode with
  | none => throw .nullPointer
  | some receivedLeafNode =>
    return ⟨transmittedStr, identifier packet.transmittedLeafNode, receivedStr, identifier receivedLeafNode⟩

/-- `prepareAnalyzedPackets`: the text of the header, and the packets. -/
def prepareAnalyzedPackets (settings : Settings) (tree : Tree) : WriterM (JavaString × List Group) := do
  let header ← toHexBinaryString settings.bytesSeparator (← getData tree.root)
  let exchanges ← tree.streamPackets.mapM (exchangeOf settings)
  return (header, (OutputTrees.prepareAnalyzedPackets exchanges).groups)

/-- `prepareOutput` -/
def prepareOutput (settings : Settings) (env : Environment) (header : JavaString) (identifier : ℤ)
    (packets : List Group) : JavaM JavaString := do
  let prepare := WrappedLabels.prepare settings.analysis settings.colors env.lineSeparator
  let sb ← packets.foldlM (fun sb packet =>
      prepare sb packet.transmittedMessage.identifier packet.receivedMessages true)
    ((PacketGraph.Statement.root identifier header).text ++ env.lineSeparator)
  prepare sb identifier (packets.map Group.transmittedMessage) false

/-- `printAnalyzedPackets` -/
def printAnalyzedPackets (settings : Settings) (env : Environment) (tree : Tree) : WriterM Unit := do
  let (header, packets) ← prepareAnalyzedPackets settings tree
  printLine (← prepareOutput settings env header (identifier tree.root) packets)

/-- `printAnalyzedPacketsAsText` -/
def printAnalyzedPacketsAsText (settings : Settings) (env : Environment) (tree : Tree) : WriterM Unit := do
  let (header, packets) ← prepareAnalyzedPackets settings tree
  printLine (← TextOutput.prepareTextOutput settings.analysis env.hash ⟨header, packets⟩)

/-- The outputs. -/
inductive OutputType
  | nodes
  | flow
  | packets
  | packetsAnalyzed
  | packetsAnalyzedText
  deriving DecidableEq, Repr

/-- `OutputType.TYPES` -/
def types : List OutputType := [.nodes, .flow, .packets, .packetsAnalyzed, .packetsAnalyzedText]

/-- The bit of an output. -/
def OutputType.bit : OutputType → BitVec 32
  | nodes => 0x1
  | flow => 0x2
  | packets => 0x4
  | packetsAnalyzed => 0x8
  | packetsAnalyzedText => 0x10

/-- `OutputFunction` -/
structure OutputFunction where
  /-- What was sent, null for nothing. -/
  transmittedFunction : Option (Tree → FileM Unit)
  /-- What was answered, null for nothing. -/
  receivedFunction : Option (Tree → FileM Unit)
  /-- Whether the output is that of a graph. -/
  wrapGraphvizOutput : Bool

/-- The functions of an output. -/
def OutputType.function (settings : Settings) (env : Environment) : OutputType → OutputFunction
  | nodes => ⟨some fun tree => ofWriter (printTransmitted settings.graph env.hash tree),
      some fun tree => ofWriter (printReceived settings.graph env.hash tree), true⟩
  | flow => ⟨some fun tree => printFlow settings env tree.root tree.packetsCount,
      some fun tree => printFlow settings env tree.receivedRoot tree.packetsCount, true⟩
  | packets => ⟨some fun tree => ofWriter (PacketGraph.printPackets settings.graph env.hash tree), none, true⟩
  | packetsAnalyzed => ⟨some fun tree => ofWriter (printAnalyzedPackets settings env tree), none, true⟩
  | packetsAnalyzedText =>
    ⟨some fun tree => ofWriter (printAnalyzedPacketsAsText settings env tree), none, false⟩

/-- Nodes and lines are only added. -/
def Adds (s s' : Heap × List JavaString) : Prop := s.1 <+: s'.1 ∧ s.2 <+: s'.2

instance : IsPreorder (Heap × List JavaString) Adds where
  refl _ := ⟨List.prefix_rfl, List.prefix_rfl⟩
  trans _ _ _ h h' := ⟨h.1.trans h'.1, h.2.trans h'.2⟩

/-- The same while a file is written. -/
def AddsTo (s s' : FileState) : Prop := s.heap <+: s'.heap ∧ s.lines <+: s'.lines

instance : IsPreorder FileState AddsTo where
  refl _ := ⟨List.prefix_rfl, List.prefix_rfl⟩
  trans _ _ _ h h' := ⟨h.1.trans h'.1, h.2.trans h'.2⟩

variable {settings : Settings} {env : Environment} {h h' : Heap} {s : FileState} {t : Tree}
  {header : List UInt8} {exchanges : List LogExchange} {out : List JavaString} {α : Type}

/-- The state afterwards has what was written. -/
theorem ofWriter_ok {m : WriterM α} {a : α} (hm : m (s.heap, s.lines) = .ok a (h, out)) :
    ofWriter m s = .ok a { s with heap := h, lines := out } := by
  rw [ofWriter, hm]

/-- Also after an exception. -/
theorem ofWriter_error {m : WriterM α} {e : JavaException} (hm : m (s.heap, s.lines) = .error e (h, out)) :
    ofWriter m s = .error e { s with heap := h, lines := out } := by
  rw [ofWriter, hm]

/-- The file goes on exactly if the writer does. -/
theorem ends_ofWriter_iff {m : WriterM α} : Ends (ofWriter m) s ↔ Ends m (s.heap, s.lines) := by
  constructor
  · rintro ⟨a, s', hrun⟩
    cases hm : m (s.heap, s.lines) with
    | ok b r => exact ⟨b, r, hm⟩
    | error e r =>
      rw [ofWriter_error hm] at hrun
      cases hrun
  · rintro ⟨a, r, hm⟩
    exact ⟨a, _, ofWriter_ok hm⟩

/-- What is added by a writer is added to the file. -/
theorem advances_ofWriter {m : WriterM α} (hm : Advances Adds m) : Advances AddsTo (ofWriter m) := by
  intro s
  have hadds := hm (s.heap, s.lines)
  unfold ofWriter
  split
  · rename_i hrun
    rw [hrun] at hadds
    exact hadds
  · rename_i hrun
    rw [hrun] at hadds
    exact hadds

/-- A line is added. -/
theorem advances_printLine (line : JavaString) : Advances Adds (printLine line) :=
  advances_modify fun _ => ⟨List.prefix_rfl, List.prefix_append _ _⟩

/-- Texts are made without nodes and lines. -/
theorem advances_output {σ : Type} {R : σ → σ → Prop} [IsPreorder σ R] (m : OutputM α) :
    Advances R (liftM m : EStateM JavaException σ α) := by
  cases m with
  | ok a => exact advances_pure a
  | error e => exact advances_throw e

/-- What is done with the nodes adds no line. -/
theorem advances_lift {m : JavaM α} (hm : Advances (· <+: ·) m) : Advances Adds (liftM m : WriterM α) := by
  intro ⟨h, lines⟩
  have hadds := hm h
  cases hrun : m h with
  | ok a h' =>
    rw [hrun] at hadds
    rw [PacketNode.lift_ok hrun lines]
    exact ⟨hadds, List.prefix_rfl⟩
  | error e h' =>
    rw [hrun] at hadds
    rw [PacketNode.lift_error hrun lines]
    exact ⟨hadds, List.prefix_rfl⟩

/-- A new node comes behind the others. -/
theorem advances_newNode (data : List UInt8) : Advances (· <+: ·) (newNode data) :=
  fun h => List.prefix_append h _

instance : IsPreorder Heap (· <+: ·) where
  refl _ := List.prefix_rfl
  trans _ _ _ := List.IsPrefix.trans

/-- A node is only looked at. -/
theorem advances_load (n : NodeId) : Advances (· <+: ·) (load n) :=
  advances_get.bind fun h => by
    cases h[n]? with
    | none => exact advances_throw _
    | some x => exact advances_pure x

theorem advances_getData (n : NodeId) : Advances (· <+: ·) (getData n) :=
  (advances_load n).bind fun _ => advances_pure _

theorem advances_copyOfRange (original : List UInt8) (start stop : ℕ) :
    Advances (· <+: ·) (copyOfRange original start stop) := by
  unfold copyOfRange
  split_ifs
  · exact advances_throw _
  · exact advances_throw _
  · exact advances_pure _

/-- So are all nodes above a leaf. -/
theorem advances_leafBytes (node : Option NodeId) : Advances Adds (leafBytes node) :=
  advances_get.bind fun s => by
    cases getDataFromLeafNode s.1 node with
    | none => exact advances_throw _
    | some bytes => exact advances_pure bytes

theorem advances_println (statement : PacketGraph.Statement) : Advances Adds (println statement) :=
  advances_modify fun _ => ⟨List.prefix_rfl, List.prefix_append _ _⟩

/-- The graph of the packets adds nodes and lines. -/
theorem advances_printPackets (cfg : PrintSettings) (hash : HashOrder) (t : Tree) :
    Advances Adds (PacketGraph.printPackets cfg hash t) := by
  have hpacket (streams : PacketGraph.Streams) (p : Packet) :
      Advances Adds (PacketGraph.addPacket cfg streams p) :=
    (advances_leafBytes _).bind fun _ => (advances_leafBytes _).bind fun _ =>
      (advances_lift (advances_copyOfRange _ _ _)).bind fun _ => (advances_output _).bind fun _ =>
        (advances_lift (advances_copyOfRange _ _ _)).bind fun _ => (advances_output _).bind fun _ =>
          advances_pure _
  have hanswer (node : NodeId) (answer : Sigma fun _ : JavaString => List Packet) :
      Advances Adds (PacketGraph.printAnswer cfg t.root node answer) :=
    (advances_lift (advances_newNode [])).bind fun _ => (advances_output _).bind fun _ =>
      (advances_println _).bind fun _ =>
        Advances.forM answer.2 fun _ => (advances_println _).bind fun _ => advances_println _
  have hstream (item : Sigma fun _ : JavaString => PacketGraph.Answers) :
      Advances Adds (PacketGraph.printStream cfg hash t.root item) :=
    (advances_lift (advances_newNode [])).bind fun node => (advances_output _).bind fun _ =>
      (advances_println _).bind fun _ => Advances.forM _ (hanswer node)
  exact (advances_lift (advances_getData t.root)).bind fun _ => (advances_output _).bind fun _ =>
    (advances_println _).bind fun _ => (Advances.foldlM _ hpacket ∅).bind fun streams =>
      Advances.forM (hash.order streams.entries) hstream

/-- A packet adds nothing. -/
theorem advances_exchangeOf (settings : Settings) (p : Packet) : Advances Adds (exchangeOf settings p) :=
  (advances_leafBytes _).bind fun _ => (advances_leafBytes _).bind fun _ =>
    (advances_lift (advances_copyOfRange _ _ _)).bind fun _ => (advances_output _).bind fun _ =>
      (advances_lift (advances_copyOfRange _ _ _)).bind fun _ => (advances_output _).bind fun _ => by
        cases p.receivedLeafNode with
        | none => exact advances_throw _
        | some n => exact advances_pure _

/-- Nor do all packets. -/
theorem advances_prepareAnalyzedPackets (settings : Settings) (t : Tree) :
    Advances Adds (prepareAnalyzedPackets settings t) :=
  (advances_lift (advances_getData t.root)).bind fun _ => (advances_output _).bind fun _ =>
    (Advances.mapM t.streamPackets (advances_exchangeOf settings)).bind fun _ => advances_pure _

/-- The labels of messages add the nodes of these. -/
theorem advances_prepare (settings : TextOutput.Settings) (graphSettings : StreamColors.GraphSettings)
    (lineSeparator sb : JavaString) (parentIdentifier : ℤ) (msgs : List OutputMessage)
    (generateIdentifier : Bool) :
    Advances (· <+: ·) (WrappedLabels.prepare settings graphSettings lineSeparator sb parentIdentifier msgs
      generateIdentifier) := by
  have hidentifier (msg : OutputMessage) :
      Advances (· <+: ·) (WrappedLabels.messageIdentifier generateIdentifier msg) := by
    cases generateIdentifier with
    | false => exact advances_pure _
    | true => exact (advances_newNode []).bind fun _ => advances_pure _
  have hmessage (prefixes : ℕ × ℕ) (color sb : JavaString) (msg : OutputMessage) :
      Advances (· <+: ·) (WrappedLabels.prepareMessage graphSettings lineSeparator prefixes color
        parentIdentifier generateIdentifier sb msg) := by
    rw [WrappedLabels.prepareMessage]
    generalize WrappedLabels.messageLabel graphSettings prefixes color msg.message = label
    exact (hidentifier msg).bind fun _ => (advances_output label).bind fun _ => advances_pure _
  exact (advances_output _).bind fun prefixes => (advances_output _).bind fun color =>
    Advances.foldlM msgs (hmessage prefixes color) sb

theorem advances_prepareOutput (settings : Settings) (env : Environment) (header : JavaString)
    (identifier : ℤ) (packets : List Group) :
    Advances (· <+: ·) (prepareOutput settings env header identifier packets) :=
  (Advances.foldlM packets (fun _ _ => advances_prepare _ _ _ _ _ _ _) _).bind fun _ =>
    advances_prepare _ _ _ _ _ _ _

/-- The analysed graph adds nodes and lines. -/
theorem advances_printAnalyzedPackets (settings : Settings) (env : Environment) (t : Tree) :
    Advances Adds (printAnalyzedPackets settings env t) :=
  (advances_prepareAnalyzedPackets settings t).bind fun _ =>
    (advances_lift (advances_prepareOutput _ _ _ _ _)).bind fun _ => advances_printLine _

/-- The analysed text adds a line. -/
theorem advances_printAnalyzedPacketsAsText (settings : Settings) (env : Environment) (t : Tree) :
    Advances Adds (printAnalyzedPacketsAsText settings env t) :=
  (advances_prepareAnalyzedPackets settings t).bind fun _ =>
    (advances_output _).bind fun _ => advances_printLine _

end ApduPlay.OutputFunctions
