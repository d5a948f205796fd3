import ApduPlay.Library.ExceptionRuns
import ApduPlay.Library.Grouping
import ApduPlay.RebuiltLeaves
import ApduPlay.TransmitLog
import ApduPlay.WrappedText

/-!
# The graph of the packets

One of the outputs shows every exchange of a tree as an edge to what was sent
and an edge from there to what was answered. The exchanges are grouped by the
bytes that are rebuilt from their leaves, and every group gets a new node.
-/

namespace ApduPlay.PacketGraph

open ExceptionRuns (Ends)
open Grouping PacketNode PacketTree LogParser ParserSteps RebuiltLeaves TransmitLog WrappedText

/-- The settings of this output. -/
structure PrintSettings where
  /-- Bytes of a header. -/
  headerLength : ℕ
  /-- Put between bytes, null for nothing. -/
  bytesSeparator : Option JavaString
  /-- Bytes in a line of a label. -/
  wrapAfter : ℤ

/-- The order in which hash maps are iterated. -/
structure HashOrder where
  /-- Entries in this order. -/
  order : {α : Type} → List α → List α
  /-- All of them and no others. -/
  perm : ∀ {α : Type} (entries : List α), (order entries).Perm entries

/-- `%02X` -/
def hexByte (b : UInt8) : JavaString := [hexDigit (b.toNat / 16), hexDigit (b.toNat % 16)]

/-- The bytes in hexadecimal digits, without the last separator. -/
def hexBinaryString (bytesSeparator : Option JavaString) (bytes : List UInt8) : JavaString :=
  let separator := bytesSeparator.getD []
  let str := bytes.flatMap fun b => hexByte b ++ separator
  if str.length > 0 then str.take (str.length - separator.length) else str

/-- The characters of a text, with the last separator, have room in a builder. -/
def HasRoom (bytesSeparator : Option JavaString) (bytes : List UInt8) : Prop :=
  bytes.length * ((bytesSeparator.getD []).length + 2) < 2 ^ 31

instance (bytesSeparator : Option JavaString) (bytes : List UInt8) :
    Decidable (HasRoom bytesSeparator bytes) :=
  inferInstanceAs (Decidable (_ < _))

/-- `toHexBinaryString`. A number of characters that is too large for an `int` is
one that no builder has room for. -/
def toHexBinaryString (bytesSeparator : Option JavaString) (bytes : List UInt8) : OutputM JavaString :=
  if HasRoom bytesSeparator bytes then pure (hexBinaryString bytesSeparator bytes) else throw .outOfMemory

/-- A statement of the graph. -/
inductive Statement
  /-- The root of the tree. -/
  | root (n : ℤ) (label : JavaString)
  /-- A node of a group. -/
  | node (n : ℤ) (label : JavaString)
  /-- An exchange, from the root to what was sent. -/
  | sent (source target ac : ℤ)
  /-- An exchange, from what was sent to what was answered. -/
  | answered (source target ac time : ℤ)
  deriving DecidableEq, Repr

/-- A number as `%d` prints it. -/
def decimal (n : ℤ) : JavaString := (toString n).toList

/-- The line of a statement. -/
def Statement.text : Statement → JavaString
  | root n label => "\t".toList ++ decimal n ++ " [label=\"".toList ++ label ++ "\"];".toList
  | node n label => "\t".toList ++ decimal n ++ " [label=<".toList ++ label ++ ">];".toList
  | sent source target ac => "\t".toList ++ decimal source ++ " -> ".toList ++ decimal target ++
      " [label=\"[ac=".toList ++ decimal ac ++ "]\"];".toList
  | answered source target ac time => "\t".toList ++ decimal source ++ " -> ".toList ++ decimal target ++
      " [label=\"[ac=".toList ++ decimal ac ++ ", time=".toList ++ decimal time ++ "]\"];".toList

/-- Computations on the nodes and the lines of the file. -/
abbrev WriterM := JavaWith (List JavaString)

/-- `writer.println` of a statement. -/
def println (statement : Statement) : WriterM Unit :=
  modify fun s => (s.1, s.2 ++ [statement.text])

/-- The bytes down to a leaf, none for a leaf that is missing. A walk that never
ends is an exception here as well. -/
def leafBytes (node : Option NodeId) : WriterM (List UInt8) := do
  match getDataFromLeafNode (← get).1 node with
  | some bytes => pure bytes
  | none => throw .nullPointer

/-- What was answered, with the packets of each answer. -/
abbrev Answers := AList fun _ : JavaString => List Packet

/-- What was sent, with the answers to it. -/
abbrev Streams := AList fun _ : JavaString => Answers

/-- Add a packet to the list of its bytes. -/
def putPacket (streams : Streams) (transmittedStr receivedStr : JavaString) (packet : Packet) : Streams :=
  match streams.lookup transmittedStr with
  | some value =>
    let p := (value.lookup receivedStr).getD []
    streams.insert transmittedStr (value.insert receivedStr (p ++ [packet]))
  | none => streams.insert transmittedStr (AList.singleton receivedStr [packet])

/-- One packet of the tree. -/
def addPacket (cfg : PrintSettings) (streams : Streams) (packet : Packet) : WriterM Streams := do
  let transmitted ← leafBytes (some packet.transmittedLeafNode)
  let received ← leafBytes packet.receivedLeafNode
  let transmittedStr ← toHexBinaryString cfg.bytesSeparator
    (← copyOfRange transmitted cfg.headerLength transmitted.length)
  let receivedStr ← toHexBinaryString cfg.bytesSeparator
    (← copyOfRange received cfg.headerLength received.length)
  return putPacket streams transmittedStr receivedStr packet

/-- A label of several lines. The width is an `int`. -/
def label (cfg : PrintSettings) (text : JavaString) : OutputM JavaString := do
  return (← wrapText text (wrapInt (cfg.wrapAfter * 3)) (-1)).1

/-- One answer and its packets. The data of the new node, null, are never read. -/
def printAnswer (cfg : PrintSettings) (root transmittedNode : NodeId)
    (answer : Sigma fun _ : JavaString => List Packet) : WriterM Unit := do
  let receivedNode ← newNode []
  println (.node (identifier receivedNode) (← label cfg answer.1))
  answer.2.forM fun packet => do
    println (.sent (identifier root) (identifier transmittedNode) packet.ac)
    println (.answered (identifier transmittedNode) (identifier receivedNode) packet.ac
      packet.responseTime)

/-- What was sent once and its answers. -/
def printStream (cfg : PrintSettings) (hash : HashOrder) (root : NodeId)
    (item : Sigma fun _ : JavaString => Answers) : WriterM Unit := do
  let transmittedNode ← newNode []
  println (.node (identifier transmittedNode) (← label cfg item.1))
  (hash.order item.2.entries).forM (printAnswer cfg root transmittedNode)

/-- `printPackets` -/
def printPackets (cfg : PrintSettings) (hash : HashOrder) (tree : Tree) : WriterM Unit := do
  println (.root (identifier tree.root) (← toHexBinaryString cfg.bytesSeparator (← getData tree.root)))
  let streams ← tree.streamPackets.foldlM (addPacket cfg) ∅
  (hash.order streams.entries).forM (printStream cfg hash tree.root)

/-- The bytes of a packet without the header, none if there is no leaf. -/
def bytesOf (cfg : PrintSettings) (h : Heap) (node : Option NodeId) : List UInt8 :=
  ((getDataFromLeafNode h node).getD []).drop cfg.headerLength

/-- A packet with the nodes it is drawn between. -/
structure Drawn where
  /-- The packet. -/
  packet : Packet
  /-- Node of what was sent. -/
  transmittedNode : NodeId
  /-- Node of what was answered. -/
  receivedNode : NodeId

/-- The edges of a packet. -/
def Drawn.edges (root : NodeId) (d : Drawn) : List Statement :=
  [.sent (identifier root) (identifier d.transmittedNode) d.packet.ac,
    .answered (identifier d.transmittedNode) (identifier d.receivedNode) d.packet.ac d.packet.responseTime]

/-- The statement is an edge. -/
def Statement.isEdge : Statement → Bool
  | root _ _ | node _ _ => false
  | sent _ _ _ | answered _ _ _ _ => true

/-- The node that a statement declares. -/
def Statement.declared : Statement → Option ℤ
  | root n _ | node n _ => some n
  | sent _ _ _ | answered _ _ _ _ => none

/-- The bytes rebuilt for what was sent with a packet. -/
def Drawn.transmitted (cfg : PrintSettings) (h : Heap) (d : Drawn) : List UInt8 :=
  bytesOf cfg h (some d.packet.transmittedLeafNode)

/-- The bytes rebuilt for the answer to a packet. -/
def Drawn.received (cfg : PrintSettings) (h : Heap) (d : Drawn) : List UInt8 :=
  bytesOf cfg h d.packet.receivedLeafNode

/-- A node that has a label made of a text. -/
def Labelled (cfg : PrintSettings) (statements : List Statement) (n : ℤ) (text : JavaString) : Prop :=
  ∃ l, label cfg text = .ok l ∧ .node n l ∈ statements

/-- The nodes of exchanges: one for everything that was sent, and one for every answer to it. -/
def nodeCount {κ : Type} [DecidableEq κ] (exchanges : List (κ × κ)) : ℕ :=
  (exchanges.map Prod.fst).dedup.length + exchanges.dedup.length

/-- The bytes rebuilt for a packet. -/
def rebuiltBytes (cfg : PrintSettings) (h : Heap) (packet : Packet) : List UInt8 × List UInt8 :=
  (bytesOf cfg h (some packet.transmittedLeafNode), bytesOf cfg h packet.receivedLeafNode)

/-- Every packet is drawn once, between the nodes of its rebuilt bytes. -/
structure Shows (cfg : PrintSettings) (h : Heap) (tree : Tree) (statements : List Statement)
    (drawn : List Drawn) : Prop where
  /-- Every packet once. -/
  packets : (drawn.map Drawn.packet).Perm tree.streamPackets
  /-- Its two edges and no others. -/
  edges : statements.filter Statement.isEdge = drawn.flatMap (Drawn.edges tree.root)
  /-- Packets share the first node exactly if the same was sent. -/
  transmittedNode : SameIff Drawn.transmittedNode (Drawn.transmitted cfg h) drawn
  /-- They share the second one exactly if also the same was answered. -/
  receivedNode : SameIff Drawn.receivedNode (fun d => (d.transmitted cfg h, d.received cfg h)) drawn
  /-- First and second nodes are different nodes. -/
  apart : ∀ d ∈ drawn, ∀ e ∈ drawn, d.transmittedNode ≠ e.receivedNode
  /-- The nodes are the next ones. -/
  fresh : ∀ d ∈ drawn, d.transmittedNode ∈ List.range' h.length
      (nodeCount (tree.streamPackets.map (rebuiltBytes cfg h))) ∧
    d.receivedNode ∈ List.range' h.length (nodeCount (tree.streamPackets.map (rebuiltBytes cfg h)))
  /-- They are declared behind the root, each once. -/
  declared : statements.filterMap Statement.declared = (tree.root :: List.range' h.length
    (nodeCount (tree.streamPackets.map (rebuiltBytes cfg h)))).map identifier
  /-- They are labelled with the bytes. -/
  labels : ∀ d ∈ drawn,
    Labelled cfg statements (identifier d.transmittedNode)
        (hexBinaryString cfg.bytesSeparator (d.transmitted cfg h)) ∧
      Labelled cfg statements (identifier d.receivedNode)
        (hexBinaryString cfg.bytesSeparator (d.received cfg h))

variable {cfg : PrintSettings} {hash : HashOrder} {h : Heap} {lines : List JavaString} {packet : Packet}
  {packets : List Packet} {streams : Streams} {text transmittedStr receivedStr : JavaString} {tree : Tree}

/-- Bytes have different digits. -/
theorem hexByte_injective : Function.Injective hexByte := hexDigits_injective

/-- All bytes take the same number of characters. -/
theorem flatMap_hexByte_injective (separator : JavaString) :
    Function.Injective fun bytes : List UInt8 => bytes.flatMap fun b => hexByte b ++ separator := by
  refine flatMap_injective (fun x y hxy => hexByte_injective (List.append_cancel_right hxy))
    (n := separator.length + 1) fun b => ?_
  rw [List.length_append, Nat.add_comm]
  rfl

/-- The separator behind the last byte is left out. -/
theorem hexBinaryString_concat (bytesSeparator : Option JavaString) (bytes : List UInt8) (b : UInt8) :
    hexBinaryString bytesSeparator (bytes ++ [b]) =
      (bytes.flatMap fun b => hexByte b ++ bytesSeparator.getD []) ++ hexByte b := by
  have hstr : ((bytes ++ [b]).flatMap fun b => hexByte b ++ bytesSeparator.getD []) =
      (bytes.flatMap fun b => hexByte b ++ bytesSeparator.getD []) ++ hexByte b ++
      bytesSeparator.getD [] := by
    simp
  have hpos : 0 < ((bytes.flatMap fun b => hexByte b ++ bytesSeparator.getD []) ++ hexByte b ++
      bytesSeparator.getD []).length := by
    simp only [hexByte, List.length_append, List.length_cons]
    omega
  unfold hexBinaryString
  dsimp only
  rw [hstr, if_pos hpos]
  exact List.take_left' (Nat.eq_sub_of_add_eq List.length_append.symm)

/-- The text of bytes, from its beginning. -/
theorem hexBinaryString_cons (bytesSeparator : Option JavaString) (b : UInt8) (bytes : List UInt8) :
    hexBinaryString bytesSeparator (b :: bytes) = hexByte b ++
      if bytes = [] then [] else bytesSeparator.getD [] ++ hexBinaryString bytesSeparator bytes := by
  rcases List.eq_nil_or_concat bytes with rfl | ⟨bytes, d, rfl⟩
  · rw [if_pos rfl, ← List.nil_append [b], hexBinaryString_concat]
    simp
  · rw [List.concat_eq_append, if_neg (by simp), ← List.cons_append, hexBinaryString_concat,
      hexBinaryString_concat]
    simp

/-- Different bytes have different texts. -/
theorem hexBinaryString_injective (bytesSeparator : Option JavaString) :
    Function.Injective (hexBinaryString bytesSeparator) := by
  intro a b hab
  have hnil : hexBinaryString bytesSeparator [] = [] := rfl
  rcases List.eq_nil_or_concat a with rfl | ⟨a, x, rfl⟩ <;>
    rcases List.eq_nil_or_concat b with rfl | ⟨b, y, rfl⟩
  · rfl
  · rw [hnil, List.concat_eq_append, hexBinaryString_concat] at hab
    exact absurd hab.symm (List.append_ne_nil_of_right_ne_nil _ (List.cons_ne_nil _ _))
  · rw [hnil, List.concat_eq_append, hexBinaryString_concat] at hab
    exact absurd hab (List.append_ne_nil_of_right_ne_nil _ (List.cons_ne_nil _ _))
  · rw [List.concat_eq_append, List.concat_eq_append] at hab ⊢
    refine flatMap_hexByte_injective (bytesSeparator.getD []) ?_
    rw [hexBinaryString_concat, hexBinaryString_concat] at hab
    simpa using congrArg (· ++ bytesSeparator.getD []) hab

/-- The characters of a text, which are more with more bytes. -/
theorem length_hexBinaryString (bytesSeparator : Option JavaString) (bytes : List UInt8) :
    (hexBinaryString bytesSeparator bytes).length =
      bytes.length * (2 + (bytesSeparator.getD []).length) - (bytesSeparator.getD []).length := by
  have hlength : (bytes.flatMap fun b => hexByte b ++ bytesSeparator.getD []).length =
      bytes.length * (2 + (bytesSeparator.getD []).length) := by
    rw [List.length_flatMap]
    simp only [List.length_append, hexByte, List.length_cons, List.length_nil, List.map_const',
      List.sum_replicate_nat]
  unfold hexBinaryString
  dsimp only
  split_ifs with hpos
  · rw [List.length_take, hlength, Nat.min_eq_left (Nat.sub_le _ _)]
  · rw [hlength] at hpos ⊢
    omega

/-- The keys of a packet. -/
def sentText (cfg : PrintSettings) (h : Heap) (packet : Packet) : JavaString :=
  hexBinaryString cfg.bytesSeparator (bytesOf cfg h (some packet.transmittedLeafNode))

def answerText (cfg : PrintSettings) (h : Heap) (packet : Packet) : JavaString :=
  hexBinaryString cfg.bytesSeparator (bytesOf cfg h packet.receivedLeafNode)

/-- A label can be made of a text. -/
def HasLabel (cfg : PrintSettings) (text : JavaString) : Prop :=
  Wrappable text.length (wrapInt (cfg.wrapAfter * 3)) (-1)

/-- The lines of a label. -/
def labelText (cfg : PrintSettings) (text : JavaString) : JavaString :=
  (wrapped text (wrapInt (cfg.wrapAfter * 3)) (-1)).1

/-- It is made exactly then. -/
theorem hasLabel_iff : HasLabel cfg text ↔ ∃ l, label cfg text = .ok l := by
  rw [HasLabel, ← wrapText_ok_iff (isInt_wrapInt _).2 (by decide)]
  constructor
  · rintro ⟨wrapped, hwrap⟩
    exact ⟨wrapped.1, by rw [label, hwrap]; rfl⟩
  · rintro ⟨l, hl⟩
    cases hwrap : wrapText text (wrapInt (cfg.wrapAfter * 3)) (-1) with
    | ok wrapped => exact ⟨wrapped, rfl⟩
    | error err =>
      rw [label, hwrap] at hl
      cases hl

/-- It has these lines then. -/
theorem HasLabel.label_eq (h : HasLabel cfg text) : label cfg text = .ok (labelText cfg text) := by
  rw [label, wrapText_ok h]
  rfl

/-- The text of bytes is made exactly if there is room for it. -/
theorem toHexBinaryString_ok_iff {bytesSeparator : Option JavaString} {bytes : List UInt8} :
    (∃ str, toHexBinaryString bytesSeparator bytes = .ok str) ↔ HasRoom bytesSeparator bytes := by
  rw [toHexBinaryString]
  split_ifs with hroom
  · exact iff_of_true ⟨_, rfl⟩ hroom
  · exact iff_of_false (fun ⟨_, h⟩ => by cases h) hroom

/-- With room it is the bytes with the separator between them. -/
theorem toHexBinaryString_ok {bytesSeparator : Option JavaString} {bytes : List UInt8}
    (hroom : HasRoom bytesSeparator bytes) :
    toHexBinaryString bytesSeparator bytes = .ok (hexBinaryString bytesSeparator bytes) :=
  if_pos hroom

/-- The texts of a packet have room. -/
def PacketHasRoom (cfg : PrintSettings) (h : Heap) (packet : Packet) : Prop :=
  HasRoom cfg.bytesSeparator (rebuiltBytes cfg h packet).1 ∧
    HasRoom cfg.bytesSeparator (rebuiltBytes cfg h packet).2

/-- Without a leaf there are no bytes. -/
theorem getDataFromLeafNode_none (h : Heap) : getDataFromLeafNode h none = some [] := by
  rw [getDataFromLeafNode, leafData]
  rfl

/-- The bytes above a leaf are found without any change. -/
theorem leafBytes_ok {node : Option NodeId} {bytes : List UInt8}
    (hdata : getDataFromLeafNode h node = some bytes)
    (lines : List JavaString) : leafBytes node (h, lines) = .ok bytes (h, lines) := by
  show (match getDataFromLeafNode h node with
    | some bytes => pure bytes
    | none => throw .nullPointer : WriterM (List UInt8)) (h, lines) = _
  rw [hdata]
  rfl

/-- Bytes that go on behind a header are cut there. -/
theorem cut_ok {node : Option NodeId} {bytes : List UInt8} (hdata : getDataFromLeafNode h node = some bytes)
    (hlen : cfg.headerLength ≤ bytes.length) (lines : List JavaString) :
    (liftM (copyOfRange bytes cfg.headerLength bytes.length) : WriterM (List UInt8)) (h, lines) =
      .ok (bytesOf cfg h node) (h, lines) := by
  have htake : (bytes.drop cfg.headerLength).take (bytes.length - cfg.headerLength) = bytesOf cfg h node := by
    rw [bytesOf, hdata, Option.getD_some]
    exact List.take_of_length_le (by rw [List.length_drop])
  rw [← htake]
  exact lift_ok (copyOfRange_ok hlen le_rfl h) lines

/-- A packet is put under the texts of its bytes. -/
theorem addPacket_ok (ht : Rebuilt cfg.headerLength h packet.transmittedLeafNode)
    (hr : ∃ bytes, getDataFromLeafNode h packet.receivedLeafNode = some bytes ∧
      cfg.headerLength ≤ bytes.length) (hroom : PacketHasRoom cfg h packet) :
    addPacket cfg streams packet (h, lines) =
      .ok (putPacket streams (sentText cfg h packet) (answerText cfg h packet) packet) (h, lines) := by
  obtain ⟨sent, hsent, hsentLength⟩ := ht
  obtain ⟨answer, hanswer, hanswerLength⟩ := hr
  refine (bind_ok (leafBytes_ok hsent lines)).trans ((bind_ok (leafBytes_ok hanswer lines)).trans ?_)
  refine (bind_ok (cut_ok hsent hsentLength lines)).trans
    ((bind_ok (lift_eq_ok (toHexBinaryString_ok hroom.1) _)).trans ?_)
  exact (bind_ok (cut_ok hanswer hanswerLength lines)).trans
    (bind_ok (lift_eq_ok (toHexBinaryString_ok hroom.2) _))

/-- Behind an answer that is missing there is no header, and all texts need room. -/
theorem ends_addPacket (ht : Rebuilt cfg.headerLength h packet.transmittedLeafNode)
    (hr : ∀ n ∈ packet.receivedLeafNode, Rebuilt cfg.headerLength h n)
    (hend : Ends (addPacket cfg streams packet) (h, lines)) :
    (∃ bytes, getDataFromLeafNode h packet.receivedLeafNode = some bytes ∧ cfg.headerLength ≤ bytes.length) ∧
      PacketHasRoom cfg h packet := by
  obtain ⟨sent, hsent, hsentLength⟩ := ht
  have hgoes {answer : List UInt8} (hanswer : getDataFromLeafNode h packet.receivedLeafNode = some answer) :
      HasRoom cfg.bytesSeparator (rebuiltBytes cfg h packet).1 ∧
        (cfg.headerLength ≤ answer.length → HasRoom cfg.bytesSeparator (rebuiltBytes cfg h packet).2) ∧
        Ends (liftM (copyOfRange answer cfg.headerLength answer.length) : WriterM (List UInt8))
          (h, lines) := by
    have hsentEnd := ((hend.behind (leafBytes_ok hsent lines)).behind (leafBytes_ok hanswer lines)).behind
      (cut_ok hsent hsentLength lines)
    obtain ⟨str, hstr⟩ := ends_lift_iff.mp hsentEnd.of_bind
    have hanswerEnd := hsentEnd.behind (lift_eq_ok hstr _)
    refine ⟨toHexBinaryString_ok_iff.mp ⟨str, hstr⟩, fun hlen => ?_, hanswerEnd.of_bind⟩
    exact toHexBinaryString_ok_iff.mp
      (ends_lift_iff.mp (hanswerEnd.behind (cut_ok hanswer hlen lines)).of_bind)
  have hbytes : ∃ bytes, getDataFromLeafNode h packet.receivedLeafNode = some bytes ∧
      cfg.headerLength ≤ bytes.length := by
    cases hnode : packet.receivedLeafNode with
    | some n => exact hr n hnode
    | none =>
      refine ⟨[], getDataFromLeafNode_none h, not_lt.mp fun hheader => ?_⟩
      have hbad : copyOfRange [] cfg.headerLength 0 h = .error .illegalArgument h := by
        rw [copyOfRange, if_pos (show cfg.headerLength > 0 from hheader)]
        rfl
      exact ExceptionRuns.not_ends_of_error (lift_error hbad lines)
        (hgoes (hnode ▸ getDataFromLeafNode_none h)).2.2
  obtain ⟨answer, hanswer, hlen⟩ := hbytes
  exact ⟨⟨answer, hanswer, hlen⟩, (hgoes hanswer).1, (hgoes hanswer).2.1 hlen⟩

/-- All packets can be put under their texts. -/
def Answered (cfg : PrintSettings) (packets : List Packet) : Prop :=
  cfg.headerLength = 0 ∨ ∀ p ∈ packets, p.receivedLeafNode ≠ none

/-- All packets are filed if they are answered and there is room for their texts. -/
theorem addPackets_ok (ht : ∀ p ∈ packets, Rebuilt cfg.headerLength h p.transmittedLeafNode)
    (hr : ∀ p ∈ packets, ∀ n ∈ p.receivedLeafNode, Rebuilt cfg.headerLength h n)
    (hanswered : Answered cfg packets) (hroom : ∀ p ∈ packets, PacketHasRoom cfg h p) (streams : Streams)
    (lines : List JavaString) :
    packets.foldlM (addPacket cfg) streams (h, lines) =
      .ok (packets.foldl
        (fun streams p => putPacket streams (sentText cfg h p) (answerText cfg h p) p) streams)
        (h, lines) := by
  induction packets generalizing streams with
  | nil => rfl
  | cons p rest ih =>
    obtain ⟨hp, hrest⟩ := List.forall_mem_cons.mp ht
    obtain ⟨hp', hrest'⟩ := List.forall_mem_cons.mp hr
    obtain ⟨hproom, hrestroom⟩ := List.forall_mem_cons.mp hroom
    have hbytes : ∃ bytes, getDataFromLeafNode h p.receivedLeafNode = some bytes ∧
        cfg.headerLength ≤ bytes.length := by
      cases hnode : p.receivedLeafNode with
      | some n => exact hp' n hnode
      | none =>
        have hzero : cfg.headerLength = 0 :=
          hanswered.resolve_right fun hall => hall p List.mem_cons_self hnode
        exact ⟨[], getDataFromLeafNode_none h, hzero.le⟩
    rw [List.foldlM_cons, List.foldl_cons, bind_ok (addPacket_ok hp hbytes hproom)]
    exact ih hrest hrest' (hanswered.imp_right fun hall q hq => hall q (List.mem_cons_of_mem _ hq))
      hrestroom _

/-- Otherwise there is an exception. -/
theorem ends_addPackets (ht : ∀ p ∈ packets, Rebuilt cfg.headerLength h p.transmittedLeafNode)
    (hr : ∀ p ∈ packets, ∀ n ∈ p.receivedLeafNode, Rebuilt cfg.headerLength h n)
    (hend : Ends (packets.foldlM (addPacket cfg) streams) (h, lines)) :
    Answered cfg packets ∧ ∀ p ∈ packets, PacketHasRoom cfg h p := by
  induction packets generalizing streams with
  | nil => exact ⟨Or.inr fun _ hp => absurd hp List.not_mem_nil, List.forall_mem_nil _⟩
  | cons p rest ih =>
    obtain ⟨hp, hrest⟩ := List.forall_mem_cons.mp ht
    obtain ⟨hp', hrest'⟩ := List.forall_mem_cons.mp hr
    rw [List.foldlM_cons] at hend
    obtain ⟨hbytes, hroom⟩ := ends_addPacket hp hp' hend.of_bind
    obtain ⟨hanswered, hrestroom⟩ := ih hrest hrest' (hend.behind (addPacket_ok hp hbytes hroom))
    refine ⟨?_, List.forall_mem_cons.mpr ⟨hroom, hrestroom⟩⟩
    rcases Nat.eq_zero_or_pos cfg.headerLength with hzero | hheader
    · exact Or.inl hzero
    · refine Or.inr (List.forall_mem_cons.mpr ⟨fun hnone => ?_, hanswered.resolve_left hheader.ne'⟩)
      obtain ⟨bytes, hdata, hlen⟩ := hbytes
      rw [hnone, getDataFromLeafNode_none] at hdata
      cases hdata
      exact absurd hlen (not_le.mpr hheader)

/-- The packets of all answers. -/
def packetsIn (value : Answers) : List Packet := items id value.entries

/-- Every packet is under its own texts, and there are no texts without a packet. -/
def Filed (cfg : PrintSettings) (h : Heap) (streams : Streams) : Prop :=
  ∀ item ∈ streams.entries, item.2.entries ≠ [] ∧ ∀ answer ∈ item.2.entries, answer.2 ≠ [] ∧
    ∀ p ∈ answer.2, sentText cfg h p = item.1 ∧ answerText cfg h p = answer.1

/-- A packet comes last among those with the same texts. -/
theorem putPacket_eq (streams : Streams) (transmittedStr receivedStr : JavaString) (packet : Packet) :
    putPacket streams transmittedStr receivedStr packet = upsert streams transmittedStr fun value =>
      upsert (value.getD ∅) receivedStr fun p => p.getD [] ++ [packet] := by
  unfold putPacket upsert
  cases streams.lookup transmittedStr with
  | some value => rfl
  | none =>
    have hsingle : AList.singleton receivedStr [packet] =
        AList.insert receivedStr [packet] (∅ : Answers) := (AList.insert_empty _ _).symm
    dsimp only
    rw [hsingle]
    rfl

/-- One packet more. -/
theorem packetsIn_upsert (value : Answers) (receivedStr : JavaString) (packet : Packet) :
    (packetsIn (upsert value receivedStr fun p => p.getD [] ++ [packet])).Perm
    (packetsIn value ++ [packet]) :=
  items_upsert (List.Perm.refl _) fun _ => List.Perm.refl _

/-- It is one more item of the two maps. -/
theorem items_putPacket (streams : Streams) (transmittedStr receivedStr : JavaString) (packet : Packet) :
    (items packetsIn (putPacket streams transmittedStr receivedStr packet).entries).Perm
      (items packetsIn streams.entries ++ [packet]) := by
  rw [putPacket_eq]
  exact items_upsert (packetsIn_upsert ∅ receivedStr packet) fun v => packetsIn_upsert v receivedStr packet

/-- It is filed under its own texts. -/
theorem filed_putPacket (hfiled : Filed cfg h streams) (packet : Packet) :
    Filed cfg h (putPacket streams (sentText cfg h packet) (answerText cfg h packet) packet) := by
  have hanswers (value : Answers) (hvalue : ∀ answer ∈ value.entries, answer.2 ≠ [] ∧ ∀ p ∈ answer.2,
      sentText cfg h p = sentText cfg h packet ∧ answerText cfg h p = answer.1) :
      (upsert value (answerText cfg h packet) fun p => p.getD [] ++ [packet]).entries ≠ [] ∧
        ∀ answer ∈ (upsert value (answerText cfg h packet) fun p => p.getD [] ++ [packet]).entries,
          answer.2 ≠ [] ∧
            ∀ p ∈ answer.2, sentText cfg h p = sentText cfg h packet ∧ answerText cfg h p = answer.1 := by
    refine ⟨upsert_entries_ne_nil, forall_upsert (Q := fun text ps => ps ≠ [] ∧ ∀ p ∈ ps,
      sentText cfg h p = sentText cfg h packet ∧ answerText cfg h p = text) hvalue ?_ ?_⟩
    · refine ⟨List.cons_ne_nil _ _, fun p hp => ?_⟩
      rw [List.mem_singleton.mp hp]
      exact ⟨rfl, rfl⟩
    · rintro ps ⟨-, hps⟩
      refine ⟨List.append_ne_nil_of_right_ne_nil _ (List.cons_ne_nil _ _), fun p hp => ?_⟩
      rcases List.mem_append.mp hp with hp | hp
      · exact hps p hp
      · rw [List.mem_singleton.mp hp]
        exact ⟨rfl, rfl⟩
  rw [putPacket_eq]
  refine forall_upsert (Q := fun text (value : Answers) => value.entries ≠ [] ∧
    ∀ answer ∈ value.entries, answer.2 ≠ [] ∧ ∀ p ∈ answer.2, sentText cfg h p = text ∧
      answerText cfg h p = answer.1) hfiled (hanswers ∅ fun _ hanswer => ?_) fun v hv => hanswers v hv.2
  exact absurd hanswer List.not_mem_nil

/-- All packets are under their texts, each once. -/
theorem filed_foldl (packets : List Packet) (hfiled : Filed cfg h streams) :
    Filed cfg h (packets.foldl (fun streams p =>
        putPacket streams (sentText cfg h p) (answerText cfg h p) p) streams) ∧
      (items packetsIn (packets.foldl (fun streams p =>
        putPacket streams (sentText cfg h p) (answerText cfg h p) p) streams).entries).Perm
          (items packetsIn streams.entries ++ packets) := by
  induction packets generalizing streams with
  | nil => exact ⟨hfiled, by rw [List.append_nil]; exact List.Perm.refl _⟩
  | cons p rest ih =>
    obtain ⟨hfiled', hperm⟩ := ih (filed_putPacket hfiled p)
    refine ⟨hfiled', hperm.trans ?_⟩
    rw [List.append_cons]
    exact (items_putPacket _ _ _ _).append_right rest

/-- The packets of an answer, with the nodes between which they are drawn. -/
structure Group where
  /-- Number of the node of what was sent. -/
  transmittedNode : ℕ
  /-- Number of the node of the answer. -/
  receivedNode : ℕ
  /-- Text of what was sent. -/
  transmittedStr : JavaString
  /-- Text of the answer. -/
  receivedStr : JavaString
  /-- The packets. -/
  packets : List Packet

/-- The groups of some answers, numbered from a node on. -/
def answerGroups (transmittedNode : ℕ) (transmittedStr : JavaString) :
    ℕ → List (Sigma fun _ : JavaString => List Packet) → List Group
  | _, [] => []
  | n, answer :: rest => ⟨transmittedNode, n, transmittedStr, answer.1, answer.2⟩ ::
      answerGroups transmittedNode transmittedStr (n + 1) rest

/-- The groups of all that was sent, numbered from a node on. -/
def streamGroups (hash : HashOrder) : ℕ → List (Sigma fun _ : JavaString => Answers) → List Group
  | _, [] => []
  | n, item :: rest => answerGroups n item.1 (n + 1) (hash.order item.2.entries) ++
      streamGroups hash (n + 1 + item.2.entries.length) rest

/-- The packets of a group, drawn. -/
def Group.drawn (g : Group) : List Drawn := g.packets.map fun p => ⟨p, g.transmittedNode, g.receivedNode⟩

/-- The statements show these groups, with so many nodes from a number on. -/
structure ShowsGroups (cfg : PrintSettings) (root : NodeId) (statements : List Statement)
    (groups : List Group) (first count : ℕ) : Prop where
  /-- The edges. -/
  edges : statements.filter Statement.isEdge = (groups.flatMap Group.drawn).flatMap (Drawn.edges root)
  /-- The labels of the answers. -/
  answers : ∀ g ∈ groups, Labelled cfg statements (identifier g.receivedNode) g.receivedStr
  /-- The nodes are declared in their order. -/
  declared : statements.filterMap Statement.declared = (List.range' first count).map identifier

variable {root : NodeId} {transmittedNode first count n : ℕ} {statements statements' : List Statement}

/-- A line is printed behind the others. -/
theorem println_ok (statement : Statement) (h : Heap) (lines : List JavaString) :
    println statement (h, lines) = .ok () (h, lines ++ [statement.text]) := rfl

/-- A label is among more lines as well. -/
theorem Labelled.mono {text : JavaString} {m : ℤ} (hl : Labelled cfg statements m text)
    (hsub : statements ⊆ statements') : Labelled cfg statements' m text := by
  obtain ⟨l, hlabel, hmem⟩ := hl
  exact ⟨l, hlabel, hsub hmem⟩

/-- The edges of the packets of an answer. -/
theorem printEdges_ok (packets : List Packet) (root transmittedNode receivedNode : NodeId) (h : Heap)
    (lines : List JavaString) :
    (packets.forM fun packet => do
        println (.sent (identifier root) (identifier transmittedNode) packet.ac)
        println (.answered (identifier transmittedNode) (identifier receivedNode) packet.ac
          packet.responseTime) : WriterM Unit) (h, lines) =
      .ok () (h, lines ++ ((packets.map fun p => (⟨p, transmittedNode, receivedNode⟩ : Drawn)).flatMap
        (Drawn.edges root)).map Statement.text) := by
  induction packets generalizing lines with
  | nil => rw [List.map_nil, List.flatMap_nil, List.map_nil, List.append_nil]; rfl
  | cons p rest ih =>
    have hfirst (lines : List JavaString) : (do
        println (.sent (identifier root) (identifier transmittedNode) p.ac)
        println (.answered (identifier transmittedNode) (identifier receivedNode) p.ac p.responseTime) :
          WriterM Unit) (h, lines) =
          .ok () (h, lines ++
            ((⟨p, transmittedNode, receivedNode⟩ : Drawn).edges root).map Statement.text) := by
      refine (bind_ok (println_ok _ h lines)).trans ?_
      rw [println_ok, List.append_assoc]
      rfl
    rw [List.map_cons, List.flatMap_cons, List.map_append, ← List.append_assoc]
    exact (bind_ok (hfirst lines)).trans (ih _)

/-- What is drawn are edges. -/
theorem isEdge_of_mem {statement : Statement} {drawn : List Drawn}
    (hstatement : statement ∈ drawn.flatMap (Drawn.edges root)) : statement.isEdge = true := by
  obtain ⟨d, -, hd⟩ := List.mem_flatMap.mp hstatement
  rcases List.mem_cons.mp hd with rfl | hd
  · rfl
  · rw [List.mem_singleton.mp hd]
    rfl

/-- Edges are kept by the filter. -/
theorem filter_edges (drawn : List Drawn) (root : NodeId) :
    (drawn.flatMap (Drawn.edges root)).filter Statement.isEdge = drawn.flatMap (Drawn.edges root) :=
  List.filter_eq_self.mpr fun _ hstatement => isEdge_of_mem hstatement

/-- Edges declare no node. -/
theorem declared_edges (drawn : List Drawn) (root : NodeId) :
    (drawn.flatMap (Drawn.edges root)).filterMap Statement.declared = [] := by
  refine List.filterMap_eq_nil_iff.mpr fun statement hstatement => ?_
  have hedge := isEdge_of_mem hstatement
  cases statement <;> first | rfl | cases hedge

/-- No groups need no lines. -/
theorem showsGroups_nil (root : NodeId) (first : ℕ) : ShowsGroups cfg root [] [] first 0 :=
  ⟨rfl, fun _ hg => absurd hg List.not_mem_nil, rfl⟩

/-- Groups are shown one after the other. -/
theorem ShowsGroups.append {groups groups' : List Group} {more : ℕ}
    (hs : ShowsGroups cfg root statements groups first count)
    (hs' : ShowsGroups cfg root statements' groups' (first + count) more) :
    ShowsGroups cfg root (statements ++ statements') (groups ++ groups') first (count + more) := by
  refine ⟨?_, fun g hg => ?_, ?_⟩
  · rw [List.filter_append, hs.edges, hs'.edges, List.flatMap_append, List.flatMap_append]
  · rcases List.mem_append.mp hg with hg | hg
    · exact (hs.answers g hg).mono (List.subset_append_left _ _)
    · exact (hs'.answers g hg).mono (List.subset_append_right _ _)
  · rw [List.filterMap_append, hs.declared, hs'.declared, ← List.map_append, List.range'_append_1]

/-- One answer. -/
theorem printAnswer_ok (root transmittedNode : NodeId) {answer : Sigma fun _ : JavaString => List Packet}
    (hlabel : HasLabel cfg answer.1) (transmittedStr : JavaString) (h : Heap) (lines : List JavaString) :
    ∃ h' statements, printAnswer cfg root transmittedNode answer (h, lines) =
        .ok () (h', lines ++ statements.map Statement.text) ∧ h'.length = h.length + 1 ∧
      ShowsGroups cfg root statements [⟨transmittedNode, h.length, transmittedStr, answer.1, answer.2⟩]
        h.length 1 := by
  obtain ⟨l, hl⟩ := hasLabel_iff.mp hlabel
  refine ⟨h ++ [⟨[], ∅, none, 1⟩], .node (identifier h.length) l ::
    (answer.2.map fun p => (⟨p, transmittedNode, h.length⟩ : Drawn)).flatMap (Drawn.edges root),
    ?_, ?_, ?_, ?_, ?_⟩
  · refine (bind_ok (lift_ok (newNode_ok [] h) lines)).trans ((bind_ok (lift_eq_ok hl _)).trans
      ((bind_ok (println_ok _ _ lines)).trans ?_))
    rw [printEdges_ok, List.append_assoc]
    rfl
  · rw [List.length_append]
    rfl
  · rw [List.flatMap_singleton]
    exact filter_edges _ root
  · intro g hg
    rw [List.mem_singleton.mp hg]
    exact ⟨l, hl, List.mem_cons_self⟩
  · exact congrArg (identifier h.length :: ·) (declared_edges _ root)

/-- All answers to what was sent. -/
theorem printAnswers_ok (root transmittedNode : NodeId)
    {answers : List (Sigma fun _ : JavaString => List Packet)}
    (hlabels : ∀ answer ∈ answers, HasLabel cfg answer.1) (transmittedStr : JavaString) (h : Heap)
    (lines : List JavaString) :
    ∃ h' statements, answers.forM (printAnswer cfg root transmittedNode) (h, lines) =
        .ok () (h', lines ++ statements.map Statement.text) ∧ h'.length = h.length + answers.length ∧
      ShowsGroups cfg root statements (answerGroups transmittedNode transmittedStr h.length answers)
        h.length answers.length := by
  induction answers generalizing h lines with
  | nil => exact ⟨h, [], by rw [List.map_nil, List.append_nil]; rfl, rfl, showsGroups_nil root h.length⟩
  | cons answer rest ih =>
    obtain ⟨hlabel, hrest⟩ := List.forall_mem_cons.mp hlabels
    obtain ⟨h1, first, hrun, hlen, hshows⟩ :=
      printAnswer_ok root transmittedNode hlabel transmittedStr h lines
    obtain ⟨h2, more, hrun', hlen', hshows'⟩ := ih hrest h1 (lines ++ first.map Statement.text)
    refine ⟨h2, first ++ more, (bind_ok hrun).trans ?_, ?_, ?_⟩
    · rw [List.map_append, ← List.append_assoc]
      exact hrun'
    · rw [hlen', hlen, List.length_cons]
      omega
    · rw [hlen] at hshows'
      rw [List.length_cons, Nat.add_comm rest.length]
      exact hshows.append hshows'

/-- The groups show what was sent. -/
def SentLabels (cfg : PrintSettings) (statements : List Statement) (groups : List Group) : Prop :=
  ∀ g ∈ groups, Labelled cfg statements (identifier g.transmittedNode) g.transmittedStr

/-- A group of answers has one of the new nodes and the packets of its text. -/
theorem of_mem_answerGroups {transmittedStr : JavaString}
    {answers : List (Sigma fun _ : JavaString => List Packet)}
    {g : Group} (hg : g ∈ answerGroups transmittedNode transmittedStr n answers) :
    g.transmittedNode = transmittedNode ∧ g.transmittedStr = transmittedStr ∧ n ≤ g.receivedNode ∧
      g.receivedNode < n + answers.length ∧ ⟨g.receivedStr, g.packets⟩ ∈ answers := by
  induction answers generalizing n with
  | nil => exact absurd hg List.not_mem_nil
  | cons answer rest ih =>
    rw [List.length_cons]
    rcases List.mem_cons.mp hg with rfl | hg
    · exact ⟨rfl, rfl, Nat.le_refl n, Nat.lt_add_of_pos_right (Nat.succ_pos _), List.mem_cons_self⟩
    · obtain ⟨hnode, hstr, hlow, hhigh, hmem⟩ := ih hg
      exact ⟨hnode, hstr, by omega, by omega, List.mem_cons_of_mem _ hmem⟩

/-- Labels can be made of what was sent and of the answers to it. -/
def HasLabels (cfg : PrintSettings) (item : Sigma fun _ : JavaString => Answers) : Prop :=
  HasLabel cfg item.1 ∧ ∀ answer ∈ item.2.entries, HasLabel cfg answer.1

/-- What was sent once. -/
theorem printStream_ok (hash : HashOrder) (root : NodeId) {item : Sigma fun _ : JavaString => Answers}
    (hlabels : HasLabels cfg item) (h : Heap) (lines : List JavaString) :
    ∃ h' statements, printStream cfg hash root item (h, lines) =
        .ok () (h', lines ++ statements.map Statement.text) ∧
      h'.length = h.length + (1 + item.2.entries.length) ∧
      ShowsGroups cfg root statements
        (answerGroups h.length item.1 (h.length + 1) (hash.order item.2.entries)) h.length
        (1 + item.2.entries.length) ∧
      SentLabels cfg statements
      (answerGroups h.length item.1 (h.length + 1) (hash.order item.2.entries)) := by
  obtain ⟨hsent, hanswers⟩ := hlabels
  obtain ⟨l, hl⟩ := hasLabel_iff.mp hsent
  obtain ⟨h', statements, hrun, hlen, hshows⟩ := printAnswers_ok root h.length
    (fun answer ha => hanswers answer ((hash.perm item.2.entries).subset ha))
    item.1 (h ++ [⟨[], ∅, none, 1⟩]) (lines ++ [Statement.text (.node (identifier h.length) l)])
  rw [List.length_append, (hash.perm _).length_eq] at hlen hshows
  refine ⟨h', .node (identifier h.length) l :: statements,
    (bind_ok (lift_ok (newNode_ok [] h) lines)).trans ((bind_ok (lift_eq_ok hl _)).trans
      ((bind_ok (println_ok _ _ lines)).trans ?_)), by rw [hlen, Nat.add_assoc]; rfl,
    ⟨hshows.edges, fun g hg => (hshows.answers g hg).mono (List.subset_cons_self _ _), ?_⟩,
    fun g hg => ?_⟩
  · rw [hrun, List.append_assoc]
    rfl
  · rw [Nat.add_comm 1, List.range'_succ]
    exact congrArg (identifier h.length :: ·) hshows.declared
  · obtain ⟨hnode, hstr, -⟩ := of_mem_answerGroups hg
    rw [hnode, hstr]
    exact ⟨l, hl, List.mem_cons_self⟩

/-- The nodes for all that was sent. -/
def nodesIn (items : List (Sigma fun _ : JavaString => Answers)) : ℕ :=
  (items.map fun item => 1 + item.2.entries.length).sum

/-- All that was sent. -/
theorem printStreams_ok (hash : HashOrder) (root : NodeId)
    {items : List (Sigma fun _ : JavaString => Answers)} (hlabels : ∀ item ∈ items, HasLabels cfg item)
    (h : Heap) (lines : List JavaString) :
    ∃ h' statements, items.forM (printStream cfg hash root) (h, lines) =
        .ok () (h', lines ++ statements.map Statement.text) ∧
      ShowsGroups cfg root statements (streamGroups hash h.length items) h.length (nodesIn items) ∧
      SentLabels cfg statements (streamGroups hash h.length items) := by
  induction items generalizing h lines with
  | nil =>
    exact ⟨h, [], by rw [List.map_nil, List.append_nil]; rfl, showsGroups_nil root h.length,
      fun _ hg => absurd hg List.not_mem_nil⟩
  | cons item rest ih =>
    obtain ⟨hitem, hrest⟩ := List.forall_mem_cons.mp hlabels
    obtain ⟨h1, first, hrun, hlen, hshows, hsent⟩ := printStream_ok hash root hitem h lines
    obtain ⟨h2, more, hrun', hshows', hsent'⟩ := ih hrest h1 (lines ++ first.map Statement.text)
    rw [hlen] at hshows' hsent'
    refine ⟨h2, first ++ more, (bind_ok hrun).trans ?_, ?_, fun g hg => ?_⟩
    · rw [List.map_append, ← List.append_assoc]
      exact hrun'
    · rw [streamGroups, Nat.add_assoc]
      exact hshows.append hshows'
    · rw [streamGroups, Nat.add_assoc] at hg
      rcases List.mem_append.mp hg with hg | hg
      · exact (hsent g hg).mono (List.subset_append_left _ _)
      · exact (hsent' g hg).mono (List.subset_append_right _ _)

/-- Without a label there is an exception. -/
theorem hasLabel_of_ends_printAnswer {answer : Sigma fun _ : JavaString => List Packet}
    {s : Heap × List JavaString}
    (h : Ends (printAnswer cfg root transmittedNode answer) s) : HasLabel cfg answer.1 :=
  hasLabel_iff.mpr (ends_lift_iff.mp (h.behind (lift_ok (newNode_ok [] s.1) s.2)).of_bind)

/-- A stream that has been printed had labels. -/
theorem hasLabels_of_ends_printStream {item : Sigma fun _ : JavaString => Answers}
    {s : Heap × List JavaString}
    (h : Ends (printStream cfg hash root item) s) : HasLabels cfg item := by
  have hnode : Ends _ _ := h.behind (lift_ok (newNode_ok [] s.1) s.2)
  obtain ⟨l, hl⟩ := ends_lift_iff.mp hnode.of_bind
  refine ⟨hasLabel_iff.mpr ⟨l, hl⟩, fun answer hanswer => ?_⟩
  obtain ⟨s', hs'⟩ := ((hnode.behind (lift_eq_ok hl _)).behind (println_ok _ _ _)).of_forM
    ((hash.perm _).symm.subset hanswer)
  exact hasLabel_of_ends_printAnswer hs'

/-- Answers have the same node exactly if they have the same text. -/
theorem sameIff_answerGroups {transmittedStr : JavaString}
    {answers : List (Sigma fun _ : JavaString => List Packet)} (hkeys : answers.NodupKeys) :
    SameIff Group.receivedNode (fun g => (g.transmittedStr, g.receivedStr))
      (answerGroups transmittedNode transmittedStr n answers) := by
  induction answers generalizing n with
  | nil => exact sameIff_nil
  | cons answer rest ih =>
    obtain ⟨hnew, hrest⟩ := List.nodupKeys_cons.mp hkeys
    let first : Group := ⟨transmittedNode, n, transmittedStr, answer.1, answer.2⟩
    have hfirst : SameIff Group.receivedNode (fun g => (g.transmittedStr, g.receivedStr)) [first] :=
      fun g hg g' hg' => by rw [List.mem_singleton.mp hg, List.mem_singleton.mp hg']; simp
    refine hfirst.append (ih hrest) fun g hg g' hg' => ?_
    obtain ⟨-, -, hlow, -, hmem⟩ := of_mem_answerGroups hg'
    rw [List.mem_singleton.mp hg]
    refine ⟨(Nat.lt_of_succ_le hlow).ne, fun hstr => hnew ?_⟩
    rw [show answer.1 = g'.receivedStr from congrArg Prod.snd hstr]
    exact List.mem_keys_of_mem hmem

/-- A group has new nodes, the first of them for what was sent. -/
theorem of_mem_streamGroups {items : List (Sigma fun _ : JavaString => Answers)} {g : Group}
    (hg : g ∈ streamGroups hash n items) :
    n ≤ g.transmittedNode ∧ n < g.receivedNode ∧
      ∃ item ∈ items, g.transmittedStr = item.1 ∧ ⟨g.receivedStr, g.packets⟩ ∈ item.2.entries := by
  induction items generalizing n with
  | nil => exact absurd hg List.not_mem_nil
  | cons item rest ih =>
    rcases List.mem_append.mp hg with hg | hg
    · obtain ⟨hnode, hstr, hlow, -, hmem⟩ := of_mem_answerGroups hg
      exact ⟨hnode.ge, hlow, item, List.mem_cons_self, hstr, (hash.perm _).subset hmem⟩
    · obtain ⟨hnode, hlow, other, hother, hrest⟩ := ih hg
      exact ⟨by omega, by omega, other, List.mem_cons_of_mem _ hother, hrest⟩

/-- Its nodes are counted. -/
theorem lt_of_mem_streamGroups {items : List (Sigma fun _ : JavaString => Answers)} {g : Group}
    (hg : g ∈ streamGroups hash n items) :
    g.transmittedNode < n + nodesIn items ∧ g.receivedNode < n + nodesIn items := by
  induction items generalizing n with
  | nil => exact absurd hg List.not_mem_nil
  | cons item rest ih =>
    have hcount : nodesIn (item :: rest) = 1 + item.2.entries.length + nodesIn rest := rfl
    rw [hcount]
    rcases List.mem_append.mp hg with hg | hg
    · obtain ⟨hnode, -, -, hhigh, -⟩ := of_mem_answerGroups hg
      rw [(hash.perm _).length_eq] at hhigh
      exact ⟨by omega, by omega⟩
    · obtain ⟨hnode, hreceived⟩ := ih hg
      exact ⟨by omega, by omega⟩

/-- The groups have their own nodes. -/
structure Apart (groups : List Group) : Prop where
  /-- One first node for one text. -/
  transmitted : SameIff Group.transmittedNode Group.transmittedStr groups
  /-- One second node for two texts. -/
  received : SameIff Group.receivedNode (fun g => (g.transmittedStr, g.receivedStr)) groups
  /-- First and second nodes are different. -/
  different : ∀ g ∈ groups, ∀ g' ∈ groups, g.transmittedNode ≠ g'.receivedNode

/-- Different streams have nodes of their own. -/
theorem apart_streamGroups {items : List (Sigma fun _ : JavaString => Answers)} (hkeys : items.NodupKeys) :
    Apart (streamGroups hash n items) := by
  induction items generalizing n with
  | nil => exact ⟨sameIff_nil, sameIff_nil, fun _ hg => absurd hg List.not_mem_nil⟩
  | cons item rest ih =>
    obtain ⟨hnew, hrest⟩ := List.nodupKeys_cons.mp hkeys
    have hmore := ih (n := n + 1 + item.2.entries.length) hrest
    have hanswers : (hash.order item.2.entries).NodupKeys :=
      (List.perm_nodupKeys (hash.perm _)).mpr item.2.nodupKeys
    have hfirst : ∀ g ∈ answerGroups n item.1 (n + 1) (hash.order item.2.entries), g.transmittedNode = n ∧
        g.transmittedStr = item.1 ∧ n < g.receivedNode ∧ g.receivedNode < n + 1 + item.2.entries.length := by
      intro g hg
      obtain ⟨hnode, hstr, hlow, hhigh, -⟩ := of_mem_answerGroups hg
      rw [(hash.perm _).length_eq] at hhigh
      exact ⟨hnode, hstr, hlow, hhigh⟩
    have hothers : ∀ g ∈ streamGroups hash (n + 1 + item.2.entries.length) rest,
        n + 1 + item.2.entries.length ≤ g.transmittedNode ∧ n + 1 + item.2.entries.length < g.receivedNode ∧
          item.1 ≠ g.transmittedStr := by
      intro g hg
      obtain ⟨hnode, hlow, other, hother, hstr, -⟩ := of_mem_streamGroups hg
      refine ⟨hnode, hlow, fun hsame => hnew ?_⟩
      rw [hsame, hstr]
      exact List.mem_keys_of_mem hother
    refine ⟨?_, ?_, fun g hg g' hg' => ?_⟩
    · refine SameIff.append ?_ hmore.transmitted fun g hg g' hg' => ?_
      · exact sameIff_const (fun g hg => (hfirst g hg).1) fun g hg => (hfirst g hg).2.1
      · obtain ⟨hnode, hstr, -⟩ := hfirst g hg
        obtain ⟨hnode', -, hstr'⟩ := hothers g' hg'
        exact ⟨by omega, by rw [hstr]; exact hstr'⟩
    · refine (sameIff_answerGroups hanswers).append hmore.received fun g hg g' hg' => ?_
      obtain ⟨-, hstr, -, hhigh⟩ := hfirst g hg
      obtain ⟨-, hlow, hstr'⟩ := hothers g' hg'
      refine ⟨by omega, fun hboth => hstr' ?_⟩
      rw [← hstr]
      exact congrArg Prod.fst hboth
    · rcases List.mem_append.mp hg with hg | hg <;> rcases List.mem_append.mp hg' with hg' | hg'
      · have hnode := (hfirst g hg).1
        have hnode' := (hfirst g' hg').2.2.1
        omega
      · have hnode := (hfirst g hg).1
        have hnode' := (hothers g' hg').2.1
        omega
      · have hnode := (hothers g hg).1
        have hnode' := (hfirst g' hg').2.2.2
        omega
      · exact hmore.different g hg g' hg'

/-- The groups of a stream have its packets. -/
theorem flatMap_answerGroups (transmittedNode : ℕ) (transmittedStr : JavaString) (n : ℕ)
    (answers : List (Sigma fun _ : JavaString => List Packet)) :
    (answerGroups transmittedNode transmittedStr n answers).flatMap Group.packets = items id answers := by
  induction answers generalizing n with
  | nil => rfl
  | cons answer rest ih =>
    rw [answerGroups, List.flatMap_cons, ih]
    rfl

/-- All groups together have all packets. -/
theorem flatMap_streamGroups (hash : HashOrder) (n : ℕ)
    (streams : List (Sigma fun _ : JavaString => Answers)) :
    (streamGroups hash n streams).flatMap Group.packets =
      items (fun value => items id (hash.order value.entries)) streams := by
  induction streams generalizing n with
  | nil => rfl
  | cons item rest ih =>
    rw [streamGroups, List.flatMap_append, flatMap_answerGroups, ih]
    rfl

/-- The groups of the packets of a tree. -/
def treeStreams (cfg : PrintSettings) (h : Heap) (packets : List Packet) : Streams :=
  packets.foldl (fun streams p => putPacket streams (sentText cfg h p) (answerText cfg h p) p) ∅

/-- The packets of a tree are filed, and none is lost. -/
theorem filed_treeStreams (cfg : PrintSettings) (h : Heap) (packets : List Packet) :
    Filed cfg h (treeStreams cfg h packets) ∧
      (items packetsIn (treeStreams cfg h packets).entries).Perm packets :=
  filed_foldl packets fun _ hitem => absurd hitem List.not_mem_nil

/-- The texts of the entries. -/
def textsIn (entries : List (Sigma fun _ : JavaString => Answers)) : List (JavaString × JavaString) :=
  entries.flatMap fun item => item.2.entries.map fun answer => (item.1, answer.1)

/-- No pair of texts is filed twice. -/
theorem nodup_textsIn {entries : List (Sigma fun _ : JavaString => Answers)} (hkeys : entries.NodupKeys) :
    (textsIn entries).Nodup := by
  refine List.nodup_flatMap.mpr ⟨fun item _ => ?_, (List.pairwise_map.mp hkeys).imp fun hne => ?_⟩
  · have hmap : (item.2.entries.map fun answer => (item.1, answer.1)) = item.2.keys.map (Prod.mk item.1) :=
      (List.map_map (f := Sigma.fst) (g := Prod.mk item.1)).symm
    rw [hmap]
    exact item.2.keys_nodup.map (Prod.mk_right_injective item.1)
  · intro pair hpair hpair'
    obtain ⟨answer, -, rfl⟩ := List.mem_map.mp hpair
    obtain ⟨answer', -, heq⟩ := List.mem_map.mp hpair'
    exact hne (congrArg Prod.fst heq).symm

/-- The texts are those of the packets. -/
theorem mem_textsIn_iff (hfiled : Filed cfg h streams)
    (hperm : (items packetsIn streams.entries).Perm packets) (pair : JavaString × JavaString) :
    pair ∈ textsIn streams.entries ↔ pair ∈ packets.map fun p => (sentText cfg h p, answerText cfg h p) := by
  have hpackets (p : Packet) : p ∈ packets ↔
      ∃ item ∈ streams.entries, ∃ answer ∈ item.2.entries, p ∈ answer.2 := by
    simp only [← hperm.mem_iff, items, packetsIn, List.mem_flatMap, id]
  simp only [textsIn, List.mem_flatMap, List.mem_map, hpackets]
  constructor
  · rintro ⟨item, hitem, answer, hanswer, rfl⟩
    obtain ⟨hne, htexts⟩ := (hfiled item hitem).2 answer hanswer
    obtain ⟨p, rest, hp⟩ := List.exists_cons_of_ne_nil hne
    have hmem : p ∈ answer.2 := hp ▸ List.mem_cons_self
    obtain ⟨hsent, hreceived⟩ := htexts p hmem
    exact ⟨p, ⟨item, hitem, answer, hanswer, hmem⟩, by rw [hsent, hreceived]⟩
  · rintro ⟨p, ⟨item, hitem, answer, hanswer, hmem⟩, rfl⟩
    obtain ⟨hsent, hreceived⟩ := ((hfiled item hitem).2 answer hanswer).2 p hmem
    exact ⟨item, hitem, answer, hanswer, by rw [hsent, hreceived]⟩

/-- The keys are the first texts. -/
theorem mem_keys_iff (hfiled : Filed cfg h streams) (key : JavaString) :
    key ∈ streams.keys ↔ key ∈ (textsIn streams.entries).map Prod.fst := by
  simp only [AList.keys, List.keys, textsIn, List.mem_map, List.mem_flatMap]
  constructor
  · rintro ⟨item, hitem, rfl⟩
    obtain ⟨answer, rest, hanswer⟩ := List.exists_cons_of_ne_nil (hfiled item hitem).1
    exact ⟨(item.1, answer.1), ⟨item, hitem, answer, hanswer ▸ List.mem_cons_self, rfl⟩, rfl⟩
  · rintro ⟨pair, ⟨item, hitem, answer, -, rfl⟩, rfl⟩
    exact ⟨item, hitem, rfl⟩

/-- A node for every key and one for every pair of texts. -/
theorem nodesIn_eq (entries : List (Sigma fun _ : JavaString => Answers)) :
    nodesIn entries = entries.length + (textsIn entries).length := by
  induction entries with
  | nil => rfl
  | cons item rest ih =>
    have hnodes : nodesIn (item :: rest) = 1 + item.2.entries.length + nodesIn rest := rfl
    have htexts : (textsIn (item :: rest)).length = item.2.entries.length + (textsIn rest).length := by
      rw [textsIn, List.flatMap_cons, List.length_append, List.length_map]
      rfl
    rw [hnodes, htexts, ih, List.length_cons]
    omega

/-- Names of streams do not matter to the number of nodes. -/
theorem nodeCount_map {κ ι : Type} [DecidableEq κ] [DecidableEq ι] {f : κ → ι}
    (hf : Function.Injective f) (exchanges : List (κ × κ)) :
    nodeCount (exchanges.map (Prod.map f f)) = nodeCount exchanges := by
  have hfirst : (exchanges.map (Prod.map f f)).map Prod.fst = (exchanges.map Prod.fst).map f := by
    rw [List.map_map, List.map_map]
    rfl
  rw [nodeCount, nodeCount, hfirst, List.dedup_map_of_injective hf,
    List.dedup_map_of_injective (hf.prodMap hf), List.length_map, List.length_map]

/-- The nodes of the packets are counted. -/
theorem nodesIn_order (hash : HashOrder) (hfiled : Filed cfg h streams)
    (hperm : (items packetsIn streams.entries).Perm packets) :
    nodesIn (hash.order streams.entries) = nodeCount (packets.map (rebuiltBytes cfg h)) := by
  have horder : nodesIn (hash.order streams.entries) = nodesIn streams.entries :=
    ((hash.perm streams.entries).map _).sum_nat
  have htexts : packets.map (fun p => (sentText cfg h p, answerText cfg h p)) =
      (packets.map (rebuiltBytes cfg h)).map
        (Prod.map (hexBinaryString cfg.bytesSeparator) (hexBinaryString cfg.bytesSeparator)) := by
    rw [List.map_map]
    rfl
  have hmem := mem_textsIn_iff hfiled hperm
  have hkeys : streams.entries.length = _ :=
    (List.length_map (f := Sigma.fst)).symm.trans (length_eq_dedup streams.keys_nodup (mem_keys_iff hfiled))
  have hfirst : ((textsIn streams.entries).map Prod.fst).dedup.length = _ :=
    length_eq_dedup (List.nodup_dedup _) fun key => List.mem_dedup.trans
      (List.mem_map.trans ((exists_congr fun pair => and_congr_left' (hmem pair)).trans List.mem_map.symm))
  rw [horder, nodesIn_eq, hkeys, hfirst, length_eq_dedup (nodup_textsIn streams.nodupKeys) hmem, htexts,
    ← nodeCount_map (hexBinaryString_injective cfg.bytesSeparator)]
  rfl

/-- Every packet of a group is drawn. -/
theorem map_packet_drawn (groups : List Group) :
    (groups.flatMap Group.drawn).map Drawn.packet = groups.flatMap Group.packets := by
  rw [List.map_flatMap]
  refine List.flatMap_congr fun g _ => ?_
  rw [Group.drawn, List.map_map]
  exact List.map_id _

/-- A packet is drawn between the nodes of the group of its texts. -/
theorem group_of_drawn (hfiled : Filed cfg h streams) {d : Drawn}
    (hd : d ∈ (streamGroups hash n (hash.order streams.entries)).flatMap Group.drawn) :
    ∃ g ∈ streamGroups hash n (hash.order streams.entries), d.transmittedNode = g.transmittedNode ∧
      d.receivedNode = g.receivedNode ∧ sentText cfg h d.packet = g.transmittedStr ∧
        answerText cfg h d.packet = g.receivedStr := by
  obtain ⟨g, hg, hdrawn⟩ := List.mem_flatMap.mp hd
  obtain ⟨p, hp, rfl⟩ := List.mem_map.mp hdrawn
  obtain ⟨-, -, item, hitem, hstr, hmem⟩ := of_mem_streamGroups hg
  obtain ⟨hsent, hanswer⟩ := ((hfiled item ((hash.perm _).subset hitem)).2 _ hmem).2 p hp
  exact ⟨g, hg, rfl, rfl, hsent.trans hstr.symm, hanswer⟩

/-- The groups of a tree draw its packets. -/
theorem shows_groups {l : JavaString}
    (hshows : ShowsGroups cfg tree.root statements (streamGroups hash h.length
      (hash.order (treeStreams cfg h tree.streamPackets).entries)) h.length
      (nodesIn (hash.order (treeStreams cfg h tree.streamPackets).entries)))
    (hlabels : SentLabels cfg statements (streamGroups hash h.length
      (hash.order (treeStreams cfg h tree.streamPackets).entries))) :
    Shows cfg h tree (.root (identifier tree.root) l :: statements) ((streamGroups hash h.length
      (hash.order (treeStreams cfg h tree.streamPackets).entries)).flatMap Group.drawn) := by
  obtain ⟨hfiled, hperm⟩ := filed_treeStreams cfg h tree.streamPackets
  generalize treeStreams cfg h tree.streamPackets = streams at *
  have hcount := nodesIn_order hash hfiled hperm
  have hkeys : (hash.order streams.entries).NodupKeys :=
    (List.perm_nodupKeys (hash.perm _)).mpr streams.nodupKeys
  have hapart : Apart (streamGroups hash h.length (hash.order streams.entries)) := apart_streamGroups hkeys
  have hbytes {a b : List UInt8} : hexBinaryString cfg.bytesSeparator a =
      hexBinaryString cfg.bytesSeparator b ↔ a = b := (hexBinaryString_injective _).eq_iff
  refine ⟨?_, hshows.edges, fun d hd e he => ?_, fun d hd e he => ?_, fun d hd e he => ?_, fun d hd => ?_,
    ?_, fun d hd => ?_⟩
  · rw [map_packet_drawn, flatMap_streamGroups]
    refine (items_perm (hash.perm _) fun value => ?_).trans hperm
    exact items_perm (hash.perm _) fun _ => List.Perm.refl _
  · obtain ⟨g, hg, hnode, -, hstr, -⟩ := group_of_drawn hfiled hd
    obtain ⟨g', hg', hnode', -, hstr', -⟩ := group_of_drawn hfiled he
    rw [hnode, hnode', hapart.transmitted g hg g' hg', ← hstr, ← hstr']
    exact hbytes
  · obtain ⟨g, hg, -, hnode, hstr, hanswer⟩ := group_of_drawn hfiled hd
    obtain ⟨g', hg', -, hnode', hstr', hanswer'⟩ := group_of_drawn hfiled he
    rw [hnode, hnode', hapart.received g hg g' hg']
    dsimp only
    rw [← hstr, ← hstr', ← hanswer, ← hanswer', Prod.mk.injEq, Prod.mk.injEq]
    exact and_congr hbytes hbytes
  · obtain ⟨g, hg, hnode, -⟩ := group_of_drawn hfiled hd
    obtain ⟨g', hg', -, hnode', -⟩ := group_of_drawn hfiled he
    rw [hnode, hnode']
    exact hapart.different g hg g' hg'
  · obtain ⟨g, hg, hnode, hnode', -⟩ := group_of_drawn hfiled hd
    obtain ⟨hlow, hlow', -⟩ := of_mem_streamGroups hg
    obtain ⟨hhigh, hhigh'⟩ := lt_of_mem_streamGroups hg
    rw [hnode, hnode', ← hcount, List.mem_range'_1, List.mem_range'_1]
    exact ⟨⟨hlow, hhigh⟩, hlow'.le, hhigh'⟩
  · rw [← hcount, List.map_cons, ← hshows.declared]
    rfl
  · obtain ⟨g, hg, hnode, hnode', hstr, hanswer⟩ := group_of_drawn hfiled hd
    have hsent := (hlabels g hg).mono (List.subset_cons_self (.root (identifier tree.root) l) _)
    have hreceived := (hshows.answers g hg).mono (List.subset_cons_self (.root (identifier tree.root) l) _)
    rw [← hnode, ← hstr] at hsent
    rw [← hnode', ← hanswer] at hreceived
    exact ⟨hsent, hreceived⟩

/-- The first line is the root. -/
theorem printPackets_eq (cfg : PrintSettings) (hash : HashOrder) {x : Node} (hx : h[tree.root]? = some x)
    (hroom : HasRoom cfg.bytesSeparator x.data) (lines : List JavaString) :
    printPackets cfg hash tree (h, lines) = (do
        let streams ← tree.streamPackets.foldlM (addPacket cfg) ∅
        (hash.order streams.entries).forM (printStream cfg hash tree.root) : WriterM Unit)
      (h, lines ++ [Statement.text (.root (identifier tree.root)
        (hexBinaryString cfg.bytesSeparator x.data))]) :=
  (bind_ok (lift_ok (getData_ok hx) lines)).trans
    ((bind_ok (lift_eq_ok (toHexBinaryString_ok hroom) _)).trans (bind_ok (println_ok _ h lines)))

/-- Labels can be made of the texts of the packets. -/
def AllLabelled (cfg : PrintSettings) (h : Heap) (packets : List Packet) : Prop :=
  ∀ p ∈ packets, HasLabel cfg (sentText cfg h p) ∧ HasLabel cfg (answerText cfg h p)

/-- Those are the labels of the groups. -/
theorem allLabelled_iff (cfg : PrintSettings) (hash : HashOrder) (h : Heap) (packets : List Packet) :
    AllLabelled cfg h packets ↔
      ∀ item ∈ hash.order (treeStreams cfg h packets).entries, HasLabels cfg item := by
  obtain ⟨hfiled, hperm⟩ := filed_treeStreams cfg h packets
  have hmem := mem_textsIn_iff hfiled hperm
  have hall : AllLabelled cfg h packets ↔
      ∀ pair ∈ textsIn (treeStreams cfg h packets).entries, HasLabel cfg pair.1 ∧ HasLabel cfg pair.2 := by
    simp only [hmem, List.forall_mem_map]
    rfl
  simp only [hall, (hash.perm _).mem_iff, textsIn, List.mem_flatMap, List.mem_map]
  constructor
  · intro htexts item hitem
    have hpair (answer) (hanswer : answer ∈ item.2.entries) := htexts (item.1, answer.1)
      ⟨item, hitem, answer, hanswer, rfl⟩
    obtain ⟨answer, rest, hanswer⟩ := List.exists_cons_of_ne_nil (hfiled item hitem).1
    exact ⟨(hpair answer (hanswer ▸ List.mem_cons_self)).1, fun answer hanswer => (hpair answer hanswer).2⟩
  · rintro hitems _ ⟨item, hitem, answer, hanswer, rfl⟩
    exact ⟨(hitems item hitem).1, (hitems item hitem).2 answer hanswer⟩

/-- The texts of the root and of all packets have room. -/
structure TextsHaveRoom (cfg : PrintSettings) (h : Heap) (tree : Tree) : Prop where
  /-- The text of the root. -/
  root : ∀ x, h[tree.root]? = some x → HasRoom cfg.bytesSeparator x.data
  /-- Those of the packets. -/
  packets : ∀ p ∈ tree.streamPackets, PacketHasRoom cfg h p

/-- The packets of a tree are shown if no response is missing, or headers are empty, and there is
room for all texts and labels can be made of them. -/
theorem printPackets_shows (cfg : PrintSettings) (hash : HashOrder) (ht : AllRebuilt cfg.headerLength h tree)
    (hanswered : Answered cfg tree.streamPackets) (hroom : TextsHaveRoom cfg h tree)
    (hlabels : AllLabelled cfg h tree.streamPackets) (lines : List JavaString) :
    ∃ h' statements drawn, printPackets cfg hash tree (h, lines) =
        .ok () (h', lines ++ statements.map Statement.text) ∧ Shows cfg h tree statements drawn := by
  obtain ⟨x, hx⟩ : ∃ x, h[tree.root]? = some x := ⟨_, List.getElem?_eq_getElem ht.root⟩
  have hfirst := printPackets_eq cfg hash hx (hroom.root x hx) lines
  obtain ⟨first, hdef⟩ : ∃ first, first = hexBinaryString cfg.bytesSeparator x.data := ⟨_, rfl⟩
  rw [← hdef] at hfirst
  have hcollect := addPackets_ok ht.transmitted ht.received hanswered hroom.packets ∅
    (lines ++ [Statement.text (.root (identifier tree.root) first)])
  obtain ⟨h', statements, hrun, hshows, hsent⟩ := printStreams_ok hash tree.root
    ((allLabelled_iff cfg hash h tree.streamPackets).mp hlabels) h
    (lines ++ [Statement.text (.root (identifier tree.root) first)])
  refine ⟨h', .root (identifier tree.root) first :: statements, (streamGroups hash h.length
    (hash.order (treeStreams cfg h tree.streamPackets).entries)).flatMap Group.drawn, ?_,
    shows_groups hshows hsent⟩
  rw [hfirst, bind_ok hcollect]
  refine hrun.trans ?_
  rw [List.append_assoc]
  rfl

/-- Otherwise there is an exception. -/
theorem ends_printPackets (hash : HashOrder) (ht : AllRebuilt cfg.headerLength h tree)
    (hend : Ends (printPackets cfg hash tree) (h, lines)) :
    Answered cfg tree.streamPackets ∧ TextsHaveRoom cfg h tree ∧ AllLabelled cfg h tree.streamPackets := by
  obtain ⟨x, hx⟩ : ∃ x, h[tree.root]? = some x := ⟨_, List.getElem?_eq_getElem ht.root⟩
  have hroot : HasRoom cfg.bytesSeparator x.data := by
    have hlabel := hend.behind (lift_ok (getData_ok hx) lines)
    exact toHexBinaryString_ok_iff.mp (ends_lift_iff.mp hlabel.of_bind)
  rw [Ends, printPackets_eq cfg hash hx hroot lines] at hend
  obtain ⟨hanswered, hroom⟩ := ends_addPackets ht.transmitted ht.received (Ends.of_bind hend)
  refine ⟨hanswered, ⟨fun y hy => Option.some.inj (hx.symm.trans hy) ▸ hroot, hroom⟩,
    (allLabelled_iff cfg hash h tree.streamPackets).mpr fun item hitem => ?_⟩
  obtain ⟨s', hs'⟩ :=
    (Ends.behind hend (addPackets_ok ht.transmitted ht.received hanswered hroom ∅ _)).of_forM hitem
  exact hasLabels_of_ends_printStream hs'

/-- The settings that are used by default. -/
def defaultSettings : PrintSettings := ⟨4, some [' '], 0⟩

/-- Hash maps that keep the order of their entries. -/
def anyOrder : HashOrder := ⟨id, fun _ => List.Perm.refl _⟩

end ApduPlay.PacketGraph
