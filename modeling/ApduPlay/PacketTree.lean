import ApduPlay.PacketNode

/-!
# Packet trees

A tree collects the exchanges that share one command header: their data below
`root`, their responses below `receivedRoot`, and one packet for every
exchange that refers to the nodes where its bytes end. Both halves are
compressed prefix trees that grow by `merge`.
-/

namespace ApduPlay.PacketTree

open PacketNode

/-- One exchange; the response node is absent until a response was merged. -/
structure Packet where
  /-- Leaf node of the transmitted stream. -/
  transmittedLeafNode : NodeId
  /-- Leaf node of the received stream. -/
  receivedLeafNode : Option NodeId
  /-- Time between transmitting and receiving. -/
  responseTime : ℤ
  /-- Running number of the exchange in the log. -/
  ac : ℤ
  deriving DecidableEq, Repr

/-- A packet as its constructor leaves it. -/
def newPacket (transmittedLeafNode : NodeId) : Packet := ⟨transmittedLeafNode, none, 0, 0⟩

/-- The exchanges with one header. -/
structure Tree where
  /-- Number of merged streams, the one of the constructor included. -/
  packetsCount : JavaInt
  /-- The packet added last, as its place among `streamPackets`. -/
  lastPacket : Option ℕ
  /-- Root of the responses. -/
  receivedRoot : NodeId
  /-- Root of the transmitted data. -/
  root : NodeId
  /-- Hexadecimal text of the header. -/
  header : String
  /-- One packet for every exchange, in their order. -/
  streamPackets : List Packet
  deriving DecidableEq, Repr

/-- Upper case hexadecimal digit. -/
def hexDigit (n : ℕ) : Char := if n < 10 then Char.ofNat (48 + n) else Char.ofNat (55 + n)

/-- `DatatypeConverter.printHexBinary`. -/
def printHexBinary (bytes : List UInt8) : String :=
  String.ofList (bytes.flatMap fun b => [hexDigit (b.toNat / 16), hexDigit (b.toNat % 16)])

/-- The variables of the merge loop. -/
structure MergeState where
  /-- Position inside the data of the current node. -/
  currentIndex : ℕ
  /-- The node entered or created last, null before. -/
  lastNode : Option NodeId
  /-- Node the stream is compared with. -/
  currentNode : NodeId
  /-- Data of the current node. -/
  data : List UInt8

/-- The second half of one round: compare one byte, and on a mismatch split
the current node and hang the rest of the stream beside it. -/
def matchByte (b : UInt8) (rest : List UInt8) (s : MergeState)
    (next : MergeState → JavaM MergeState) : JavaM MergeState :=
  match s.data[s.currentIndex]? with
  | none => throw .arrayIndexOutOfBounds
  | some d =>
    if d ≠ b then do
      divide s.currentNode s.currentIndex
      let lastNode ← newNode (b :: rest)
      addChild (← getParent s.currentNode) lastNode
      return { s with lastNode := some lastNode }
    else next { s with currentIndex := s.currentIndex + 1 }

/-- The loop over the bytes of the stream, given by what is left of it. The
two branches that return without going on are the `break`s. -/
def mergeLoop : List UInt8 → MergeState → JavaM MergeState
  | [], s => pure s
  | b :: rest, s => do
    if s.data.length ≤ s.currentIndex then
      match ← findChildNode s.currentNode b with
      | none =>
        let lastNode ← newNode (b :: rest)
        addChild s.currentNode lastNode
        return { s with lastNode := some lastNode }
      | some child =>
        incrementCount s.currentNode
        matchByte b rest ⟨0, some child, child, ← getData child⟩ (mergeLoop rest)
    else matchByte b rest s (mergeLoop rest)

/-- Merge a stream below a root and return the node where it ends. -/
def mergeNode (node : NodeId) (stream : List UInt8) : JavaM NodeId := do
  incrementCount node
  match stream with
  | [] => throw .arrayIndexOutOfBounds
  | b :: _ =>
    match ← findChildNode node b with
    | none =>
      let currentNode ← newNode stream
      addChild node currentNode
      return currentNode
    | some currentNode =>
      let s ← mergeLoop stream ⟨0, none, currentNode, ← getData currentNode⟩
      incrementCount s.currentNode
      return s.lastNode.getD s.currentNode

/-- The tree constructor together with `init`. -/
def newTree (header data : List UInt8) : JavaM Tree := do
  let root ← newNode header
  let node ← newNode data
  addChild root node
  let receivedRoot ← newNode header
  update receivedRoot fun x => { x with count := 0 }
  match (← load root).childNodes.entries with
  | [] => throw .nullPointer
  | first :: _ =>
    return ⟨1, some 0, receivedRoot, root, printHexBinary header, [newPacket first.2]⟩

/-- Merge the data of one more exchange. -/
def merge (t : Tree) (stream : List UInt8) : JavaM Tree := do
  let node ← mergeNode t.root stream
  return { t with
    lastPacket := some t.streamPackets.length
    streamPackets := t.streamPackets ++ [newPacket node]
    packetsCount := t.packetsCount + 1 }

/-- Merge a response and attach it to the packet added last. -/
def addReceivedData (t : Tree) (data : List UInt8) : JavaM Tree := do
  let node ← mergeNode t.receivedRoot data
  match t.lastPacket with
  | none => return t
  | some i =>
    return { t with streamPackets := t.streamPackets.modify i fun p =>
      { p with receivedLeafNode := some node } }

/-- Response time and running number of the packet added last. -/
def setAdditionalInfoForLastPacket (t : Tree) (responseTime ac : ℤ) : Tree :=
  match t.lastPacket with
  | none => t
  | some i =>
    { t with streamPackets := t.streamPackets.modify i fun p =>
      { p with responseTime := responseTime, ac := ac } }

/-- Walk from a node to its root and collect the data met on the way. The
result is missing only when the walk takes more steps than there is fuel. -/
def leafData (h : Heap) : ℕ → Option NodeId → Option (List (List UInt8))
  | _, none => some []
  | 0, some _ => none
  | fuel + 1, some n => do
    let x ← h[n]?
    let above ← leafData h fuel x.parent
    return x.data :: above

/-- The bytes from the root down to a node; no walk without a cycle is longer
than the number of nodes. -/
def getDataFromLeafNode (h : Heap) (node : Option NodeId) : Option (List UInt8) :=
  (leafData h h.length node).map fun data => data.reverse.flatten

end ApduPlay.PacketTree
