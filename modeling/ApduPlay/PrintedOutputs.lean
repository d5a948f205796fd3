import ApduPlay.LogSizes
import ApduPlay.OutputFunctions

/-!
# Outputs of the trees of a log

Writers get trees that have recorded exchanges, and leave them as they are. If the exchanges are
not too large, the nodes and the flow of a tree are always printed, and its packets if none of
their answers is missing.
-/

namespace ApduPlay.PrintedOutputs

open ExceptionRuns TreeTraversal WordCuts LogParser PacketNode PacketTree LinkedTrees NodesGraph RecordedLogs
open LogSizes OutputFunctions WrappedText
open PacketGraph (HasRoom HasLabel hexBinaryString bytesOf getDataFromLeafNode_none)
open RebuiltLeaves (Rebuilt AllRebuilt)

/-- The number of bytes at a time that is not too large. -/
def maxBytes : ℕ := 2 ^ 28

/-- A tree that has recorded exchanges, for its writers. -/
structure HoldsTree (headerLength : ℕ) (h : Heap) (t : Tree) (header : List UInt8)
    (exchanges : List LogExchange) : Prop where
  /-- The header has the length in the settings. -/
  length : header.length = headerLength
  /-- The tree knows its text. -/
  headerText : t.header = printHexBinary header
  /-- There are exchanges. -/
  exchanges_ne_nil : exchanges ≠ []
  /-- They are not too many. -/
  count : exchanges.length ≤ 2 * maxBytes
  /-- None of them is too large. -/
  within : ∀ e ∈ exchanges, e.header = header ∧ Within maxBytes e
  /-- The two roots are different nodes. -/
  roots_ne : t.root ≠ t.receivedRoot
  /-- What was sent. -/
  sent : Shown h t.root header (exchanges.map LogExchange.data)
  /-- What was answered. -/
  received : Shown h t.receivedRoot header (exchanges.flatMap LogExchange.answers)
  /-- The packets. -/
  packets : t.streamPackets.map packetNote = exchanges.map LogExchange.note
  /-- Their leaves in the transmitted half. -/
  transmittedLeaf : ∀ p ∈ t.streamPackets, Reachable (childIds h) t.root p.transmittedLeafNode
  /-- Their leaves in the received half. -/
  receivedLeaf : ∀ p ∈ t.streamPackets, ∀ n ∈ p.receivedLeafNode, Reachable (childIds h) t.receivedRoot n

variable {settings : Settings} {env : Environment} {h h' : Heap} {s : FileState} {t : Tree}
  {header data : List UInt8} {exchanges : List LogExchange} {streams : List (List UInt8)}
  {root n : NodeId} {headerLength : ℕ} {sep : Char} {lines : List JavaString}

/-- The parser leaves such trees if the log is not too large. -/
theorem holdsTree_of_recorded {r : Heap × Parser} {history : History} (hr : Recorded headerLength r history)
    (hcount : history.exchanges.length ≤ 2 * maxBytes) (hwithin : ∀ e ∈ history.exchanges, Within maxBytes e)
    (ht : r.2.packets.lookup (printHexBinary header) = some t) :
    HoldsTree headerLength r.1 t header (history.exchangesOf header) where
  length := hr.length ht
  headerText := hr.headerText ht
  exchanges_ne_nil hnil := by
    rw [(hr.lookup_none header).mpr hnil] at ht
    cases ht
  count := (List.length_filter_le _ _).trans hcount
  within e he := ⟨by simpa using (List.mem_filter.mp he).2, hwithin e (List.mem_filter.mp he).1⟩
  roots_ne := hr.roots_ne ht
  sent := hr.sent ht
  received := hr.received ht
  packets := hr.packets ht
  transmittedLeaf := hr.transmittedLeaf ht
  receivedLeaf := hr.receivedLeaf ht

/-- Nodes that are in neither half do not matter. -/
theorem HoldsTree.frame (ht : HoldsTree headerLength h t header exchanges)
    (hsent : ∀ {i : NodeId}, Reachable (childIds h) t.root i → h'[i]? = h[i]?)
    (hreceived : ∀ {i : NodeId}, Reachable (childIds h) t.receivedRoot i → h'[i]? = h[i]?) :
    HoldsTree headerLength h' t header exchanges :=
  { ht with
    sent := ht.sent.frame hsent
    received := ht.received.frame hreceived
    transmittedLeaf := fun p hp => ((ht.sent.linked.frame hsent).2 _).mpr (ht.transmittedLeaf p hp)
    receivedLeaf := fun p hp n hn =>
      ((ht.received.linked.frame hreceived).2 _).mpr (ht.receivedLeaf p hp n hn) }

/-- Neither do nodes that are added. -/
theorem HoldsTree.of_added (ht : HoldsTree headerLength h t header exchanges) (hh : h <+: h') :
    HoldsTree headerLength h' t header exchanges := by
  have hold : ∀ i < h.length, h'[i]? = h[i]? := fun i hi => by
    obtain ⟨more, rfl⟩ := hh
    exact List.getElem?_append_left hi
  exact ht.frame (same_of_old ht.sent.linked hold) (same_of_old ht.received.linked hold)

/-- A response is missing exactly where nothing was answered. -/
theorem HoldsTree.allAnswered_iff (ht : HoldsTree headerLength h t header exchanges) :
    (∀ p ∈ t.streamPackets, p.receivedLeafNode ≠ none) ↔ ∀ e ∈ exchanges, e.answers ≠ [] := by
  have hpackets : (∀ p ∈ t.streamPackets, p.receivedLeafNode ≠ none) ↔
      ∀ note ∈ t.streamPackets.map packetNote, note.1 = true := by
    rw [List.forall_mem_map]
    exact forall₂_congr fun p _ => Option.isSome_iff_ne_none.symm
  have hexchanges : (∀ e ∈ exchanges, e.answers ≠ []) ↔
      ∀ note ∈ exchanges.map LogExchange.note, note.1 = true := by
    rw [List.forall_mem_map]
    refine forall₂_congr fun e _ => ?_
    rw [LogExchange.note, Bool.not_eq_true', List.isEmpty_eq_false_iff]
  rw [hpackets, hexchanges, ht.packets]

/-- There is a packet for every exchange. -/
theorem HoldsTree.length_packets (ht : HoldsTree headerLength h t header exchanges) :
    t.streamPackets.length = exchanges.length := by
  have hlength := congrArg List.length ht.packets
  rwa [List.length_map, List.length_map] at hlength

section Sizes

/-- The header is not too large. -/
theorem HoldsTree.length_header (ht : HoldsTree headerLength h t header exchanges) :
    header.length ≤ maxBytes := by
  obtain ⟨e, he⟩ := List.exists_mem_of_ne_nil _ ht.exchanges_ne_nil
  obtain ⟨hheader, hwithin⟩ := ht.within e he
  exact hheader ▸ hwithin.header

/-- Nor is anything that was sent. -/
theorem HoldsTree.length_sent (ht : HoldsTree headerLength h t header exchanges) :
    ∀ s ∈ exchanges.map LogExchange.data, s.length ≤ maxBytes :=
  List.forall_mem_map.mpr fun e he => (ht.within e he).2.data

/-- Nor is any answer. -/
theorem HoldsTree.length_received (ht : HoldsTree headerLength h t header exchanges) :
    ∀ s ∈ exchanges.flatMap LogExchange.answers, s.length ≤ maxBytes := by
  intro s hs
  obtain ⟨e, he, hs⟩ := List.mem_flatMap.mp hs
  exact (ht.within e he).2.answers s hs

/-- With one character between the bytes there is room for what is not too large. -/
theorem short_of_length (hsep : settings.bytesSeparator = some [sep]) (hdata : data.length ≤ maxBytes) :
    Short settings.graph data := by
  have hlength : (settings.graph.bytesSeparator.getD []).length = 1 := by
    rw [show settings.graph.bytesSeparator = some [sep] from hsep]
    rfl
  rw [Short, hlength]
  unfold maxBytes at hdata
  omega

/-- Data that is not too large has a text, and this has a label. -/
theorem hasText_of_length (hsep : settings.bytesSeparator = some [sep]) (hdata : data.length ≤ maxBytes) :
    HasRoom settings.graph.bytesSeparator data ∧
      HasLabel settings.graph (hexBinaryString settings.graph.bytesSeparator data) :=
  (short_of_length hsep hdata).hasLabel le_rfl

end Sizes

/-- The bytes above a node are the header and the beginning of a stream. -/
theorem exists_leafBytes (hs : Shown h root header streams) (hn : Reachable (childIds h) root n) :
    ∃ w ∈ pathsOf streams, getDataFromLeafNode h (some n) = some (header ++ w) := by
  obtain ⟨x, hx, -⟩ := hs.linked.root
  obtain ⟨w, hw⟩ := hs.linked.exists_spells hn
  refine ⟨w, hs.words ▸ ⟨n, w, ⟨hn, hw⟩, List.prefix_rfl⟩, ?_⟩
  have hheader : x.data = header := by rw [← forest_label hx, hs.header]
  rw [hs.linked.getDataFromLeafNode hx hn hw, hheader]

/-- The beginning of a stream is not too large if no stream is. -/
theorem length_of_pathsOf {w : List UInt8} (hw : w ∈ pathsOf streams)
    (hstreams : ∀ s ∈ streams, s.length ≤ maxBytes) : w.length ≤ maxBytes := by
  rcases hw with rfl | ⟨s, hs, hpre⟩
  · exact Nat.zero_le _
  · exact hpre.length_le.trans (hstreams s hs)

/-- The bytes of a node are found. -/
theorem rebuilt_of_reachable (hs : Shown h root header streams) (hlength : header.length = headerLength)
    (hn : Reachable (childIds h) root n) : Rebuilt headerLength h n := by
  obtain ⟨w, -, hdata⟩ := exists_leafBytes hs hn
  refine ⟨header ++ w, hdata, ?_⟩
  rw [List.length_append, hlength]
  exact Nat.le_add_right _ _

/-- Those behind the header are not too large. -/
theorem length_bytesOf (hs : Shown h root header streams) (hlength : header.length = settings.headerLength)
    (hstreams : ∀ s ∈ streams, s.length ≤ maxBytes) (hn : Reachable (childIds h) root n) :
    (bytesOf settings.graph h (some n)).length ≤ maxBytes := by
  obtain ⟨w, hw, hdata⟩ := exists_leafBytes hs hn
  rw [bytesOf, hdata, Option.getD_some, show settings.graph.headerLength = header.length from hlength.symm,
    List.drop_left]
  exact length_of_pathsOf hw hstreams

/-- The bytes of all its leaves are found. -/
theorem HoldsTree.allRebuilt (ht : HoldsTree headerLength h t header exchanges) :
    AllRebuilt headerLength h t where
  root := (ht.sent.linked.exists_node .root).elim fun _ hx => lt_length hx
  transmitted p hp := rebuilt_of_reachable ht.sent ht.length (ht.transmittedLeaf p hp)
  received p hp n hn := rebuilt_of_reachable ht.received ht.length (ht.receivedLeaf p hp n hn)

/-- The bytes of a packet are not too large. -/
theorem HoldsTree.length_packet (ht : HoldsTree settings.headerLength h t header exchanges) {p : Packet}
    (hp : p ∈ t.streamPackets) :
    (bytesOf settings.graph h (some p.transmittedLeafNode)).length ≤ maxBytes ∧
      (bytesOf settings.graph h p.receivedLeafNode).length ≤ maxBytes := by
  refine ⟨length_bytesOf ht.sent ht.length ht.length_sent (ht.transmittedLeaf p hp), ?_⟩
  cases hr : p.receivedLeafNode with
  | none =>
    rw [bytesOf, getDataFromLeafNode_none, Option.getD_some, List.drop_nil]
    exact Nat.zero_le _
  | some n => exact length_bytesOf ht.received ht.length ht.length_received (ht.receivedLeaf p hp n hr)

/-- All nodes of both halves have labels. -/
theorem HoldsTree.nodesLabelled (ht : HoldsTree headerLength h t header exchanges)
    (hsep : settings.bytesSeparator = some [sep]) :
    NodesLabelled settings.graph h t.root ∧ NodesLabelled settings.graph h t.receivedRoot :=
  have hheader := short_of_length hsep ht.length_header
  ⟨ht.sent.nodesLabelled hheader fun s hs => short_of_length hsep (ht.length_sent s hs),
    ht.received.nodesLabelled hheader fun s hs => short_of_length hsep (ht.length_received s hs)⟩

/-- The nodes of a half are printed. -/
theorem printTransmitted_ok (env : Environment) (hsep : settings.bytesSeparator = some [sep])
    (ht : HoldsTree headerLength s.heap t header exchanges) :
    ∃ lines, ofWriter (printTransmitted settings.graph env.hash t) s = .ok ()
      { s with lines := s.lines ++ lines } ∧
      (s.heap.length ≤ 2 ^ 31 →
        ShowsStreams settings.graph header (exchanges.map LogExchange.data) lines) := by
  obtain ⟨lines, hrun, hshows⟩ := ht.sent.print (short_of_length hsep ht.length_header)
    (fun s hs => short_of_length hsep (ht.length_sent s hs)) env.hash s.lines
  exact ⟨lines, ofWriter_ok hrun, hshows⟩

/-- So are those of the other half. -/
theorem printReceived_ok (env : Environment) (hsep : settings.bytesSeparator = some [sep])
    (ht : HoldsTree headerLength s.heap t header exchanges) :
    ∃ lines, ofWriter (printReceived settings.graph env.hash t) s = .ok ()
      { s with lines := s.lines ++ lines } ∧
      (s.heap.length ≤ 2 ^ 31 →
        ShowsStreams settings.graph header (exchanges.flatMap LogExchange.answers) lines) := by
  obtain ⟨lines, hrun, hshows⟩ := ht.received.print (short_of_length hsep ht.length_header)
    (fun s hs => short_of_length hsep (ht.length_received s hs)) env.hash s.lines
  exact ⟨lines, ofWriter_ok hrun, hshows⟩

/-- The text that is shown for some nodes is that of one of them. -/
theorem exists_shownNode {entryHash : PacketGraph.HashOrder} {nodes : List NodeId}
    {node : PrintedFlow.FlowNode} (hshown : PrintedFlow.IsShown settings.graph entryHash h nodes node) :
    ∃ n ∈ nodes, (PrintedFlow.entryOf settings.graph h n).1 = node.value := by
  have hmem := (entryHash.perm _).mem_iff.mp (PrintedFlow.firstLargest_spec hshown).1
  have hkey := KeyedLists.mem_keys_foldl_addTo.mp (List.mem_map_of_mem (f := Prod.fst) hmem)
  obtain ⟨entry, hentry, hvalue⟩ := List.mem_map.mp hkey
  obtain ⟨n, hn, rfl⟩ := List.mem_map.mp hentry
  exact ⟨n, hn, hvalue⟩

/-- The flow of a tree whose nodes have labels is printed. -/
theorem printFlow_ok (env : Environment) (hl : Linked s.heap root)
    (hlabels : NodesLabelled settings.graph s.heap root) (packetsCount : JavaInt) :
    ∃ flowIndex lines, printFlow settings env root packetsCount s =
      .ok () ⟨s.heap, flowIndex, s.lines ++ lines⟩ := by
  have hnodes : ∀ n, Reachable (childIds s.heap) root n → n ∈ List.range s.heap.length := fun n hn =>
    List.mem_range.mpr ((hl.exists_node hn).elim fun _ hx => lt_length hx)
  obtain ⟨depth, hdepth, hend, hfull⟩ := hl.isTree.exists_depth hnodes
  rw [List.length_range] at hdepth
  have hroom : PrintedFlow.NodesHaveRoom settings.graph s.heap root := fun n hn => by
    obtain ⟨x, hx⟩ := hl.exists_node hn
    exact ⟨x, hx, forest_label hx ▸ (hlabels n hn).1⟩
  have hshown : ∀ k ≤ depth, PrintedFlow.ShownHasLabel settings.graph env.entryHash s.heap
      (PrintedFlow.levelNodes env.hash s.heap root k) := by
    intro k _ node hshown
    obtain ⟨n, hn, hvalue⟩ := exists_shownNode hshown
    have hreachable := ((PrintedFlow.level_levelNodes env.hash hl k).mem n |>.mp hn).reachable
    obtain ⟨x, hx⟩ := hl.exists_node hreachable
    rw [← hvalue, PrintedFlow.entryOf_eq hx, ← forest_label hx]
    exact (hlabels n hreachable).2
  obtain ⟨flow, hflow, -⟩ := PrintedFlow.flowNodes_ok settings.graph env.hash env.entryHash hl
    hroom hshown hend hfull hdepth s.flowIndex
  refine ⟨s.flowIndex + flow.length,
    PrintedFlow.flowLines env.lineSeparator env.hexColor packetsCount flow, ?_⟩
  rw [printFlow, PrintedFlow.printFlow_ok hflow env.lineSeparator env.hexColor packetsCount s.lines]

/-- The graph of the packets ends exactly if no response is missing, or headers are empty. -/
theorem ends_printPackets_iff (env : Environment) (hsep : settings.bytesSeparator = some [sep])
    (ht : HoldsTree settings.headerLength h t header exchanges) (lines : List JavaString) :
    Ends (PacketGraph.printPackets settings.graph env.hash t) (h, lines) ↔
      settings.headerLength = 0 ∨ ∀ e ∈ exchanges, e.answers ≠ [] := by
  have hrebuilt : AllRebuilt settings.graph.headerLength h t := ht.allRebuilt
  rw [← ht.allAnswered_iff]
  constructor
  · exact fun hends => (PacketGraph.ends_printPackets env.hash hrebuilt hends).1
  · intro hanswered
    have hroot (x : Node) (hx : h[t.root]? = some x) : x.data = header := by
      rw [← forest_label hx, ht.sent.header]
    have htexts (p : Packet) (hp : p ∈ t.streamPackets) :=
      And.intro (hasText_of_length hsep (ht.length_packet hp).1)
        (hasText_of_length hsep (ht.length_packet hp).2)
    obtain ⟨h', statements, drawn, hrun, -⟩ := PacketGraph.printPackets_shows settings.graph env.hash hrebuilt
      hanswered
      ⟨fun x hx => hroot x hx ▸ (hasText_of_length hsep ht.length_header).1,
        fun p hp => ⟨(htexts p hp).1.1, (htexts p hp).2.1⟩⟩
      (fun p hp => ⟨(htexts p hp).1.2, (htexts p hp).2.2⟩) lines
    exact ⟨(), _, hrun⟩

end ApduPlay.PrintedOutputs
