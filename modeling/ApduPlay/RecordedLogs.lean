import ApduPlay.NodesGraph
import ApduPlay.RebuiltLeaves

/-!
# What a log tells

Whatever a log contains, it tells of exchanges, up to a line that ends it: what was sent
with which header, what was answered, and in which time. The trees of the parser are those
of the headers that were sent, and each of them has recorded the exchanges of its header.
-/

namespace ApduPlay.RecordedLogs

open LabelForest TreeTraversal WordCuts PacketNode PacketTree PacketMerge LinkedTrees TreeRuns LogParser
open ParserSteps RebuiltLeaves NodesGraph

/-- Something that was sent, and what followed it. -/
structure LogExchange where
  /-- The header. -/
  header : List UInt8
  /-- What was sent with it. -/
  data : List UInt8
  /-- What was answered. -/
  answers : List (List UInt8)
  /-- The response time that was read last. -/
  responseTime : ℤ
  /-- The number that was given with it. -/
  ac : ℤ
  deriving DecidableEq, Repr

/-- What the lines of a log tell. -/
structure History where
  /-- The exchanges. -/
  exchanges : List LogExchange
  /-- Number for the next response time. -/
  ac : ℤ
  deriving DecidableEq, Repr

/-- Before any line. -/
def noHistory : History := ⟨[], 1⟩

/-- The exchanges of a header. -/
def History.exchangesOf (history : History) (header : List UInt8) : List LogExchange :=
  history.exchanges.filter fun e => e.header = header

/-- The exchange that was begun last is changed, if there is one. -/
def History.changeLast (history : History) (change : LogExchange → LogExchange) : Option History :=
  history.exchanges.getLast?.map fun e =>
    { history with exchanges := history.exchanges.dropLast ++ [change e] }

/-- Something is sent, which needs a header and more. -/
def History.send (headerLength : ℕ) (history : History) (data : List UInt8) : Option History :=
  if headerLength < data.length then
    some { history with exchanges := history.exchanges ++
      [⟨data.take headerLength, data.drop headerLength, [], 0, 0⟩] }
  else none

/-- An answer to what was sent last, which is not empty. Without anything sent it is ignored. -/
def History.receive (history : History) (data : List UInt8) : Option History :=
  if history.exchanges = [] then some history
  else if data = [] then none
  else history.changeLast fun e => { e with answers := e.answers ++ [data] }

/-- A response time of what was sent last, which is a number. -/
def History.await (history : History) (time : JavaString) : Option History := do
  let responseTime ← intOfDigits (time.filter Char.isDigit)
  let history' ← history.changeLast fun e => { e with responseTime := responseTime, ac := history.ac }
  return { history' with ac := (history.ac + 1).bmod (2 ^ 32) }

/-- What one line tells; nothing if it ends the log. -/
def History.readLine (headerLength : ℕ) (history : History) (line : JavaString) : Option History :=
  match processLine line with
  | none => some history
  | some (key, value) =>
    if key = "transmitted".toList then (hexBinary (normalizeHexString value)).bind (history.send headerLength)
    else if key = "received".toList then (hexBinary (normalizeHexString value)).bind history.receive
    else if key = "responseTime".toList then history.await value
    else some history

/-- What lines tell, up to one that ends the log. -/
def History.readLines (headerLength : ℕ) : History → List JavaString → History
  | history, [] => history
  | history, line :: lines =>
    match history.readLine headerLength line with
    | some history => history.readLines headerLength lines
    | none => history

/-- What a log tells. -/
def historyOf (headerLength : ℕ) (text : JavaString) : History :=
  noHistory.readLines headerLength (scannerLines text)

example :
    historyOf 1 "received:9000\ntransmitted:A401\nresponseTime:7\nreceived:9000\ntransmitted:A4\n".toList =
      ⟨[⟨[0xA4], [0x01], [[0x90, 0x00]], 7, 1⟩], 2⟩ := by
  decide +kernel

/-- What is noted of an exchange: whether it was answered, its time and its number. -/
def LogExchange.note (e : LogExchange) : Bool × ℤ × ℤ := (!e.answers.isEmpty, e.responseTime, e.ac)

/-- What a packet notes. -/
def packetNote (p : Packet) : Bool × ℤ × ℤ := (p.receivedLeafNode.isSome, p.responseTime, p.ac)

/-- The node that was found for a stream behind others spells the stream if this ends at a cut, and
goes on behind it otherwise. -/
def LeafFor (h : Heap) (root leaf : NodeId) (before : List (List UInt8)) (s : List UInt8) : Prop :=
  ∃ w, Spells (forest h) root leaf w ∧ s <+: w ∧ (w = s ↔ s ∈ cutsOf (before ++ [s]))

/-- A packet refers to the nodes of its exchange, which came behind others. -/
structure PacketLeaves (h : Heap) (t : Tree) (before : List LogExchange) (p : Packet) (e : LogExchange) :
    Prop where
  /-- The node of what was sent. -/
  transmitted : LeafFor h t.root p.transmittedLeafNode (before.map LogExchange.data) e.data
  /-- The node of the last answer. -/
  received : ∀ n ∈ p.receivedLeafNode, ∃ answers last, e.answers = answers ++ [last] ∧
    LeafFor h t.receivedRoot n (before.flatMap LogExchange.answers ++ answers) last

/-- The packets of a tree refer to the nodes of the exchanges. -/
def LeavesHold (h : Heap) (t : Tree) (exchanges : List LogExchange) : Prop :=
  ∀ (i : ℕ) (p : Packet) (e : LogExchange), t.streamPackets[i]? = some p → exchanges[i]? = some e →
    PacketLeaves h t (exchanges.take i) p e

/-- A tree has recorded the exchanges of a header. -/
structure TreeHolds (h : Heap) (t : Tree) (header : List UInt8) (exchanges : List LogExchange) : Prop where
  /-- The two roots are different nodes. -/
  roots_ne : t.root ≠ t.receivedRoot
  /-- What was sent. -/
  holdsSent : HoldsStreams h t.root header (exchanges.map LogExchange.data)
  /-- What was answered. -/
  holdsReceived : HoldsStreams h t.receivedRoot header (exchanges.flatMap LogExchange.answers)
  /-- The exchanges are counted. -/
  packetsCount : t.packetsCount = (exchanges.length : ℕ)
  /-- There is a packet for each of them. -/
  packets : t.streamPackets.map packetNote = exchanges.map LogExchange.note
  /-- It refers to the nodes of the exchange. -/
  leaves : LeavesHold h t exchanges
  /-- The packet added last is the last one. -/
  lastPacket : t.lastPacket = some (exchanges.length - 1)
  /-- It knows the text of the header. -/
  headerText : t.header = printHexBinary header

/-- The parser between two lines, and what the lines before told. -/
structure Holds (s : Heap × Parser) (history : History) : Prop where
  /-- The heap is well formed. -/
  wellFormed : WellFormed s.1
  /-- There are trees for the headers that were sent. -/
  lookup_none : ∀ header, s.2.packets.lookup (printHexBinary header) = none ↔ history.exchangesOf header = []
  /-- They have recorded the exchanges of their headers. -/
  tree : ∀ {header t}, s.2.packets.lookup (printHexBinary header) = some t →
    TreeHolds s.1 t header (history.exchangesOf header)
  /-- There are no others. -/
  key : ∀ {key t}, s.2.packets.lookup key = some t → ∃ header, key = printHexBinary header
  /-- The header that was sent last. -/
  last : s.2.lastProcessedPacket = history.exchanges.getLast?.map fun e => printHexBinary e.header
  /-- The number for the next response time. -/
  ac : s.2.ac = history.ac

variable {headerLength : ℕ} {h h' : Heap} {s : Heap × Parser} {history history' : History}
  {t : Tree} {root r : NodeId}
  {header data : List UInt8} {streams : List (List UInt8)} {exchanges before : List LogExchange}
    {e : LogExchange}

/-- A new parser has recorded nothing. -/
theorem holds_newParser : Holds ([], newParser) noHistory where
  wellFormed := WellFormed.nil
  lookup_none _ := iff_of_true rfl rfl
  tree ht := by cases ht
  key ht := by cases ht
  last := rfl
  ac := rfl

/-- More nodes do not matter. -/
theorem HoldsStreams.newNode (hh : HoldsStreams h root header streams) (data : List UInt8) :
    HoldsStreams (h ++ [⟨data, ∅, none, 1⟩]) root header streams := by
  obtain ⟨x, hx, hp, hd⟩ := hh.header
  exact ⟨⟨x, (List.getElem?_append_left (lt_length hx)).trans hx, hp, hd⟩,
    represents_newNode data hh.represents⟩

/-- Neither do counts. -/
theorem HoldsStreams.modify_count (hh : HoldsStreams h root header streams) (n : NodeId)
    (g : Node → JavaInt) :
    HoldsStreams (h.modify n fun x => { x with count := g x }) root header streams := by
  obtain ⟨x, hx, hp, hd⟩ := hh.header
  have hforest : forest (h.modify n fun x => { x with count := g x }) = forest h :=
    forest_modify _ _ _ (fun _ => rfl) (fun _ => rfl)
  refine ⟨⟨if n = root then { x with count := g x } else x, ?_, ?_, ?_⟩, hforest ▸ hh.represents⟩
  · rw [List.getElem?_modify, hx]
    rfl
  all_goals split_ifs <;> assumption

/-- Neither does a tree that is added. -/
theorem HoldsStreams.planted (hw : WellFormed h) (hh : HoldsStreams h root header streams)
    (header' : List UInt8)
    (b : UInt8) (rest : List UInt8) : HoldsStreams (planted h header' (b :: rest) b) root header streams := by
  have hlt : root < h.length := hh.lt_length
  have hroot : (h ++ [(⟨header', ∅, none, 1⟩ : Node)])[h.length]? = some ⟨header', ∅, none, 1⟩ := by simp
  have hm := mergedBelow_newChild rest [] (b := b) (hw.newNode header') hroot
    (.root (by rw [forest_parent hroot])) (by simp) rfl 0
  have hh₁ := HoldsStreams.newNode hh header'
  have hne : root ≠ h.length := hlt.ne
  obtain ⟨x, hx, hp, hd⟩ := hh₁.header
  have hh₂ : HoldsStreams (addLeaf (h ++ [⟨header', ∅, none, 1⟩]) h.length (b :: rest) b) root
    header streams :=
    ⟨⟨x, (hm.frame root hh₁.lt_length (hh₁.root_not_below hne)).trans hx, hp, hd⟩,
      hm.inserted.represents_other hh₁.lt_length hne hh₁.represents⟩
  exact HoldsStreams.modify_count (HoldsStreams.newNode hh₂ header') _ _

/-- Trees of different headers have different roots. -/
theorem roots_ne_of_header_ne {header' : List UInt8} {root' : NodeId} {streams' : List (List UInt8)}
    (hh : HoldsStreams h root header streams) (hh' : HoldsStreams h root' header' streams')
    (hne : header ≠ header') : root ≠ root' := by
  rintro rfl
  obtain ⟨x, hx, -, rfl⟩ := hh.header
  obtain ⟨y, hy, -, rfl⟩ := hh'.header
  rw [hx, Option.some.injEq] at hy
  exact hne (congrArg Node.data hy)

/-- What is below the roots of trees stays there. -/
def KeepsBelow (h h' : Heap) : Prop :=
  ∀ {root n header streams w}, HoldsStreams h root header streams → Spells (forest h) root n w →
    Spells (forest h') root n w

/-- Steady heaps keep what is below their nodes. -/
theorem keepsBelow_steady (hst : Steady h h') : KeepsBelow h h' := by
  intro root n header streams w hh hw
  obtain ⟨x, hx, hp, -⟩ := hh.header
  exact spells_steady hst ⟨x, hx, hp, rfl⟩ hw

/-- So does merging a stream. -/
theorem keepsBelow_merged {leaf : NodeId} (hm : Merged h r data leaf h') : KeepsBelow h h' :=
  fun hh hw => hm.inserted.spells hh.lt_length hw

/-- The leaf of a stream keeps its place when streams are added. -/
theorem LeafFor.mono {leaf : NodeId} {streams' : List (List UInt8)} {s : List UInt8}
    (hl : LeafFor h root leaf streams' s) (hh : HoldsStreams h root header streams)
    (hkeeps : KeepsBelow h h') : LeafFor h' root leaf streams' s := by
  obtain ⟨w, hw, hends⟩ := hl
  exact ⟨w, hkeeps hh hw, hends⟩

/-- The nodes of the packets stay where they are. -/
theorem LeavesHold.mono (hl : LeavesHold h t exchanges) (hsent : HoldsStreams h t.root header streams)
    {header' : List UInt8} {streams' : List (List UInt8)}
    (hreceived : HoldsStreams h t.receivedRoot header' streams') (hkeeps : KeepsBelow h h') :
    LeavesHold h' t exchanges := by
  intro i p e hp he
  have hleaves := hl i p e hp he
  refine ⟨hleaves.transmitted.mono hsent hkeeps, fun n hn => ?_⟩
  obtain ⟨answers, last, hanswers, hleaf⟩ := hleaves.received n hn
  exact ⟨answers, last, hanswers, hleaf.mono hreceived hkeeps⟩

/-- The node of a stream that is merged. -/
theorem leafFor_merged {leaf : NodeId} (hh : HoldsStreams h r header streams)
    (hm : Merged h r data leaf h') : LeafFor h' r leaf streams data := by
  obtain ⟨w, hw, hpre, hcut⟩ := hm.inserted.leaf
  rw [(hh.merged hm).represents.cuts_eq] at hcut
  exact ⟨w, hw, hpre, hcut⟩

/-- The trees of other headers are left alone. -/
structure KeepsOthers (h h' : Heap) (header : List UInt8) : Prop where
  /-- They have the same streams. -/
  holds : ∀ {root header' streams}, header' ≠ header → HoldsStreams h root header' streams →
    HoldsStreams h' root header' streams
  /-- No node below a root is moved. -/
  below : KeepsBelow h h'

/-- Merging a stream leaves the trees of other headers alone. -/
theorem keepsOthers_merged {leaf : NodeId} (hroot : HoldsStreams h r header streams)
    (hm : Merged h r data leaf h') : KeepsOthers h h' header :=
  ⟨fun hne hh => hh.merged_other (roots_ne_of_header_ne hh hroot hne) hm, keepsBelow_merged hm⟩

/-- The last exchange counts for its own header. -/
theorem exchangesOf_concat (before : List LogExchange) (e : LogExchange) (ac : ℤ) (header : List UInt8) :
    History.exchangesOf ⟨before ++ [e], ac⟩ header =
      History.exchangesOf ⟨before, ac⟩ header ++ if e.header = header then [e] else [] := by
  rw [History.exchangesOf, List.filter_append, List.filter_singleton]
  split_ifs with heq <;> simp [heq, History.exchangesOf]

/-- The last of the exchanges of its header. -/
theorem exchangesOf_last (before : List LogExchange) (e : LogExchange) (ac : ℤ) :
    History.exchangesOf ⟨before ++ [e], ac⟩ e.header = History.exchangesOf ⟨before, ac⟩ e.header ++ [e] := by
  rw [exchangesOf_concat, if_pos rfl]

/-- It does not count for another one. -/
theorem exchangesOf_other (before : List LogExchange) (ac : ℤ) (hne : e.header ≠ header) :
    History.exchangesOf ⟨before ++ [e], ac⟩ header = History.exchangesOf ⟨before, ac⟩ header := by
  rw [exchangesOf_concat, if_neg hne, List.append_nil]

/-- One exchange and its packet more. -/
theorem LeavesHold.concat {p : Packet} {packetsCount : JavaInt} {lastPacket : Option ℕ}
    (hl : LeavesHold h t exchanges) (hlength : t.streamPackets.length = exchanges.length)
    (hp : PacketLeaves h t exchanges p e) :
    LeavesHold h { t with
        packetsCount := packetsCount, lastPacket := lastPacket, streamPackets := t.streamPackets ++ [p] }
      (exchanges ++ [e]) := by
  intro i q e' hq he'
  have hleaves : PacketLeaves h t ((exchanges ++ [e]).take i) q e' := by
    rcases Nat.lt_or_ge i exchanges.length with hlt | hge
    · rw [List.getElem?_append_left (hlength ▸ hlt)] at hq
      rw [List.getElem?_append_left hlt] at he'
      rw [List.take_append_of_le_length hlt.le]
      exact hl i q e' hq he'
    · have hi : i < (exchanges ++ [e]).length := (List.getElem?_eq_some_iff.mp he').1
      obtain rfl : i = exchanges.length := by
        rw [List.length_append, List.length_singleton] at hi
        omega
      rw [List.getElem?_concat_length, Option.some.injEq] at he'
      rw [← hlength, List.getElem?_concat_length, Option.some.injEq] at hq
      rw [List.take_left', ← hq, ← he']
      · exact hp
      · rfl
  exact ⟨hleaves.transmitted, hleaves.received⟩

/-- The last exchange and its packet are changed. -/
theorem LeavesHold.modify_last {change : Packet → Packet} {e' : LogExchange}
    (hl : LeavesHold h t (before ++ [e]))
    (hchange : ∀ {p}, PacketLeaves h t before p e → PacketLeaves h t before (change p) e') :
    LeavesHold h { t with
        streamPackets := t.streamPackets.modify ((before ++ [e]).length - 1) change } (before ++ [e']) := by
  have hlast : (before ++ [e]).length - 1 = before.length := by
    rw [List.length_append, List.length_singleton, Nat.add_sub_cancel]
  intro i q e'' hq he''
  rw [hlast, List.getElem?_modify, Option.map_eq_map, Option.map_eq_some_iff] at hq
  obtain ⟨p, hp, rfl⟩ := hq
  have hleaves : PacketLeaves h t ((before ++ [e']).take i) (if before.length = i then change p else p)
      e'' := by
    rcases Nat.lt_or_ge i before.length with hlt | hge
    · rw [List.getElem?_append_left hlt] at he''
      have hold := hl i p e'' hp (by rw [List.getElem?_append_left hlt, he''])
      rw [List.take_append_of_le_length hlt.le] at hold ⊢
      rwa [if_neg hlt.ne']
    · have hi : i < (before ++ [e']).length := (List.getElem?_eq_some_iff.mp he'').1
      obtain rfl : i = before.length := by
        rw [List.length_append, List.length_singleton] at hi
        omega
      have hold := hl before.length p e hp List.getElem?_concat_length
      rw [List.take_left' rfl] at hold ⊢
      rw [List.getElem?_concat_length, Option.some.injEq] at he''
      rw [if_pos rfl, ← he'']
      exact hchange hold
  exact ⟨hleaves.transmitted, hleaves.received⟩

/-- The only packet of a tree that was just created. -/
theorem leavesHold_newTree {leaf : NodeId} {received : List (List UInt8)}
    (hg : Grown h t header [data] received) (hpackets : t.streamPackets = [newPacket leaf])
    (hleaf : h[leaf]? = some ⟨data, ∅, some t.root, 1⟩) : LeavesHold h t [⟨header, data, [], 0, 0⟩] := by
  intro i p e hp he
  obtain rfl : i = 0 := Nat.lt_one_iff.mp (List.getElem?_eq_some_iff.mp he).1
  rw [List.getElem?_cons_zero, Option.some.injEq] at he
  rw [hpackets, List.getElem?_cons_zero, Option.some.injEq] at hp
  subst he hp
  have hword := Spells.child hg.holdsSent.spells_root (n := leaf) (by rw [forest_parent hleaf])
  rw [forest_label hleaf, List.nil_append] at hword
  have hcut : data ∈ cutsOf ([] ++ [data]) := Or.inr (Or.inl ⟨[], [], rfl, by simp⟩)
  exact ⟨⟨data, hword, List.prefix_refl _, iff_of_true rfl hcut⟩,
    fun n hn => absurd hn (Option.not_mem_none n)⟩

/-- Something is sent with a header. -/
theorem storeData_holds {existing : Option Tree} (hw : WellFormed h)
    (hold : ∀ t ∈ existing, TreeHolds h t header exchanges) (hnone : existing = none → exchanges = [])
    (hd : data ≠ []) :
    ∃ t h', storeData existing header data h = .ok t h' ∧ WellFormed h' ∧
      TreeHolds h' t header (exchanges ++ [⟨header, data, [], 0, 0⟩]) ∧ KeepsOthers h h' header := by
  cases existing with
  | none =>
    obtain rfl := hnone rfl
    obtain ⟨leaf, t, h', hrun, hg, hlast, hpackets, hleaf⟩ := grown_newTree hw header hd
    refine ⟨t, h', hrun, hg.wellFormed, ⟨hg.roots_ne, hg.holdsSent, hg.holdsReceived, hg.packetsCount, ?_,
      ?_, hlast, newTree_header hd hrun⟩, ?_⟩
    · rw [hpackets]
      rfl
    · exact leavesHold_newTree hg hpackets hleaf
    · obtain ⟨b, rest, rfl⟩ := List.exists_cons_of_ne_nil hd
      rw [newTree_ok] at hrun
      cases hrun
      refine ⟨fun _ hh => HoldsStreams.planted hw hh header b rest, keepsBelow_steady fun i x hx => ?_⟩
      exact ⟨x, (getElem?_planted_old (lt_length hx) _ _ _).trans hx, rfl, rfl⟩
  | some t =>
    have ht := hold t rfl
    obtain ⟨leaf, h', hrun, hm⟩ := ht.holdsSent.exists_merge hw hd
    have hlength : t.streamPackets.length = exchanges.length := by
      rw [← List.length_map (f := packetNote), ht.packets, List.length_map]
    refine ⟨_, h', bind_ok hrun, hm.wellFormed, ⟨ht.roots_ne, ?_, ?_, ?_, ?_, ?_, ?_, ht.headerText⟩,
      keepsOthers_merged ht.holdsSent hm⟩
    · rw [List.map_append]
      exact ht.holdsSent.merged hm
    · rw [List.flatMap_append, List.flatMap_singleton, List.append_nil]
      exact ht.holdsReceived.merged_other ht.roots_ne.symm hm
    · rw [List.length_append, List.length_singleton, Nat.cast_succ, ← ht.packetsCount]
    · rw [List.map_append, List.map_append, ht.packets]
      rfl
    · exact LeavesHold.concat (ht.leaves.mono ht.holdsSent ht.holdsReceived (keepsBelow_merged hm)) hlength
        ⟨leafFor_merged ht.holdsSent hm, fun n hn => absurd hn (Option.not_mem_none n)⟩
    · rw [List.length_append, List.length_singleton, Nat.add_sub_cancel, hlength]

/-- Changing the packet of the last exchange. -/
theorem modify_lastPacket {packets : List Packet} {e' : LogExchange} {change : Packet → Packet}
    (hpackets : packets.map packetNote = (before ++ [e]).map LogExchange.note)
    (hchange : ∀ p, packetNote p = e.note → packetNote (change p) = e'.note) :
    (packets.modify ((before ++ [e]).length - 1) change).map packetNote =
      (before ++ [e']).map LogExchange.note := by
  rw [List.map_append, List.map_singleton] at hpackets
  obtain ⟨front, last, rfl, hfront, hlast⟩ := List.map_eq_append_iff.mp hpackets
  obtain ⟨p, rfl, hp⟩ := List.map_eq_singleton_iff.mp hlast
  have hlength : (before ++ [e]).length - 1 = front.length := by
    rw [List.length_append, List.length_singleton, Nat.add_sub_cancel,
      ← List.length_map (f := LogExchange.note),
      ← hfront, List.length_map]
  rw [hlength, modify_concat, List.map_append, List.map_append, hfront, List.map_singleton,
    List.map_singleton,
    hchange p hp]

/-- Something is answered. -/
theorem addReceivedData_holds (hw : WellFormed h) (ht : TreeHolds h t header (before ++ [e]))
    (hd : data ≠ []) :
    ∃ t' h', addReceivedData t data h = .ok t' h' ∧ WellFormed h' ∧
      TreeHolds h' t' header (before ++ [{ e with answers := e.answers ++ [data] }]) ∧
        KeepsOthers h h' header := by
  obtain ⟨leaf, h', hrun, hm⟩ := ht.holdsReceived.exists_merge hw hd
  have hlast := ht.lastPacket
  have hkeeps : KeepsOthers h h' header := keepsOthers_merged ht.holdsReceived hm
  refine ⟨{ t with streamPackets := t.streamPackets.modify ((before ++ [e]).length - 1) fun p =>
      { p with receivedLeafNode := some leaf } }, h', (bind_ok hrun).trans ?_, hm.wellFormed,
    ⟨ht.roots_ne, ?_, ?_, ?_, modify_lastPacket ht.packets fun p hp => ?_,
      (ht.leaves.mono ht.holdsSent ht.holdsReceived hkeeps.below).modify_last fun hleaves =>
        ⟨hleaves.transmitted, fun n hn => ⟨e.answers, data, rfl, ?_⟩⟩, ?_, ht.headerText⟩, hkeeps⟩
  · rw [hlast]
    rfl
  · have hsent := ht.holdsSent.merged_other ht.roots_ne hm
    rwa [List.map_append] at hsent ⊢
  · have hreceived := ht.holdsReceived.merged hm
    rw [List.flatMap_append, List.flatMap_singleton, List.append_assoc] at hreceived
    rwa [List.flatMap_append, List.flatMap_singleton]
  · rw [List.length_append, List.length_singleton]
    simpa using ht.packetsCount
  · have hsame := (Prod.mk.injEq _ _ _ _).mp hp
    simp [packetNote, LogExchange.note, (Prod.mk.injEq _ _ _ _).mp hsame.2]
  · have hleaf := leafFor_merged ht.holdsReceived hm
    rw [List.flatMap_append, List.flatMap_singleton] at hleaf
    cases hn
    exact hleaf
  · rw [hlast]
    simp

/-- A response time is read. -/
theorem setAdditionalInfo_holds (ht : TreeHolds h t header (before ++ [e])) (responseTime ac : ℤ) :
    TreeHolds h (setAdditionalInfoForLastPacket t responseTime ac) header
      (before ++ [{ e with responseTime := responseTime, ac := ac }]) := by
  let change (p : Packet) : Packet := { p with responseTime := responseTime, ac := ac }
  have hleaves : LeavesHold h { t with
      streamPackets := t.streamPackets.modify ((before ++ [e]).length - 1) change }
        (before ++ [{ e with responseTime := responseTime, ac := ac }]) :=
    ht.leaves.modify_last fun hleaves => ⟨hleaves.transmitted, hleaves.received⟩
  have hset : setAdditionalInfoForLastPacket t responseTime ac = { t with
      streamPackets := t.streamPackets.modify ((before ++ [e]).length - 1) change } := by
    rw [setAdditionalInfoForLastPacket, ht.lastPacket]
  rw [hset]
  refine ⟨ht.roots_ne, ?_, ?_, ?_, modify_lastPacket ht.packets fun p hp => ?_,
    hleaves, ?_, ht.headerText⟩
  · have hsent := ht.holdsSent
    rwa [List.map_append] at hsent ⊢
  · have hreceived := ht.holdsReceived
    rwa [List.flatMap_append] at hreceived ⊢
  · simpa using ht.packetsCount
  · have hsame := (Prod.mk.injEq _ _ _ _).mp hp
    simp [packetNote, LogExchange.note, change, hsame.1]
  · simpa only [List.length_append, List.length_singleton] using ht.lastPacket

/-- A tree is put under its header, when the exchange that was begun last is another one
than before or has been changed. -/
theorem Holds.put {ac : ℤ} {p : Parser} (hs : Holds s history) (hw : WellFormed h')
    (hkeeps : KeepsOthers s.1 h' e.header)
    (ht : TreeHolds h' t e.header (History.exchangesOf ⟨before ++ [e], ac⟩ e.header))
    (hp : p.packets = s.2.packets.insert (printHexBinary e.header) t)
    (hothers : ∀ header, e.header ≠ header →
      history.exchangesOf header = History.exchangesOf ⟨before, ac⟩ header)
    (hlast : p.lastProcessedPacket = some (printHexBinary e.header)) (hac : p.ac = ac) :
    Holds (h', p) ⟨before ++ [e], ac⟩ where
  wellFormed := hw
  lookup_none header := by
    dsimp only
    rw [hp]
    rcases eq_or_ne e.header header with rfl | hne
    · rw [AList.lookup_insert, exchangesOf_last]
      exact iff_of_false (Option.some_ne_none t) (List.append_ne_nil_of_right_ne_nil _ (List.cons_ne_nil _ _))
    · rw [AList.lookup_insert_ne fun heq => hne (printHexBinary_injective heq).symm, hs.lookup_none,
        exchangesOf_other before ac hne, hothers header hne]
  tree {header t'} ht' := by
    dsimp only at ht'
    rw [hp] at ht'
    rcases eq_or_ne e.header header with rfl | hne
    · rw [AList.lookup_insert, Option.some.injEq] at ht'
      exact ht' ▸ ht
    · rw [AList.lookup_insert_ne fun heq => hne (printHexBinary_injective heq).symm] at ht'
      have hold := hs.tree ht'
      rw [exchangesOf_other before ac hne, ← hothers header hne]
      exact ⟨hold.roots_ne, hkeeps.holds hne.symm hold.holdsSent, hkeeps.holds hne.symm hold.holdsReceived,
        hold.packetsCount, hold.packets, hold.leaves.mono hold.holdsSent hold.holdsReceived hkeeps.below,
        hold.lastPacket, hold.headerText⟩
  key {key t'} ht' := by
    dsimp only at ht'
    rw [hp] at ht'
    rcases eq_or_ne key (printHexBinary e.header) with rfl | hne
    · exact ⟨e.header, rfl⟩
    · rw [AList.lookup_insert_ne hne] at ht'
      exact hs.key ht'
  last := by
    rw [List.getLast?_concat]
    exact hlast
  ac := hac

/-- What is left of the trees when an exception ends the parse. -/
structure KeepsTrees (h h' : Heap) : Prop where
  /-- Whatever was held is shown. -/
  shown : ∀ {root header streams}, HoldsStreams h root header streams → Shown h' root header streams
  /-- The nodes of a tree are still in it. -/
  reachable : ∀ {root n}, Linked h root → Reachable (childIds h) root n → Reachable (childIds h') root n
  /-- They spell what they spelled. -/
  below : KeepsBelow h h'

/-- Trees that are left alone are kept. -/
theorem keepsTrees_refl (hw : WellFormed h) : KeepsTrees h h :=
    ⟨fun hh => shown_of_holds hw hh, fun _ hn => hn, fun _ hn => hn⟩

/-- Counts do not matter to the children. -/
theorem childIds_counted (h : Heap) (n : NodeId) : childIds (counted h n) = childIds h := by
  funext i
  rw [childIds, childIds, getElem?_counted]
  cases h[i]? with
  | none => rfl
  | some x =>
    rw [Option.map_some]
    split_ifs <;> rfl

/-- Counting a node keeps the trees. -/
theorem keepsTrees_counted (hw : WellFormed h) (n : NodeId) : KeepsTrees h (counted h n) :=
  ⟨fun hh => shown_of_holds (hw.counted n) (HoldsStreams.modify_count hh n _),
    fun _ hn => (childIds_counted h n).symm ▸ hn, keepsBelow_steady (steady_counted h n)⟩

/-- The nodes of a tree are old ones. -/
theorem same_of_old (hl : Linked h root) (hold : ∀ i < h.length, h'[i]? = h[i]?) {i : NodeId}
    (hi : Reachable (childIds h) root i) : h'[i]? = h[i]? := by
  obtain ⟨x, hx⟩ := hl.exists_node hi
  exact hold i (lt_length hx)

/-- New nodes are in no tree. -/
theorem keepsTrees_of_old (hw : WellFormed h) (hold : ∀ i < h.length, h'[i]? = h[i]?) : KeepsTrees h h' where
  shown hh := by
    have hs := shown_of_holds hw hh
    exact hs.frame (same_of_old hs.linked hold)
  reachable hl hn := ((hl.frame (same_of_old hl hold)).2 _).mpr hn
  below := keepsBelow_steady fun i x hx => ⟨x, (hold i (lt_length hx)).trans hx, rfl, rfl⟩

/-- Empty data are not stored, and what is in the trees stays there. -/
theorem storeData_nil_keeps {existing : Option Tree} (header : List UInt8) (hw : WellFormed h)
    (hold : ∀ t ∈ existing, HoldsStreams h t.root header streams) :
    ∃ h', storeData existing header [] h = .error .arrayIndexOutOfBounds h' ∧ KeepsTrees h h' := by
  cases existing with
  | none =>
    have hnode : (h ++ [(⟨header, ∅, none, 1⟩ : Node)] ++ [(⟨[], ∅, none, 1⟩ : Node)])[
        (h ++ [(⟨header, ∅, none, 1⟩ : Node)]).length]? = some ⟨[], ∅, none, 1⟩ := List.getElem?_concat_length
    have herr := addChild_error h.length hnode rfl
    refine ⟨_, (bind_ok (newNode_ok header h)).trans
      ((bind_ok (newNode_ok [] _)).trans (bind_error herr)), keepsTrees_of_old hw fun i hi => ?_⟩
    have hne : (h ++ [(⟨header, ∅, none, 1⟩ : Node)]).length ≠ i := by
      rw [List.length_append]
      exact (hi.trans (Nat.lt_succ_self _)).ne'
    rw [List.getElem?_modify_ne _ _ hne, List.append_assoc, List.getElem?_append_left hi]
  | some t =>
    obtain ⟨x, hx, -⟩ := (hold t rfl).header
    have herr : mergeNode t.root [] h = .error .arrayIndexOutOfBounds (counted h t.root) :=
      bind_ok (incrementCount_ok hx)
    exact ⟨_, bind_error herr, keepsTrees_counted hw _⟩

/-- How a line is read: it tells something, or ends the log and leaves the trees as they are. -/
def Reads (s : Heap × Parser) (told : Option History) :
    EStateM.Result JavaException (Heap × Parser) Unit → Prop
  | .ok _ s' => ∃ history', told = some history' ∧ Holds s' history'
  | .error _ s' => told = none ∧ s'.2.packets = s.2.packets ∧ KeepsTrees s.1 s'.1

/-- Bytes that are nothing but a header end the log. -/
theorem handleTransmittedData_header (hs : Holds s history) (hlen : data.length = headerLength) :
    ∃ err h', handleTransmittedData headerLength data s = .error err (h', s.2) ∧ KeepsTrees s.1 h' := by
  have hnil : data.drop headerLength = [] := by rw [← hlen, List.drop_length]
  obtain ⟨h', hrun, hkeeps⟩ := storeData_nil_keeps (data.take headerLength) hs.wellFormed
    fun t (ht : s.2.packets.lookup (headerText headerLength data) = some t) => (hs.tree ht).holdsSent
  refine ⟨.arrayIndexOutOfBounds, h', ?_, hkeeps⟩
  rw [handleTransmittedData_eq hlen.ge, hnil]
  cases hold : s.2.packets.lookup (headerText headerLength data) <;>
    rw [hold] at hrun <;> exact bind_error (lift_error hrun s.2)

/-- Bytes with a header and more are one exchange more. -/
theorem handleTransmittedData_sends (hs : Holds s history) (hlen : headerLength < data.length) :
    ∃ s' history', handleTransmittedData headerLength data s = .ok () s' ∧
      history.send headerLength data = some history' ∧ Holds s' history' := by
  have hne : data.drop headerLength ≠ [] := by
    rw [ne_eq, List.drop_eq_nil_iff]
    omega
  obtain ⟨t, h', hrun, hw, ht, hkeeps⟩ : ∃ t h',
      storeData (s.2.packets.lookup (headerText headerLength data)) (data.take headerLength)
        (data.drop headerLength) s.1 = .ok t h' ∧ WellFormed h' ∧ _ ∧ _ :=
    storeData_holds hs.wellFormed (fun t ht => hs.tree ht) (fun hnone => (hs.lookup_none _).mp hnone) hne
  refine ⟨_, _, handleTransmittedData_run hlen hrun, if_pos hlen, ?_⟩
  refine hs.put (e := ⟨data.take headerLength, data.drop headerLength, [], 0, 0⟩) hw hkeeps ?_ rfl
    (fun _ _ => rfl) rfl hs.ac
  rwa [exchangesOf_last]

/-- A line of data that was sent is recorded. -/
theorem handleTransmittedData_reads (hs : Holds s history) (data : List UInt8) :
    Reads s (history.send headerLength data) (handleTransmittedData headerLength data s) := by
  rcases Nat.lt_trichotomy data.length headerLength with hlen | hlen | hlen
  · rw [handleTransmittedData_short hlen]
    exact ⟨if_neg hlen.not_gt, rfl, keepsTrees_refl hs.wellFormed⟩
  · obtain ⟨err, h', hrun, hkeeps⟩ := handleTransmittedData_header hs hlen
    rw [hrun]
    exact ⟨if_neg hlen.not_gt, rfl, hkeeps⟩
  · obtain ⟨s', history', hrun, hsend, hs'⟩ := handleTransmittedData_sends hs hlen
    rw [hrun]
    exact ⟨history', hsend, hs'⟩

/-- The tree that answers and response times go to. -/
theorem Holds.lastTree (hs : Holds s history) :
    (history.exchanges = [] ∧ LogParser.lastTree s = .ok none s) ∨
      ∃ before e t, history = ⟨before ++ [e], s.2.ac⟩ ∧
        s.2.packets.lookup (printHexBinary e.header) = some t ∧
        TreeHolds s.1 t e.header (History.exchangesOf ⟨before, s.2.ac⟩ e.header ++ [e]) ∧
        LogParser.lastTree s = .ok (some (printHexBinary e.header, t)) s := by
  have hrun : LogParser.lastTree s = .ok (s.2.lastProcessedPacket.bind fun header =>
      (s.2.packets.lookup header).map fun tree => (header, tree)) s := rfl
  obtain ⟨exchanges, ac⟩ := history
  obtain rfl : s.2.ac = ac := hs.ac
  rcases List.eq_nil_or_concat exchanges with rfl | ⟨before, e, rfl⟩
  · refine Or.inl ⟨rfl, ?_⟩
    rw [hrun, hs.last]
    rfl
  · rw [List.concat_eq_append] at hs ⊢
    have hsome : History.exchangesOf ⟨before ++ [e], s.2.ac⟩ e.header ≠ [] := by
      rw [exchangesOf_last]
      exact List.append_ne_nil_of_right_ne_nil _ (List.cons_ne_nil _ _)
    obtain ⟨t, ht⟩ := Option.ne_none_iff_exists'.mp (mt (hs.lookup_none e.header).mp hsome)
    have htree := hs.tree ht
    rw [exchangesOf_last] at htree
    refine Or.inr ⟨before, e, t, rfl, ht, htree, ?_⟩
    rw [hrun, hs.last, List.getLast?_concat, Option.map_some, Option.bind_some, ht, Option.map_some]

/-- The exchange that was begun last has been changed. -/
theorem Holds.change {ac : ℤ} {p : Parser} {e' : LogExchange} (hs : Holds s ⟨before ++ [e], s.2.ac⟩)
    (hsame : e'.header = e.header) (hw : WellFormed h') (hkeeps : KeepsOthers s.1 h' e.header)
    (ht : TreeHolds h' t e.header (History.exchangesOf ⟨before, s.2.ac⟩ e.header ++ [e']))
    (hp : p.packets = s.2.packets.insert (printHexBinary e.header) t)
    (hlast : p.lastProcessedPacket = s.2.lastProcessedPacket) (hac : p.ac = ac) :
    Holds (h', p) ⟨before ++ [e'], ac⟩ := by
  rw [← hsame] at ht hkeeps hp
  refine hs.put hw hkeeps ?_ hp (fun header hne => exchangesOf_other before s.2.ac (hsame ▸ hne)) ?_ hac
  · rw [exchangesOf_last]
    exact ht
  · rw [hlast, hs.last, List.getLast?_concat, Option.map_some, hsame]

/-- The change is made to the last exchange. -/
theorem changeLast_concat (before : List LogExchange) (e : LogExchange) (ac : ℤ)
    (change : LogExchange → LogExchange) :
    History.changeLast ⟨before ++ [e], ac⟩ change = some ⟨before ++ [change e], ac⟩ := by
  rw [History.changeLast, List.getLast?_concat, Option.map_some, List.dropLast_concat]

/-- Digits that are no number record nothing. -/
theorem await_none {time : JavaString} (htime : intOfDigits (time.filter Char.isDigit) = none) :
    history.await time = none := by
  rw [History.await, htime]
  rfl

/-- Nor does a time without an exchange. -/
theorem await_nil (hempty : history.exchanges = []) (time : JavaString) : history.await time = none := by
  rw [History.await]
  cases intOfDigits (time.filter Char.isDigit) with
  | none => rfl
  | some n => simp [History.changeLast, hempty]

/-- A time belongs to the last exchange, which has the next number. -/
theorem await_concat {time : JavaString} {n : ℤ} (htime : intOfDigits (time.filter Char.isDigit) = some n)
    (before : List LogExchange) (e : LogExchange) (ac : ℤ) :
    History.await ⟨before ++ [e], ac⟩ time =
      some ⟨before ++ [{ e with responseTime := n, ac := ac }], (ac + 1).bmod (2 ^ 32)⟩ := by
  rw [History.await, htime, Option.bind_eq_bind, Option.bind_some, changeLast_concat]
  rfl

/-- A message for the logger tells nothing. -/
theorem Holds.message (hs : Holds s history) (errors : List String) :
    Holds (s.1, { s.2 with errors := errors }) history :=
  ⟨hs.wellFormed, hs.lookup_none, hs.tree, hs.key, hs.last, hs.ac⟩

/-- A line of an answer is recorded. -/
theorem handleReceivedData_reads (hs : Holds s history) (data : List UInt8) :
    Reads s (history.receive data) (handleReceivedData data s) := by
  obtain ⟨hempty, hnone⟩ | ⟨before, e, t, rfl, hlookup, ht, hsome⟩ := hs.lastTree
  · have hrun : handleReceivedData data s = .ok () (s.1, { s.2 with
        errors := s.2.errors ++ ["Packet \"" ++ printHexBinary data ++ "\" not found as parsed tree"] }) :=
      bind_ok hnone
    rw [hrun]
    exact ⟨history, if_pos hempty, hs.message _⟩
  have hexchanges : before ++ [e] ≠ [] := List.append_ne_nil_of_right_ne_nil _ (List.cons_ne_nil _ _)
  rcases eq_or_ne data [] with rfl | hd
  · obtain ⟨x, hx, hparent, -⟩ := ht.holdsReceived.header
    have hrun : handleReceivedData [] s = .error .arrayIndexOutOfBounds (counted s.1 t.receivedRoot, s.2) :=
      (bind_ok hsome).trans (bind_error (lift_error (addReceivedData_nil ⟨x, hx, hparent⟩) s.2))
    rw [hrun]
    exact ⟨(if_neg hexchanges).trans (if_pos rfl), rfl, keepsTrees_counted hs.wellFormed _⟩
  · obtain ⟨t', h', hrun, hw, ht', hkeeps⟩ := addReceivedData_holds hs.wellFormed ht hd
    have hread : handleReceivedData data s =
        .ok () (h', { s.2 with packets := s.2.packets.insert (printHexBinary e.header) t' }) :=
      (bind_ok hsome).trans (bind_ok (lift_ok hrun s.2))
    rw [hread]
    refine ⟨⟨before ++ [{ e with answers := e.answers ++ [data] }], s.2.ac⟩,
      ((if_neg hexchanges).trans (if_neg hd)).trans (changeLast_concat before e s.2.ac _), ?_⟩
    exact hs.change rfl hw hkeeps ht' rfl rfl rfl

/-- So is a line of a response time. -/
theorem handleResponseTime_reads (hs : Holds s history) (time : JavaString) :
    Reads s (history.await time) (handleResponseTime time s) := by
  obtain ⟨found, hfound⟩ : ∃ found, LogParser.lastTree s = .ok found s := ⟨_, rfl⟩
  cases htime : intOfDigits (time.filter Char.isDigit) with
  | none =>
    have hparse : parseInt (time.filter Char.isDigit) s = .error .illegalArgument s := by
      rw [parseInt, htime]
      rfl
    have hrun : handleResponseTime time s = .error .illegalArgument s :=
      (bind_ok hfound).trans (bind_error hparse)
    rw [hrun]
    exact ⟨await_none htime, rfl, keepsTrees_refl hs.wellFormed⟩
  | some n =>
    have hparse : parseInt (time.filter Char.isDigit) s = .ok n s := by
      rw [parseInt, htime]
      rfl
    obtain ⟨hempty, hnone⟩ | ⟨before, e, t, rfl, hlookup, ht, hsome⟩ := hs.lastTree
    · have hrun : handleResponseTime time s =
          .error .nullPointer (s.1, { s.2 with ac := (s.2.ac + 1).bmod (2 ^ 32) }) :=
        (bind_ok hnone).trans (bind_ok hparse)
      rw [hrun]
      exact ⟨await_nil hempty time, rfl, keepsTrees_refl hs.wellFormed⟩
    · have hrun : handleResponseTime time s = .ok () (s.1, { s.2 with
          ac := (s.2.ac + 1).bmod (2 ^ 32)
          packets := s.2.packets.insert (printHexBinary e.header)
            (setAdditionalInfoForLastPacket t n s.2.ac) }) :=
        (bind_ok hsome).trans (bind_ok hparse)
      rw [hrun]
      exact ⟨_, await_concat htime before e s.2.ac,
        hs.change rfl hs.wellFormed ⟨fun _ hh => hh, fun _ hn => hn⟩
        (setAdditionalInfo_holds ht n s.2.ac) rfl rfl rfl⟩

/-- The bytes of a line are read before anything changes. -/
theorem parseHexBinary_reads (hs : Holds s history) {text : JavaString} {handle : List UInt8 → ParserM Unit}
    {told : List UInt8 → Option History} (hhandle : ∀ bytes, Reads s (told bytes) (handle bytes s)) :
    Reads s ((hexBinary text).bind told) ((parseHexBinary text >>= handle) s) := by
  unfold parseHexBinary
  cases hexBinary text with
  | none => exact ⟨rfl, rfl, keepsTrees_refl hs.wellFormed⟩
  | some bytes => exact hhandle bytes

/-- Every line is read as it says. -/
theorem parseLine_reads (hs : Holds s history) (line : JavaString) :
    Reads s (history.readLine headerLength line) (parseLine headerLength line s) := by
  unfold parseLine handleABDULine History.readLine
  cases processLine line with
  | none => exact ⟨history, rfl, hs⟩
  | some pair =>
    dsimp only
    split_ifs
    · exact parseHexBinary_reads hs (handleTransmittedData_reads hs)
    · exact parseHexBinary_reads hs (handleReceivedData_reads hs)
    · exact handleResponseTime_reads hs pair.2
    · exact ⟨history, rfl, hs⟩

/-- What a parser leaves: trees for the headers that were sent, which show what was sent and
what was answered, with a packet for every exchange. -/
structure Recorded (headerLength : ℕ) (s : Heap × Parser) (history : History) : Prop where
  /-- There are trees for the headers that were sent. -/
  lookup_none : ∀ header, s.2.packets.lookup (printHexBinary header) = none ↔ history.exchangesOf header = []
  /-- There are no others. -/
  key : ∀ {key t}, s.2.packets.lookup key = some t → ∃ header, key = printHexBinary header
  /-- They know the texts of their headers. -/
  headerText : ∀ {header t}, s.2.packets.lookup (printHexBinary header) = some t →
    t.header = printHexBinary header
  /-- The headers are of the length in the settings. -/
  length : ∀ {header t}, s.2.packets.lookup (printHexBinary header) = some t → header.length = headerLength
  /-- The two roots of a tree are different nodes. -/
  roots_ne : ∀ {key t}, s.2.packets.lookup key = some t → t.root ≠ t.receivedRoot
  /-- What was sent with a header. -/
  sent : ∀ {header t}, s.2.packets.lookup (printHexBinary header) = some t →
    Shown s.1 t.root header ((history.exchangesOf header).map LogExchange.data)
  /-- What was answered. -/
  received : ∀ {header t}, s.2.packets.lookup (printHexBinary header) = some t →
    Shown s.1 t.receivedRoot header ((history.exchangesOf header).flatMap LogExchange.answers)
  /-- The exchanges are counted. -/
  packetsCount : ∀ {header t}, s.2.packets.lookup (printHexBinary header) = some t →
    t.packetsCount = ((history.exchangesOf header).length : ℕ)
  /-- There is a packet for each of them. -/
  packets : ∀ {header t}, s.2.packets.lookup (printHexBinary header) = some t →
    t.streamPackets.map packetNote = (history.exchangesOf header).map LogExchange.note
  /-- It refers to the nodes of the exchange. -/
  leaves : ∀ {header t}, s.2.packets.lookup (printHexBinary header) = some t →
    LeavesHold s.1 t (history.exchangesOf header)
  /-- That of what was sent is in the transmitted half. -/
  transmittedLeaf : ∀ {key t}, s.2.packets.lookup key = some t → ∀ p ∈ t.streamPackets,
    Reachable (childIds s.1) t.root p.transmittedLeafNode
  /-- With an answer there is also one in the received half. -/
  receivedLeaf : ∀ {key t}, s.2.packets.lookup key = some t → ∀ p ∈ t.streamPackets,
    ∀ n ∈ p.receivedLeafNode, Reachable (childIds s.1) t.receivedRoot n

/-- A root in a well-formed heap is that of a tree. -/
theorem linked_of_hasHeader (hw : WellFormed h) (hr : HasHeader headerLength h root) : Linked h root := by
  obtain ⟨x, hx, hparent, -⟩ := hr
  exact linked_of_wellFormed hw hx hparent

/-- A log may end at any time. -/
theorem Holds.recorded (hs : Holds s history) (hsound : Sound headerLength s) {s' : Heap × Parser}
    (hp : s'.2.packets = s.2.packets) (hkeeps : KeepsTrees s.1 s'.1) : Recorded headerLength s' history where
  lookup_none header := by rw [hp, hs.lookup_none]
  key ht := hs.key (hp ▸ ht)
  headerText ht := (hs.tree (hp ▸ ht)).headerText
  length {header t} ht := by
    rw [hp] at ht
    obtain ⟨x, hx, -, hlength⟩ := (hsound.leafed ht).root
    obtain ⟨y, hy, -, rfl⟩ := (hs.tree ht).holdsSent.header
    rw [hx, Option.some.injEq] at hy
    rw [← hy, hlength]
  roots_ne {key t} ht := by
    rw [hp] at ht
    obtain ⟨header, rfl⟩ := hs.key ht
    exact (hs.tree ht).roots_ne
  sent ht := hkeeps.shown (hs.tree (hp ▸ ht)).holdsSent
  received ht := hkeeps.shown (hs.tree (hp ▸ ht)).holdsReceived
  packetsCount ht := (hs.tree (hp ▸ ht)).packetsCount
  packets ht := (hs.tree (hp ▸ ht)).packets
  leaves ht :=
    have htree := hs.tree (hp ▸ ht)
    htree.leaves.mono htree.holdsSent htree.holdsReceived hkeeps.below
  transmittedLeaf ht p hmem := by
    have hleafed := hsound.leafed (hp ▸ ht)
    obtain ⟨w, hw⟩ := hleafed.transmitted p hmem
    exact hkeeps.reachable (linked_of_hasHeader hs.wellFormed hleafed.root)
      (reachable_of_spells hs.wellFormed hw)
  receivedLeaf ht p hmem n hn := by
    have hleafed := hsound.leafed (hp ▸ ht)
    obtain ⟨w, hw⟩ := hleafed.received p hmem n hn
    exact hkeeps.reachable (linked_of_hasHeader hs.wellFormed hleafed.receivedRoot)
      (reachable_of_spells hs.wellFormed hw)

/-- The lines of a log are read up to one that ends it. -/
theorem recorded_parseLines (lines : List JavaString) (hs : Holds s history) (hsound : Sound headerLength s) :
    Recorded headerLength (parseLines headerLength lines s) (history.readLines headerLength lines) := by
  induction lines generalizing s history with
  | nil => exact hs.recorded hsound rfl (keepsTrees_refl hs.wellFormed)
  | cons line rest ih =>
    have hread : Reads s (history.readLine headerLength line) (parseLine headerLength line s) :=
      parseLine_reads hs line
    have hsound' := parseLine_read hsound line
    cases hrun : parseLine headerLength line s with
    | ok u s' =>
      rw [hrun] at hread hsound'
      obtain ⟨history', htold, hs'⟩ := hread
      have hrest : parseLines headerLength (line :: rest) s = parseLines headerLength rest s' := by
        rw [parseLines, List.forM_cons, bind_ok hrun, parseLines]
      rw [hrest, History.readLines, htold]
      exact ih hs' hsound'
    | error err s' =>
      rw [hrun] at hread
      obtain ⟨htold, hp, hkeeps⟩ := hread
      have hend : parseLines headerLength (line :: rest) s = s' := by
        rw [parseLines, List.forM_cons, bind_error hrun, finalState]
      rw [hend, History.readLines, htold]
      exact hs.recorded hsound hp hkeeps

/-- The trees of a new parser are sound. -/
theorem sound_newParser (headerLength : ℕ) : Sound headerLength ([], newParser) :=
  ⟨WellFormed.nil, fun ht => by cases ht⟩

/-- Whatever a log contains, the parser ends with the trees of the exchanges that it tells of. -/
theorem parseFile_recorded (headerLength : ℕ) (text : JavaString) :
    Recorded headerLength (parseFile headerLength text ([], newParser)) (historyOf headerLength text) :=
  recorded_parseLines (scannerLines text) holds_newParser (sound_newParser headerLength)

end ApduPlay.RecordedLogs
