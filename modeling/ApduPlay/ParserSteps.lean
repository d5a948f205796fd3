import ApduPlay.LogLines
import ApduPlay.TreeRuns

/-!
# Steps of the parser

Each handler changes one tree and leaves the others alone. While an exchange
is read its packet is the last one of the tree of its header; whatever is
read later only adds packets behind it.
-/

namespace ApduPlay.ParserSteps

open LabelForest PacketNode PacketTree PacketMerge TreeRuns LogParser

/-- The key of the tree of a command. -/
def headerText (headerLength : ℕ) (command : List UInt8) : String :=
  printHexBinary (command.take headerLength)

/-- The packets recorded for a header. -/
def packetsOf (p : Parser) (header : List UInt8) : List Packet :=
  ((p.packets.lookup (printHexBinary header)).map Tree.streamPackets).getD []

/-- The tree of a header with the data of one more exchange. -/
def storeData (existing : Option Tree) (header data : List UInt8) : JavaM Tree :=
  match existing with
  | none => newTree header data
  | some tree => merge tree data

/-- A node without a parent. -/
def Parentless (h : Heap) (i : NodeId) : Prop := ∃ x, h[i]? = some x ∧ x.parent = none

/-- Nodes keep their data and their parents. -/
def Steady (h h' : Heap) : Prop :=
  ∀ (i : NodeId) (x : Node), h[i]? = some x →
    ∃ y : Node, h'[i]? = some y ∧ y.parent = x.parent ∧ y.data = x.data

/-- A tree that can be merged into, with its packet added last. -/
structure Rooted (h : Heap) (t : Tree) : Prop where
  /-- The root of the transmitted data. -/
  root : Parentless h t.root
  /-- The root of the responses. -/
  receivedRoot : Parentless h t.receivedRoot
  /-- The packet added last is the last one. -/
  lastPacket : t.lastPacket = some (t.streamPackets.length - 1)
  /-- There is a packet. -/
  packets_ne_nil : t.streamPackets ≠ []

variable {headerLength : ℕ} {h h' : Heap} {s s' : Heap × Parser} {command data : List UInt8}
  {commands : List (List UInt8)} {t t' : Tree} {r i leaf : NodeId} {packet : Packet} {header : String}

/-- A merge leaves the parents and the data of all roots. -/
theorem merged_root (hm : Merged h r data leaf h') {x : Node} (hx : h[i]? = some x) (hp : x.parent = none) :
    ∃ y, h'[i]? = some y ∧ y.parent = none ∧ y.data = x.data := by
  rcases eq_or_ne i r with rfl | hne
  · obtain ⟨y, hy, hyp, hyd, -⟩ := hm.root hx
    exact ⟨y, hy, hyp.trans hp, hyd⟩
  · have hroot : Spells (forest h) i i [] := .root (by rw [forest_parent hx, hp])
    refine ⟨x, (hm.frame i (lt_length hx) fun w hs => ?_).trans hx, hp, rfl⟩
    exact hne (hroot.root_unique hs)

/-- Merging a stream gives no node a parent that had none. -/
theorem parentless_merged (hm : Merged h r data leaf h') (hi : Parentless h i) : Parentless h' i := by
  obtain ⟨x, hx, hp⟩ := hi
  obtain ⟨y, hy, hyp, -⟩ := merged_root hm hx hp
  exact ⟨y, hy, hyp⟩

/-- Nor does planting a tree. -/
theorem parentless_planted (hi : Parentless h i) (header data : List UInt8) (b : UInt8) :
    Parentless (planted h header data b) i := by
  obtain ⟨x, hx, hp⟩ := hi
  exact ⟨x, (getElem?_planted_old (lt_length hx) header data b).trans hx, hp⟩

/-- Every tree survives a step that keeps its roots. -/
theorem Rooted.of_parentless (ht : Rooted h t) (hkeep : ∀ i, Parentless h i → Parentless h' i) :
    Rooted h' t :=
  ⟨hkeep _ ht.root, hkeep _ ht.receivedRoot, ht.lastPacket, ht.packets_ne_nil⟩

/-- Merging below one of its roots is possible. -/
theorem exists_mergeNode (hw : WellFormed h) (hr : Parentless h r) (hd : data ≠ []) :
    ∃ leaf h', mergeNode r data h = .ok leaf h' ∧ Merged h r data leaf h' := by
  obtain ⟨x, hx, hp⟩ := hr
  exact mergeNode_spec hw hx hp hd

/-- Data are stored in the tree of a header, as one more packet. -/
theorem storeData_ok {existing : Option Tree} (header : List UInt8) (hw : WellFormed h)
    (hold : ∀ t ∈ existing, Rooted h t) (hd : data ≠ []) :
    ∃ leaf t h', storeData existing header data h = .ok t h' ∧ WellFormed h' ∧ Rooted h' t ∧
      (∀ i, Parentless h i → Parentless h' i) ∧
      t.streamPackets = (existing.map Tree.streamPackets).getD [] ++ [newPacket leaf] ∧
      (∀ t0 ∈ existing, t.root = t0.root ∧ t.receivedRoot = t0.receivedRoot ∧
        mergeNode t.root data h = .ok leaf h') := by
  cases existing with
  | none =>
    obtain ⟨b, rest, rfl⟩ := List.exists_cons_of_ne_nil hd
    obtain ⟨leaf, t, h', hrun, hg, hlast, hpackets, -⟩ := grown_newTree hw header hd
    obtain ⟨x, hx, hp, -⟩ := hg.holdsSent.header
    obtain ⟨y, hy, hyp, -⟩ := hg.holdsReceived.header
    refine ⟨leaf, t, h', hrun, hg.wellFormed, ⟨⟨x, hx, hp⟩, ⟨y, hy, hyp⟩, ?_, ?_⟩, fun i hi => ?_, ?_, ?_⟩
    · rw [hlast, hpackets]
      rfl
    · rw [hpackets]
      exact List.cons_ne_nil _ _
    · have hsame : h' = planted h header (b :: rest) b := by
        rw [newTree_ok] at hrun
        cases hrun
        rfl
      rw [hsame]
      exact parentless_planted hi _ _ _
    · exact hpackets
    · exact fun t0 ht0 => absurd ht0 (Option.not_mem_none _)
  | some t0 =>
    have ht0 := hold t0 rfl
    obtain ⟨leaf, h', hrun, hm⟩ := exists_mergeNode hw ht0.root hd
    have hkeep : ∀ i, Parentless h i → Parentless h' i := fun i => parentless_merged hm
    refine ⟨leaf, _, h', bind_ok hrun, hm.wellFormed,
      ⟨hkeep _ ht0.root, hkeep _ ht0.receivedRoot, ?_, ?_⟩, hkeep,
      rfl, fun t1 ht1 => ?_⟩
    · simp
    · simp
    · cases ht1
      exact ⟨rfl, rfl, hrun⟩

/-- The digits are different. -/
theorem hexDigit_inj : ∀ m < 16, ∀ n < 16, hexDigit m = hexDigit n → m = n := by decide

/-- Different bytes have different digits. -/
theorem hexDigits_injective :
    Function.Injective fun b : UInt8 => [hexDigit (b.toNat / 16), hexDigit (b.toNat % 16)] := by
  intro x y hxy
  obtain ⟨hhigh, hlow, -⟩ := List.cons_eq_cons.mp hxy |>.imp_right List.cons_eq_cons.mp
  have hx := x.toNat_lt
  have hy := y.toNat_lt
  have h1 := hexDigit_inj _ (by omega) _ (by omega) hhigh
  have h2 := hexDigit_inj _ (by omega) _ (by omega) hlow
  exact UInt8.toNat_inj.mp (by omega)

/-- Texts of the same length, one for every byte, can be told apart when they are joined. -/
theorem flatMap_injective {f : UInt8 → List Char} (hf : Function.Injective f) {n : ℕ}
    (hlen : ∀ b, (f b).length = n + 1) : Function.Injective (List.flatMap f) := by
  have hne (x : UInt8) (l : List UInt8) : f x ++ l.flatMap f ≠ [] := by
    refine List.ne_nil_of_length_pos ?_
    rw [List.length_append, hlen]
    omega
  intro a b hab
  induction a generalizing b with
  | nil =>
    cases b with
    | nil => rfl
    | cons y b => exact absurd hab.symm (hne y b)
  | cons x a ih =>
    cases b with
    | nil => exact absurd hab (hne x a)
    | cons y b =>
      obtain ⟨hbyte, hrest⟩ := List.append_inj hab ((hlen x).trans (hlen y).symm)
      rw [hf hbyte, ih hrest]

/-- Different headers have different texts. -/
theorem printHexBinary_injective : Function.Injective printHexBinary := by
  intro a b hab
  refine flatMap_injective hexDigits_injective (n := 1) (fun _ => rfl) ?_
  simpa only [printHexBinary, String.toList_ofList] using congrArg String.toList hab

/-- Between two exchanges: every tree can be merged into, and it has a packet
for every command with its header. -/
structure Kept (headerLength : ℕ) (commands : List (List UInt8)) (s : Heap × Parser) : Prop where
  /-- The heap is well formed. -/
  wellFormed : WellFormed s.1
  /-- The trees. -/
  rooted : ∀ {header : String} {t : Tree}, s.2.packets.lookup header = some t → Rooted s.1 t
  /-- Their packets. -/
  count : ∀ header, (packetsOf s.2 header).length = commands.countP fun c => c.take headerLength == header

/-- A new parser has kept nothing. -/
theorem kept_newParser (headerLength : ℕ) (hw : WellFormed h) : Kept headerLength [] (h, newParser) := by
  refine ⟨hw, fun ht => ?_, fun header => ?_⟩
  · cases ht
  · rfl

/-- Inside an exchange: its packet stands at the end of the tree of its header,
and the other trees are as they were before. -/
structure Pending (headerLength : ℕ) (s s' : Heap × Parser) (command : List UInt8) (packet : Packet)
    (t : Tree) : Prop where
  /-- The heap is well formed. -/
  wellFormed : WellFormed s'.1
  /-- The trees. -/
  rooted : ∀ {header : String} {t : Tree}, s'.2.packets.lookup header = some t → Rooted s'.1 t
  /-- The header of the exchange was processed last. -/
  last : s'.2.lastProcessedPacket = some (headerText headerLength command)
  /-- The tree of the exchange. -/
  tree : s'.2.packets.lookup (headerText headerLength command) = some t
  /-- Its packets. -/
  packets : t.streamPackets = packetsOf s.2 (command.take headerLength) ++ [packet]
  /-- It is the tree that was there before, if any. -/
  roots : ∀ t0 ∈ s.2.packets.lookup (headerText headerLength command),
    t.root = t0.root ∧ t.receivedRoot = t0.receivedRoot
  /-- The other trees. -/
  others : ∀ header, header ≠ headerText headerLength command →
    s'.2.packets.lookup header = s.2.packets.lookup header

/-- Every tree is still there and has got packets at its end only. -/
def Extends (p p' : Parser) : Prop :=
  ∀ header t, p.packets.lookup header = some t → ∃ t', p'.packets.lookup header = some t' ∧
    t'.root = t.root ∧ t'.receivedRoot = t.receivedRoot ∧ t.streamPackets <+: t'.streamPackets

/-- A parser extends itself. -/
theorem Extends.refl (p : Parser) : Extends p p :=
  fun _ t ht => ⟨t, ht, rfl, rfl, List.prefix_rfl⟩

/-- Extensions go on from each other. -/
theorem Extends.trans {p p' p'' : Parser} (h1 : Extends p p') (h2 : Extends p' p'') : Extends p p'' := by
  intro header t ht
  obtain ⟨t', ht', hr', hrr', hp'⟩ := h1 header t ht
  obtain ⟨t'', ht'', hr'', hrr'', hp''⟩ := h2 header t' ht'
  exact ⟨t'', ht'', hr''.trans hr', hrr''.trans hrr', hp'.trans hp''⟩

/-- The packets of a header are those of its tree. -/
theorem packetsOf_of_lookup {p : Parser} {header : List UInt8}
    (ht : p.packets.lookup (printHexBinary header) = some t) : packetsOf p header = t.streamPackets := by
  rw [packetsOf, ht]
  rfl

/-- The packets of every header are the first ones later on. -/
theorem Extends.packetsOf {p p' : Parser} (h : Extends p p') (header : List UInt8) :
    packetsOf p header <+: packetsOf p' header := by
  cases ht : p.packets.lookup (printHexBinary header) with
  | none =>
    rw [ParserSteps.packetsOf, ht]
    exact List.nil_prefix
  | some t =>
    obtain ⟨t', ht', -, -, hp⟩ := h _ t ht
    rw [packetsOf_of_lookup ht, packetsOf_of_lookup ht']
    exact hp

/-- A command only adds packets. -/
theorem Pending.extends (hp : Pending headerLength s s' command packet t) : Extends s.2 s'.2 := by
  intro header t0 ht0
  rcases eq_or_ne header (headerText headerLength command) with rfl | hne
  · obtain ⟨hr, hrr⟩ := hp.roots t0 ht0
    refine ⟨t, hp.tree, hr, hrr, ?_⟩
    rw [hp.packets, packetsOf_of_lookup ht0]
    exact List.prefix_append _ _
  · exact ⟨t0, (hp.others header hne).trans ht0, rfl, rfl, List.prefix_rfl⟩

/-- After an exchange there is one packet more. -/
theorem Pending.kept (hp : Pending headerLength s s' command packet t) (hk : Kept headerLength commands s) :
    Kept headerLength (commands ++ [command]) s' := by
  refine ⟨hp.wellFormed, hp.rooted, fun header => ?_⟩
  have hcount := hk.count header
  rw [List.countP_append, ← hcount, List.countP_singleton]
  rcases eq_or_ne (command.take headerLength) header with rfl | hne
  · rw [packetsOf_of_lookup hp.tree, hp.packets]
    simp
  · have hkey : printHexBinary header ≠ headerText headerLength command :=
      fun he => hne (printHexBinary_injective he).symm
    rw [packetsOf, hp.others _ hkey, if_neg (by simpa using hne)]
    rfl

/-- Assigning a tree with another last packet. -/
theorem Pending.put (hp : Pending headerLength s s' command packet t) {p : Parser} {packet' : Packet}
    (hw : WellFormed h') (hkeep : ∀ i, Parentless s'.1 i → Parentless h' i) (hroot : t'.root = t.root)
    (hreceived : t'.receivedRoot = t.receivedRoot) (hlast : t'.lastPacket = t.lastPacket)
    (hpackets : t'.streamPackets = packetsOf s.2 (command.take headerLength) ++ [packet'])
    (hprocessed : p.lastProcessedPacket = s'.2.lastProcessedPacket)
    (htrees : p.packets = s'.2.packets.insert (headerText headerLength command) t') :
    Pending headerLength s (h', p) command packet' t' := by
  have ht := hp.rooted hp.tree
  have hnew : Rooted h' t' := by
    refine ⟨hroot ▸ hkeep _ ht.root, hreceived ▸ hkeep _ ht.receivedRoot, ?_, ?_⟩
    · rw [hlast, ht.lastPacket, hpackets, hp.packets, List.length_append, List.length_append]
      rfl
    · rw [hpackets]
      exact List.append_ne_nil_of_right_ne_nil _ (List.cons_ne_nil _ _)
  refine ⟨hw, fun {header t1} ht1 => ?_, hprocessed.trans hp.last, ?_, hpackets, fun t0 ht0 => ?_,
    fun header hne => ?_⟩
  · rw [htrees] at ht1
    rcases eq_or_ne header (headerText headerLength command) with rfl | hne
    · rw [AList.lookup_insert, Option.some.injEq] at ht1
      exact ht1 ▸ hnew
    · rw [AList.lookup_insert_ne hne] at ht1
      exact (hp.rooted ht1).of_parentless hkeep
  · rw [htrees, AList.lookup_insert]
  · obtain ⟨hr, hrr⟩ := hp.roots t0 ht0
    exact ⟨hroot.trans hr, hreceived.trans hrr⟩
  · rw [htrees, AList.lookup_insert_ne hne]
    exact hp.others header hne

/-- A new tree has the text of its header. -/
theorem newTree_header {header : List UInt8} (hd : data ≠ []) (hrun : newTree header data h = .ok t h') :
    t.header = printHexBinary header := by
  obtain ⟨b, rest, rfl⟩ := List.exists_cons_of_ne_nil hd
  rw [newTree_ok] at hrun
  cases hrun
  rfl

/-- The fields of the parser are read. -/
theorem getFields_ok (s : Heap × Parser) : getFields s = .ok s.2 s := rfl

/-- A command is cut into header and data for the tree of the header. -/
theorem handleTransmittedData_eq (hlen : headerLength ≤ command.length) :
    handleTransmittedData headerLength command s =
      (do
        match s.2.packets.lookup (headerText headerLength command) with
        | none =>
          let tree ← newTree (command.take headerLength) (command.drop headerLength)
          putTree tree.header tree
        | some existingTree =>
          let tree ← merge existingTree (command.drop headerLength)
          putTree (headerText headerLength command) tree
        setFields fun p => { p with lastProcessedPacket := some (headerText headerLength command) } :
          ParserM Unit)
        s := by
  have hhead := copyOfRange_ok (Nat.zero_le headerLength) hlen s.1
  have htail := copyOfRange_ok hlen le_rfl s.1
  have hall : (command.drop headerLength).take (command.length - headerLength) = command.drop headerLength :=
    List.take_of_length_le (by rw [List.length_drop])
  rw [List.drop_zero, Nat.sub_zero] at hhead
  rw [hall] at htail
  exact (bind_ok (lift_ok hhead s.2)).trans ((bind_ok (lift_ok htail s.2)).trans (bind_ok (getFields_ok s)))

/-- The tree of the header is stored. -/
theorem handleTransmittedData_run (hlen : headerLength < command.length)
    (hrun : storeData (s.2.packets.lookup (headerText headerLength command)) (command.take headerLength)
      (command.drop headerLength) s.1 = .ok t h') :
    handleTransmittedData headerLength command s =
      .ok () (h', { s.2 with
        packets := s.2.packets.insert (headerText headerLength command) t
        lastProcessedPacket := some (headerText headerLength command) }) := by
  rw [handleTransmittedData_eq hlen.le]
  cases hold : s.2.packets.lookup (headerText headerLength command) with
  | none =>
    rw [hold] at hrun
    have hne : command.drop headerLength ≠ [] := by
      rw [ne_eq, List.drop_eq_nil_iff]
      omega
    have hheader := newTree_header hne hrun
    refine (bind_ok (lift_ok hrun s.2)).trans ?_
    rw [hheader]
    rfl
  | some t0 =>
    rw [hold] at hrun
    exact bind_ok (lift_ok hrun s.2)

/-- A command with data makes a packet for it. -/
theorem handleTransmittedData_ok (hk : Kept headerLength commands s) (hlen : headerLength < command.length) :
    ∃ leaf t s', handleTransmittedData headerLength command s = .ok () s' ∧
      Pending headerLength s s' command (newPacket leaf) t ∧ s'.2.ac = s.2.ac ∧
      storeData (s.2.packets.lookup (headerText headerLength command)) (command.take headerLength)
        (command.drop headerLength) s.1 = .ok t s'.1 ∧
      ∀ t0 ∈ s.2.packets.lookup (headerText headerLength command),
        mergeNode t.root (command.drop headerLength) s.1 = .ok leaf s'.1 := by
  have hne : command.drop headerLength ≠ [] := by
    rw [ne_eq, List.drop_eq_nil_iff]
    omega
  obtain ⟨leaf, t, h', hrun, hw, ht, hkeep, hpackets, hmerged⟩ :=
    storeData_ok (command.take headerLength) hk.wellFormed (fun t0 ht0 => hk.rooted ht0) hne
  refine ⟨leaf, t, _, handleTransmittedData_run hlen hrun, ⟨hw, fun {header t1} ht1 => ?_, rfl, ?_, hpackets,
    fun t0 ht0 => ⟨(hmerged t0 ht0).1, (hmerged t0 ht0).2.1⟩, fun header hne => ?_⟩, rfl, hrun,
    fun t0 ht0 => (hmerged t0 ht0).2.2⟩
  · rcases eq_or_ne header (headerText headerLength command) with rfl | hne
    · rw [AList.lookup_insert, Option.some.injEq] at ht1
      exact ht1 ▸ ht
    · rw [AList.lookup_insert_ne hne] at ht1
      exact (hk.rooted ht1).of_parentless hkeep
  · exact AList.lookup_insert _
  · exact AList.lookup_insert_ne hne

/-- The last tree is that of the pending command. -/
theorem lastTree_ok (hp : Pending headerLength s s' command packet t) :
    lastTree s' = .ok (some (headerText headerLength command, t)) s' := by
  have hvalue : (s'.2.lastProcessedPacket.bind fun header =>
      (s'.2.packets.lookup header).map fun tree => (header, tree)) =
      some (headerText headerLength command, t) := by
    rw [hp.last, Option.bind_some, hp.tree, Option.map_some]
  show EStateM.Result.ok _ s' = _
  rw [hvalue]

/-- Changing the last item. -/
theorem modify_concat {α : Type} (l : List α) (a : α) (f : α → α) :
    (l ++ [a]).modify l.length f = l ++ [f a] := by
  rw [List.modify_eq_take_cons_drop (by simp)]
  simp

/-- The packet of the exchange is the one that the tree changes. -/
theorem Pending.lastPacket (hp : Pending headerLength s s' command packet t) :
    t.lastPacket = some (packetsOf s.2 (command.take headerLength)).length := by
  rw [(hp.rooted hp.tree).lastPacket, hp.packets, List.length_append]
  rfl

/-- A response time goes to the packet of the exchange. -/
theorem handleResponseTime_ok (hp : Pending headerLength s s' command packet t) {time : JavaString} {n : ℤ}
    (htime : intOfDigits (time.filter Char.isDigit) = some n) :
    ∃ t' s'', handleResponseTime time s' = .ok () s'' ∧
      Pending headerLength s s'' command { packet with responseTime := n, ac := s'.2.ac } t' ∧
      s''.1 = s'.1 ∧ s''.2.ac = (s'.2.ac + 1).bmod (2 ^ 32) ∧
      t'.root = t.root ∧ t'.receivedRoot = t.receivedRoot := by
  have hparse : parseInt (time.filter Char.isDigit) s' = .ok n s' := by
    rw [parseInt, htime]
    rfl
  have hset : setAdditionalInfoForLastPacket t n s'.2.ac = { t with
      streamPackets := packetsOf s.2 (command.take headerLength) ++
        [{ packet with responseTime := n, ac := s'.2.ac }] } := by
    rw [setAdditionalInfoForLastPacket, hp.lastPacket, hp.packets]
    simp only [modify_concat]
  refine ⟨setAdditionalInfoForLastPacket t n s'.2.ac, _, (bind_ok (lastTree_ok hp)).trans
    ((bind_ok hparse).trans rfl), hp.put hp.wellFormed (fun _ hi => hi) ?_ ?_ ?_ ?_ rfl rfl,
    rfl, rfl, ?_, ?_⟩ <;>
  rw [hset]

/-- A response goes to the packet of the exchange. -/
theorem handleReceivedData_ok (hp : Pending headerLength s s' command packet t) (hd : data ≠ []) :
    ∃ node t' s'', handleReceivedData data s' = .ok () s'' ∧
      Pending headerLength s s'' command { packet with receivedLeafNode := some node } t' ∧
      s''.2.ac = s'.2.ac ∧ mergeNode t.receivedRoot data s'.1 = .ok node s''.1 ∧
      t'.root = t.root ∧ t'.receivedRoot = t.receivedRoot := by
  obtain ⟨node, h', hrun, hm⟩ := exists_mergeNode hp.wellFormed (hp.rooted hp.tree).receivedRoot hd
  let t' : Tree := { t with
    streamPackets := packetsOf s.2 (command.take headerLength) ++
      [{ packet with receivedLeafNode := some node }] }
  have hadd : addReceivedData t data s'.1 = .ok t' h' := by
    refine (bind_ok hrun).trans ?_
    simp only [hp.lastPacket, hp.packets, modify_concat]
    rw [← hp.lastPacket]
    rfl
  refine ⟨node, t', _, (bind_ok (lastTree_ok hp)).trans (bind_ok (lift_ok hadd s'.2)),
    hp.put hm.wellFormed (fun _ => parentless_merged hm) rfl rfl rfl rfl rfl rfl, rfl, hrun, rfl, rfl⟩

/-- A node without data cannot become a child. -/
theorem addChild_error (this : NodeId) {node : NodeId} {x : Node} (hx : h[node]? = some x)
    (hd : x.data = []) :
    addChild this node h =
      .error .arrayIndexOutOfBounds (h.modify node fun x => { x with parent := some this }) := by
  have hlinked : (h.modify node fun x => { x with parent := some this })[node]? =
      some { x with parent := some this } := by simp [hx]
  refine (bind_ok (update_ok hx _)).trans ((bind_ok (getData_ok hlinked)).trans ?_)
  simp only [hd]
  rfl

/-- New nodes leave the old ones alone. -/
theorem steady_append (h more : Heap) : Steady h (h ++ more) :=
  fun _ x hx => ⟨x, (List.getElem?_append_left (lt_length hx)).trans hx, rfl, rfl⟩

/-- Counting a node keeps the heap steady. -/
theorem steady_counted (h : Heap) (n : NodeId) : Steady h (counted h n) := by
  intro i x hx
  refine ⟨if n = i then { x with count := x.count + 1 } else x, ?_, ?_, ?_⟩
  · rw [getElem?_counted, hx, Option.map_some]
  all_goals split_ifs <;> rfl

/-- Empty data are not stored. -/
theorem storeData_nil {existing : Option Tree} (header : List UInt8)
    (hold : ∀ t ∈ existing, Parentless h t.root) :
    ∃ h', storeData existing header [] h = .error .arrayIndexOutOfBounds h' ∧ Steady h h' := by
  cases existing with
  | none =>
    have hnode : (h ++ [(⟨header, ∅, none, 1⟩ : Node)] ++ [(⟨[], ∅, none, 1⟩ : Node)])[
        (h ++ [(⟨header, ∅, none, 1⟩ : Node)]).length]? = some ⟨[], ∅, none, 1⟩ := List.getElem?_concat_length
    have herr := addChild_error h.length hnode rfl
    refine ⟨_, (bind_ok (newNode_ok header h)).trans
      ((bind_ok (newNode_ok [] _)).trans (bind_error herr)), ?_⟩
    intro i x hx
    have hlt := lt_length hx
    have hold' : (h ++ [(⟨header, ∅, none, 1⟩ : Node)] ++ [(⟨[], ∅, none, 1⟩ : Node)])[i]? = some x := by
      rw [List.append_assoc, List.getElem?_append_left hlt, hx]
    refine ⟨x, (List.getElem?_modify_ne _ _ ?_).trans hold', rfl, rfl⟩
    rw [List.length_append]
    exact (hlt.trans (Nat.lt_succ_self _)).ne'
  | some t =>
    obtain ⟨x, hx, -⟩ := hold t rfl
    have herr : mergeNode t.root [] h = .error .arrayIndexOutOfBounds (counted h t.root) :=
      bind_ok (incrementCount_ok hx)
    exact ⟨_, bind_error herr, steady_counted _ _⟩

/-- A command that is nothing but its header ends the parse. -/
theorem handleTransmittedData_error
    (hold : ∀ t ∈ s.2.packets.lookup (headerText headerLength command), Parentless s.1 t.root)
    (hlen : command.length = headerLength) :
    ∃ err h', handleTransmittedData headerLength command s = .error err (h', s.2) ∧ Steady s.1 h' := by
  have hnil : command.drop headerLength = [] := by rw [← hlen, List.drop_length]
  obtain ⟨h', hrun, hsteady⟩ := storeData_nil (command.take headerLength) hold
  refine ⟨.arrayIndexOutOfBounds, h', ?_, hsteady⟩
  rw [handleTransmittedData_eq hlen.ge, hnil]
  cases hold : s.2.packets.lookup (headerText headerLength command) with
  | none =>
    rw [hold] at hrun
    exact bind_error (lift_error hrun s.2)
  | some t0 =>
    rw [hold] at hrun
    exact bind_error (lift_error hrun s.2)

/-- A response time that is no `int` ends the parse. -/
theorem handleResponseTime_error {time : JavaString} (hp : Pending headerLength s s' command packet t)
    (htime : intOfDigits (time.filter Char.isDigit) = none) :
    ∃ err, handleResponseTime time s' = .error err s' := by
  have hparse : parseInt (time.filter Char.isDigit) s' = .error .illegalArgument s' := by
    rw [parseInt, htime]
    rfl
  exact ⟨_, (bind_ok (lastTree_ok hp)).trans (bind_error hparse)⟩

end ApduPlay.ParserSteps
