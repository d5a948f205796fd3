import ApduPlay.PacketMerge

/-!
# Histories of a tree

A tree lives through its constructor and any order of merges and received
data. No history with non-empty streams raises an exception, and in every
state the two halves represent the streams merged into them.
-/

namespace ApduPlay.TreeRuns

open LabelForest WordCuts PacketNode PacketTree PacketMerge

/-- The calls that add data to a tree after its construction. -/
inductive TreeCall
  | merge (stream : List UInt8)
  | addReceivedData (data : List UInt8)
  deriving DecidableEq, Repr

/-- The data of a call. -/
def TreeCall.data : TreeCall → List UInt8
  | merge stream => stream
  | addReceivedData data => data

/-- Run one call. -/
def TreeCall.run (t : Tree) : TreeCall → JavaM Tree
  | merge stream => PacketTree.merge t stream
  | addReceivedData data => PacketTree.addReceivedData t data

/-- Construct a tree and run calls on it. -/
def treeRun (header first : List UInt8) (calls : List TreeCall) : JavaM Tree :=
  newTree header first >>= fun t => calls.foldlM TreeCall.run t

/-- The streams merged below the root by one call. -/
def TreeCall.transmitted : TreeCall → List (List UInt8)
  | merge stream => [stream]
  | addReceivedData _ => []

/-- The streams merged below the received root by one call. -/
def TreeCall.received : TreeCall → List (List UInt8)
  | merge _ => []
  | addReceivedData data => [data]

/-- They are its data. -/
theorem TreeCall.eq_data_of_transmitted {c : TreeCall} {s : List UInt8} (hs : s ∈ c.transmitted) :
    s = c.data := by
  cases c with
  | merge stream => exact List.mem_singleton.mp hs
  | addReceivedData data => cases hs

theorem TreeCall.eq_data_of_received {c : TreeCall} {s : List UInt8} (hs : s ∈ c.received) : s = c.data := by
  cases c with
  | merge stream => cases hs
  | addReceivedData data => exact List.mem_singleton.mp hs

variable {h h' : Heap} {r n root : NodeId} {x : Node} {w s header first data : List UInt8}
  {calls : List TreeCall} {t t' : Tree} {sent received : List (List UInt8)}

theorem treeRun_append (header first : List UInt8) (calls : List TreeCall) (c : TreeCall) :
    treeRun header first (calls ++ [c]) = treeRun header first calls >>= fun t => c.run t := by
  simp [treeRun, List.foldlM_append]

/-- A root with the header as its data, below which the words were merged. -/
structure HoldsStreams (h : Heap) (root : NodeId) (header : List UInt8)
    (streams : List (List UInt8)) : Prop where
  /-- The root carries the header. -/
  header : ∃ x, h[root]? = some x ∧ x.parent = none ∧ x.data = header
  /-- The tree represents the streams. -/
  represents : Represents (forest h) root streams

theorem HoldsStreams.merged (hh : HoldsStreams h root header sent) {leaf : NodeId}
    (hm : Merged h root s leaf h') : HoldsStreams h' root header (sent ++ [s]) := by
  obtain ⟨x, hx, hp, hd⟩ := hh.header
  obtain ⟨y, hy, hyp, hyd, _⟩ := hm.root hx
  exact ⟨⟨y, hy, hyp.trans hp, hyd.trans hd⟩, hm.inserted.represents hh.represents⟩

theorem HoldsStreams.spells_root (hh : HoldsStreams h root header sent) :
    Spells (forest h) root root [] := by
  obtain ⟨x, hx, hp, _⟩ := hh.header
  exact .root (by rw [forest_parent hx, hp])

/-- A root does not lie below another one. -/
theorem HoldsStreams.root_not_below (hh : HoldsStreams h root header sent) (hne : root ≠ r)
    (w : List UInt8) : ¬ Spells (forest h) r root w :=
  fun hs => hne (hh.spells_root.root_unique hs)

theorem HoldsStreams.merged_other (hh : HoldsStreams h root header sent) {leaf : NodeId}
    (hne : root ≠ r) (hm : Merged h r s leaf h') : HoldsStreams h' root header sent := by
  obtain ⟨x, hx, hp, hd⟩ := hh.header
  have hsame := hm.frame root (lt_length hx) (hh.root_not_below hne)
  exact ⟨⟨x, hsame.trans hx, hp, hd⟩, hm.inserted.represents_other (lt_length hx) hne hh.represents⟩

theorem HoldsStreams.lt_length (hh : HoldsStreams h root header sent) : root < h.length := by
  obtain ⟨x, hx, _⟩ := hh.header
  exact PacketNode.lt_length hx

/-- Merging never raises an exception below a root. -/
theorem HoldsStreams.exists_merge (hh : HoldsStreams h root header sent) (hw : WellFormed h)
    (hs : s ≠ []) : ∃ leaf h', mergeNode root s h = .ok leaf h' ∧ Merged h root s leaf h' := by
  obtain ⟨x, hx, hp, _⟩ := hh.header
  exact mergeNode_spec hw hx hp hs

/-- A fresh root changes nothing below the others. -/
theorem spells_newNode (data : List UInt8) :
    Spells (forest (h ++ [⟨data, ∅, none, 1⟩])) r n w ↔ Spells (forest h) r n w := by
  have hold {i : NodeId} (hi : i < h.length) : (h ++ [(⟨data, ∅, none, 1⟩ : Node)])[i]? = h[i]? :=
    List.getElem?_append_left hi
  have hpar (i : NodeId) : (forest (h ++ [⟨data, ∅, none, 1⟩])).parent i = (forest h).parent i := by
    rcases Nat.lt_or_ge i h.length with hi | hi
    · simp only [forest, hold hi]
    · simp only [forest, List.getElem?_append_right hi, List.getElem?_eq_none hi]
      cases i - h.length <;> rfl
  have hlab {i q : NodeId} (hi : (forest h).parent i = some q) :
      (forest (h ++ [⟨data, ∅, none, 1⟩])).label i = (forest h).label i := by
    obtain ⟨x, hx, _⟩ := exists_of_parent hi
    simp only [forest, hold (lt_length hx)]
  constructor
  · intro hs
    induction hs with
    | root h0 => exact .root (hpar r ▸ h0)
    | child _ hp ih =>
      rw [hpar] at hp
      rw [hlab hp]
      exact .child ih hp
  · intro hs
    induction hs with
    | root h0 => exact .root ((hpar r).trans h0)
    | child _ hp ih =>
      rw [← hlab hp]
      exact .child ih ((hpar _).trans hp)

theorem represents_newNode (data : List UInt8)
    (hp : Represents (forest h) r sent) : Represents (forest (h ++ [⟨data, ∅, none, 1⟩])) r sent := by
  have hcuts : cuts (forest (h ++ [⟨data, ∅, none, 1⟩])) r = cuts (forest h) r := by
    simp only [cuts, spells_newNode]
  exact ⟨hcuts.trans hp.cuts_eq, by rw [← hp.paths_eq]; simp only [paths, hcuts]⟩

/-- The new node represents the empty list. -/
theorem represents_newRoot (hw : WellFormed h) (data : List UInt8) :
    Represents (forest (h ++ [⟨data, ∅, none, 1⟩])) h.length [] := by
  refine represents_root (by simp [forest]) fun i hi => ?_
  obtain ⟨x, hx, hxp⟩ := exists_of_parent hi
  obtain ⟨y, b, hy, _, hl⟩ := (hw.newNode data).parents hx hxp
  simp only [List.getElem?_concat_length, Option.some.injEq] at hy
  subst hy
  cases hl

/-- What every history keeps true of the heap and the tree. -/
structure Grown (h : Heap) (t : Tree) (header : List UInt8) (sent received : List (List UInt8)) :
    Prop where
  /-- The heap is well formed. -/
  wellFormed : WellFormed h
  /-- The two roots are different nodes. -/
  roots_ne : t.root ≠ t.receivedRoot
  /-- The transmitted half. -/
  holdsSent : HoldsStreams h t.root header sent
  /-- The received half. -/
  holdsReceived : HoldsStreams h t.receivedRoot header received
  /-- The tree counts the transmitted streams. -/
  packetsCount : t.packetsCount = sent.length
  /-- The root counts them as well. -/
  rootCount : ∃ x, h[t.root]? = some x ∧ x.count = sent.length

/-- The heap after a tree was constructed from data that begin with `b`. -/
def planted (h : Heap) (header data : List UInt8) (b : UInt8) : Heap :=
  let root : Node := ⟨header, ∅, none, 1⟩
  (addLeaf (h ++ [root]) h.length data b ++ [root]).modify (h.length + 2) fun x => { x with count := 0 }

/-- A root just created below which a leaf was hung. -/
theorem getElem?_addLeaf_root (h : Heap) (header data : List UInt8) (b : UInt8) :
    (addLeaf (h ++ [⟨header, ∅, none, 1⟩]) h.length data b)[h.length]? =
      some ⟨header, (∅ : AList fun _ : UInt8 => NodeId).insert b (h.length + 1), none, 1⟩ := by
  have hlt : h.length < (h ++ [(⟨header, ∅, none, 1⟩ : Node)]).length := by
    rw [List.length_append]
    exact Nat.lt_succ_self _
  rw [getElem?_addLeaf_old h.length hlt, List.getElem?_concat_length, Option.map_some, if_pos rfl,
    List.length_append]
  rfl

/-- The constructor leaves the nodes that exist alone. -/
theorem getElem?_planted_old {i : NodeId} (hi : i < h.length) (header data : List UInt8) (b : UInt8) :
    (planted h header data b)[i]? = h[i]? := by
  have hlt : i < (h ++ [(⟨header, ∅, none, 1⟩ : Node)]).length := by
    rw [List.length_append]
    exact hi.trans (Nat.lt_succ_self _)
  have hlt' : i < (addLeaf (h ++ [⟨header, ∅, none, 1⟩]) h.length data b).length := by
    rw [length_addLeaf]
    exact hlt.trans (Nat.lt_succ_self _)
  rw [planted, List.getElem?_modify_ne _ _ (hi.trans_le (Nat.le_add_right _ 2)).ne',
    List.getElem?_append_left hlt', getElem?_addLeaf_old i hlt, List.getElem?_append_left hi]
  cases h[i]? <;> simp [hi.ne]

/-- The constructor runs through if there are data. -/
theorem newTree_ok (h : Heap) (header : List UInt8) (b : UInt8) (rest : List UInt8) :
    newTree header (b :: rest) h =
      .ok ⟨1, some 0, h.length + 2, h.length, printHexBinary header, [newPacket (h.length + 1)]⟩
        (planted h header (b :: rest) b) := by
  let h1 : Heap := h ++ [⟨header, ∅, none, 1⟩]
  have hlen1 : h1.length = h.length + 1 := by simp [h1]
  have hlt1 : h.length < h1.length := by omega
  have hroot : h1[h.length]? = some ⟨header, ∅, none, 1⟩ := by simp [h1]
  let h2 := addLeaf h1 h.length (b :: rest) b
  have hlen2 : h2.length = h.length + 2 := by rw [length_addLeaf, hlen1]
  have hroot2 : h2[h.length]? = some _ := getElem?_addLeaf_root h header (b :: rest) b
  have hreceived : (h2 ++ [(⟨header, ∅, none, 1⟩ : Node)])[h2.length]? = some ⟨header, ∅, none, 1⟩ := by simp
  have hroot3 : (planted h header (b :: rest) b)[h.length]? = h2[h.length]? := by
    have hne : h.length + 2 ≠ h.length := (Nat.lt_add_of_pos_right (by decide)).ne'
    rw [planted, List.getElem?_modify_ne _ _ hne]
    exact List.getElem?_append_left (lt_length hroot2)
  refine (bind_ok (newNode_ok header h)).trans ?_
  refine (bind_ok (newNode_ok (b :: rest) h1)).trans ?_
  refine (bind_ok (addLeaf_ok hroot rfl)).trans ?_
  refine (bind_ok (newNode_ok header h2)).trans ?_
  refine (bind_ok (update_ok hreceived _)).trans ?_
  rw [hlen2]
  exact bind_ok (load_ok (hroot3.trans hroot2))

/-- The constructor leaves one packet, whose leaf is the only child of the root. -/
theorem grown_newTree (hw : WellFormed h) (header : List UInt8) (hs : first ≠ []) :
    ∃ leaf t h', newTree header first h = .ok t h' ∧ Grown h' t header [first] [] ∧
      t.lastPacket = some 0 ∧ t.streamPackets = [newPacket leaf] ∧
      h'[leaf]? = some ⟨first, ∅, some t.root, 1⟩ := by
  obtain ⟨b, rest, rfl⟩ := List.exists_cons_of_ne_nil hs
  let h1 : Heap := h ++ [⟨header, ∅, none, 1⟩]
  have hw1 : WellFormed h1 := hw.newNode header
  have hroot : h1[h.length]? = some ⟨header, ∅, none, 1⟩ := by simp [h1]
  have hlen1 : h1.length = h.length + 1 := by simp [h1]
  have hlt1 : h.length < h1.length := by omega
  let h2 := addLeaf h1 h.length (b :: rest) b
  have hw2 : WellFormed h2 := hw1.addLeaf hroot rfl rfl
  have hlen2 : h2.length = h.length + 2 := by rw [length_addLeaf, hlen1]
  have hroot2 : h2[h.length]? = some _ := getElem?_addLeaf_root h header (b :: rest) b
  have hleaf2 : h2[h.length + 1]? = some ⟨b :: rest, ∅, some h.length, 1⟩ := by
    rw [← hlen1]
    exact getElem?_addLeaf_new hlt1 (b :: rest)
  have hins : Inserted (forest h1) (· < h1.length) h.length (b :: rest) h1.length (forest h2) := by
    have hm := mergedBelow_newChild rest [] (b := b) hw1 hroot
      (.root (by rw [forest_parent hroot])) hlt1 rfl 0
    exact hm.inserted
  let h3 : Heap := h2 ++ [⟨header, ∅, none, 1⟩]
  let h4 := planted h header (b :: rest) b
  have hkeep {i : NodeId} {x : Node} (hi : h2[i]? = some x) : h4[i]? = some x := by
    have hlt := lt_length hi
    have hne : h.length + 2 ≠ i := hlen2 ▸ hlt.ne'
    exact (List.getElem?_modify_ne _ _ hne).trans ((List.getElem?_append_left hlt).trans hi)
  have hreceived4 : h4[h.length + 2]? = some ⟨header, ∅, none, 0⟩ := by
    have hreceived : h3[h.length + 2]? = some ⟨header, ∅, none, 1⟩ := by simp [h3, hlen2]
    exact (List.getElem?_modify_eq _ _ _).trans (by rw [hreceived]; rfl)
  have hforest : forest h4 = forest h3 := forest_modify _ _ _ (fun _ => rfl) (fun _ => rfl)
  refine ⟨h.length + 1, _, h4, newTree_ok h header b rest, ⟨(hw2.newNode header).modify_count _ _, ?_,
    ⟨⟨_, hkeep hroot2, rfl, rfl⟩, ?_⟩, ⟨⟨_, hreceived4, rfl, rfl⟩, ?_⟩, rfl, ⟨_, hkeep hroot2, rfl⟩⟩,
    rfl, rfl, hkeep hleaf2⟩
  · exact (Nat.lt_add_of_pos_right (by decide : 0 < 2)).ne
  · rw [hforest]
    exact represents_newNode header (hins.represents (represents_newRoot hw header))
  · rw [hforest]
    have hnew := represents_newRoot hw2 header
    rwa [hlen2] at hnew

/-- One more transmitted stream. -/
theorem Grown.merge (hg : Grown h t header sent received) (hs : s ≠ []) :
    ∃ leaf t' h', PacketTree.merge t s h = .ok t' h' ∧ mergeNode t.root s h = .ok leaf h' ∧
      Merged h t.root s leaf h' ∧ Grown h' t' header (sent ++ [s]) received ∧
      t'.root = t.root ∧ t'.receivedRoot = t.receivedRoot ∧
      t'.lastPacket = some t.streamPackets.length ∧
      t'.streamPackets = t.streamPackets ++ [newPacket leaf] := by
  obtain ⟨leaf, h', hrun, hm⟩ := hg.holdsSent.exists_merge hg.wellFormed hs
  obtain ⟨x, hx, hcount⟩ := hg.rootCount
  obtain ⟨y, hy, _, _, hycount⟩ := hm.root hx
  refine ⟨leaf, _, h', bind_ok hrun, hrun, hm, ?_, rfl, rfl, rfl, rfl⟩
  refine ⟨hm.wellFormed, hg.roots_ne, hg.holdsSent.merged hm, hg.holdsReceived.merged_other
    hg.roots_ne.symm hm,
    ?_, ⟨y, hy, ?_⟩⟩
  · simp [hg.packetsCount]
  · simp [hycount, hcount]

/-- One more response. -/
theorem Grown.addReceivedData (hg : Grown h t header sent received) (hs : s ≠ []) :
    ∃ leaf t' h', PacketTree.addReceivedData t s h = .ok t' h' ∧
      mergeNode t.receivedRoot s h = .ok leaf h' ∧ Merged h t.receivedRoot s leaf h' ∧
      Grown h' t' header sent (received ++ [s]) ∧
      t'.root = t.root ∧ t'.receivedRoot = t.receivedRoot ∧ t'.lastPacket = t.lastPacket ∧
      ∀ i, t.lastPacket = some i → t'.streamPackets =
        t.streamPackets.modify i fun p => { p with receivedLeafNode := some leaf } := by
  obtain ⟨leaf, h', hrun, hm⟩ := hg.holdsReceived.exists_merge hg.wellFormed hs
  obtain ⟨x, hx, hcount⟩ := hg.rootCount
  have hother := hg.holdsSent.root_not_below hg.roots_ne
  have hx' : h'[t.root]? = some x := (hm.frame t.root (lt_length hx) hother).trans hx
  have hgrown : ∀ t' : Tree, t'.root = t.root → t'.receivedRoot = t.receivedRoot →
      t'.packetsCount = t.packetsCount → Grown h' t' header sent (received ++ [s]) := by
    intro t' h1 h2 h3
    refine ⟨hm.wellFormed, h1 ▸ h2 ▸ hg.roots_ne, h1 ▸ hg.holdsSent.merged_other hg.roots_ne hm,
      h2 ▸ hg.holdsReceived.merged hm, h3.trans hg.packetsCount, ⟨x, h1 ▸ hx', hcount⟩⟩
  cases hl : t.lastPacket with
  | none =>
    refine ⟨leaf, t, h', ?_, hrun, hm, hgrown t rfl rfl rfl, rfl, rfl, hl, by simp⟩
    refine (bind_ok hrun).trans ?_
    rw [hl]
    rfl
  | some i =>
    refine ⟨leaf, _, h', ?_, hrun, hm, hgrown { t with streamPackets := (t.streamPackets.modify i fun p =>
        { p with receivedLeafNode := some leaf }) } rfl rfl rfl, rfl, rfl, hl, ?_⟩
    · refine (bind_ok hrun).trans ?_
      rw [hl]
      rfl
    · rintro j hj
      cases hj
      rfl

/-- One more call. -/
theorem Grown.run (hg : Grown h t header sent received) {c : TreeCall} (hc : c.data ≠ []) :
    ∃ t' h', c.run t h = .ok t' h' ∧
      Grown h' t' header (sent ++ c.transmitted) (received ++ c.received) := by
  cases c with
  | merge s =>
    obtain ⟨_, t', h', hrun, _, _, hg', _⟩ := hg.merge hc
    exact ⟨t', h', hrun, by simpa only [TreeCall.transmitted, TreeCall.received, TreeCall.data,
      List.append_nil] using hg'⟩
  | addReceivedData s =>
    obtain ⟨_, t', h', hrun, _, _, hg', _⟩ := hg.addReceivedData hc
    exact ⟨t', h', hrun, by simpa only [TreeCall.transmitted, TreeCall.received, TreeCall.data,
      List.append_nil] using hg'⟩

/-- No history with non-empty streams raises an exception. -/
theorem grown_treeRun (hw : WellFormed h) (hfirst : first ≠ []) (hcalls : ∀ c ∈ calls, c.data ≠ []) :
    ∃ t h', treeRun header first calls h = .ok t h' ∧
      Grown h' t header (first :: calls.flatMap TreeCall.transmitted)
        (calls.flatMap TreeCall.received) := by
  induction calls using List.reverseRecOn with
  | nil =>
    obtain ⟨_, t, h', hrun, hg, _⟩ := grown_newTree hw header hfirst
    exact ⟨t, h', bind_ok hrun, hg⟩
  | append_singleton calls c ih =>
    obtain ⟨t, h1, hrun, hg⟩ := ih fun c' hc' => hcalls c' (List.mem_append_left _ hc')
    obtain ⟨t', h2, hstep, hg'⟩ := hg.run (hcalls c (by simp))
    refine ⟨t', h2, ?_, ?_⟩
    · rw [treeRun_append]
      exact (bind_ok hrun).trans hstep
    · simpa only [List.flatMap_append, List.flatMap_singleton, List.cons_append] using hg'

end ApduPlay.TreeRuns
