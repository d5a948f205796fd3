import ApduPlay.TreeRuns

/-!
# The calls of divide

Merging is written once more for any monad and any `divide` in it. With the
method itself it is the merging of the tree; with a `divide` that notes its
calls it makes the calls visible. They are all made with an index strictly
inside the node, and none changes what an existing node spells.
-/

namespace ApduPlay.DivideCalls

open LabelForest PacketNode PacketTree TreeRuns

section Generic

variable {m : Type → Type} [Monad m] [MonadLiftT JavaM m] (divide : NodeId → ℕ → m PUnit)

/-- `matchByte` with this `divide`. -/
def matchByteWith (b : UInt8) (rest : List UInt8) (s : MergeState)
    (next : MergeState → m MergeState) : m MergeState :=
  match s.data[s.currentIndex]? with
  | none => (throw .arrayIndexOutOfBounds : JavaM MergeState)
  | some d =>
    if d ≠ b then do
      divide s.currentNode s.currentIndex
      let lastNode ← newNode (b :: rest)
      addChild (← getParent s.currentNode) lastNode
      return { s with lastNode := some lastNode }
    else next { s with currentIndex := s.currentIndex + 1 }

/-- `mergeLoop` with this `divide`. -/
def mergeLoopWith : List UInt8 → MergeState → m MergeState
  | [], s => pure s
  | b :: rest, s => do
    if s.data.length ≤ s.currentIndex then
      match ← findChildNode s.currentNode b with
      | none =>
        let lastNode ← newNode (b :: rest)
        addChild s.currentNode lastNode
        return { s with lastNode := some lastNode }
      | some child =>
        incrementCount s.currentNode
        matchByteWith divide b rest ⟨0, some child, child, ← getData child⟩ (mergeLoopWith rest)
    else matchByteWith divide b rest s (mergeLoopWith rest)

/-- `mergeNode` with this `divide`. -/
def mergeNodeWith (node : NodeId) (stream : List UInt8) : m NodeId := do
  incrementCount node
  match stream with
  | [] => (throw .arrayIndexOutOfBounds : JavaM NodeId)
  | b :: _ =>
    match ← findChildNode node b with
    | none =>
      let currentNode ← newNode stream
      addChild node currentNode
      return currentNode
    | some currentNode =>
      let s ← mergeLoopWith divide stream ⟨0, none, currentNode, ← getData currentNode⟩
      incrementCount s.currentNode
      return s.lastNode.getD s.currentNode

/-- `merge` with this `divide`. -/
def mergeWith (t : Tree) (stream : List UInt8) : m Tree := do
  let node ← mergeNodeWith divide t.root stream
  return { t with
    lastPacket := some t.streamPackets.length
    streamPackets := t.streamPackets ++ [newPacket node]
    packetsCount := t.packetsCount + 1 }

/-- `addReceivedData` with this `divide`. -/
def addReceivedDataWith (t : Tree) (data : List UInt8) : m Tree := do
  let node ← mergeNodeWith divide t.receivedRoot data
  match t.lastPacket with
  | none => return t
  | some i =>
    return { t with streamPackets := t.streamPackets.modify i fun p =>
      { p with receivedLeafNode := some node } }

/-- One call with this `divide`. -/
def runWith (t : Tree) : TreeCall → m Tree
  | .merge stream => mergeWith divide t stream
  | .addReceivedData data => addReceivedDataWith divide t data

/-- A history with this `divide`. -/
def treeRunWith (header first : List UInt8) (calls : List TreeCall) : m Tree := do
  let t ← newTree header first
  calls.foldlM (runWith divide) t

end Generic

/-- With the method itself the loop is that of the source. -/
theorem mergeLoopWith_divide (stream : List UInt8) (s : MergeState) :
    mergeLoopWith divide stream s = mergeLoop stream s := by
  induction stream generalizing s with
  | nil => rfl
  | cons b rest ih =>
    have hnext : mergeLoopWith divide rest = mergeLoop rest := funext ih
    rw [mergeLoopWith, mergeLoop, hnext]
    rfl

theorem mergeNodeWith_divide (node : NodeId) (stream : List UInt8) :
    mergeNodeWith divide node stream = mergeNode node stream := by
  unfold mergeNodeWith mergeNode
  simp only [mergeLoopWith_divide]
  rfl

theorem runWith_divide (t : Tree) (c : TreeCall) : runWith divide t c = c.run t := by
  cases c with
  | merge stream =>
    simp only [runWith, mergeWith, mergeNodeWith_divide]
    rfl
  | addReceivedData data =>
    simp only [runWith, addReceivedDataWith, mergeNodeWith_divide]
    rfl

/-- With the method itself a history is that of the tree. -/
theorem treeRunWith_divide (header first : List UInt8) (calls : List TreeCall) :
    treeRunWith divide header first calls = treeRun header first calls := by
  have hrun : runWith divide = TreeCall.run := funext fun t => funext (runWith_divide t)
  rw [treeRunWith, hrun]
  rfl

/-- One call of `divide`: the heap it is made on, the node and the index. -/
structure DivideCall where
  /-- Heap before the call. -/
  heap : Heap
  /-- Node that is divided. -/
  node : NodeId
  /-- Place of the cut. -/
  index : ℕ

/-- Computations over the node heap that also note the calls of `divide`. -/
abbrev NotingM := JavaWith (List DivideCall)

/-- `divide`, with the call noted before it is made. -/
def notedDivide (this : NodeId) (index : ℕ) : NotingM PUnit := do
  modify fun s => (s.1, s.2 ++ [⟨s.1, this, index⟩])
  divide this index

/-- The index lies strictly between the start and the end of the data. -/
def DivideCall.Inside (c : DivideCall) : Prop :=
  ∃ x, c.heap[c.node]? = some x ∧ 0 < c.index ∧ c.index < x.data.length

/-- The call ends normally, and every node that existed spells what it spelled
before, below the same root. -/
def DivideCall.KeepsWords (c : DivideCall) : Prop :=
  ∃ h, divide c.node c.index c.heap = .ok () h ∧ ∀ root n word, root < c.heap.length →
    n < c.heap.length → (Spells (forest h) root n word ↔ Spells (forest c.heap) root n word)

/-- A call as the claims about merging want it. -/
def DivideCall.Sound (c : DivideCall) : Prop := c.Inside ∧ c.KeepsWords

/-- The second computation ends as the first one does, and the calls that it
notes on the way are sound. -/
structure SoundRun {α : Type} (e : JavaM α) (e' : NotingM α) (h : Heap) (a : α) (h' : Heap) : Prop where
  /-- The first computation. -/
  run : e h = .ok a h'
  /-- The second one, with its calls behind those noted before. -/
  noted : ∃ noted, (∀ c ∈ noted, DivideCall.Sound c) ∧ ∀ log, e' (h, log) = .ok a (h', log ++ noted)

variable {α β : Type} {h h' h1 h2 : Heap} {n p : NodeId} {x y : Node} {b d : UInt8} {rest : List UInt8}
  {s st : MergeState}

theorem soundRun_pure (a : α) (h : Heap) : SoundRun (pure a) (pure a) h a h where
  run := rfl
  noted := ⟨[], List.forall_mem_nil _, fun log => by rw [List.append_nil]; rfl⟩

/-- What does not divide notes nothing. -/
theorem soundRun_lift {e : JavaM α} {a : α} (he : e h = .ok a h') : SoundRun e (liftM e) h a h' where
  run := he
  noted := ⟨[], List.forall_mem_nil _, fun log => by rw [List.append_nil]; exact lift_ok he log⟩

/-- One computation after the other. -/
theorem SoundRun.bind {e : JavaM α} {e' : NotingM α} {a : α} {f : α → JavaM β} {f' : α → NotingM β} {r : β}
    (he : SoundRun e e' h a h1) (hf : SoundRun (f a) (f' a) h1 r h2) :
    SoundRun (e >>= f) (e' >>= f') h r h2 where
  run := (bind_ok he.run).trans hf.run
  noted := by
    obtain ⟨first, hfirst, hnoted⟩ := he.noted
    obtain ⟨second, hsecond, hnoted'⟩ := hf.noted
    refine ⟨first ++ second, fun c hc => ?_, fun log => ?_⟩
    · exact (List.mem_append.mp hc).elim (hfirst c) (hsecond c)
    · rw [← List.append_assoc]
      exact (bind_ok (hnoted log)).trans (hnoted' _)

/-- A call inside a well-formed heap is sound. -/
theorem sound_of_inside (hw : WellFormed h) (hx : h[n]? = some x) (hp : x.parent = some p) {k : ℕ}
    (hk : 0 < k) (hlt : k < x.data.length) : DivideCall.Sound ⟨h, n, k⟩ := by
  obtain ⟨y, b, hy, hb, -⟩ := hw.parents hx hp
  obtain ⟨c, hc⟩ : ∃ c, x.data[k]? = some c := ⟨_, List.getElem?_eq_getElem hlt⟩
  refine ⟨⟨x, hx, hk, hlt⟩, _, divide_ok hx hp hy hb hk hc, fun root i word hroot hi => ?_⟩
  rw [forest_splitNode hx (lt_length hy)]
  exact spells_subdivide_old hw.fresh (by rw [forest_parent hx, hp]) hroot.ne hi.ne

/-- Such a call is noted as it is made. -/
theorem soundRun_divide {k : ℕ} (hs : DivideCall.Sound ⟨h, n, k⟩) (he : divide n k h = .ok () h') :
    SoundRun (divide n k) (notedDivide n k) h () h' where
  run := he
  noted := ⟨[⟨h, n, k⟩], List.forall_mem_singleton.mpr hs, fun _ => lift_ok he _⟩

/-- A byte that is the next one of the node is passed. -/
theorem soundRun_matchByte {next : MergeState → JavaM MergeState} {next' : MergeState → NotingM MergeState}
    (hbyte : s.data[s.currentIndex]? = some b)
    (hnext : SoundRun (next { s with currentIndex := s.currentIndex + 1 })
      (next' { s with currentIndex := s.currentIndex + 1 }) h st h') :
    SoundRun (matchByte b rest s next) (matchByteWith notedDivide b rest s next') h st h' := by
  simp only [matchByte, matchByteWith, hbyte, ne_eq, not_true_eq_false, if_false]
  exact hnext

/-- Another byte behind the first one of the node divides it there. -/
theorem soundRun_split (rest : List UInt8) (next : MergeState → JavaM MergeState)
    (next' : MergeState → NotingM MergeState) (hw : WellFormed h) (hx : h[s.currentNode]? = some x)
    (hp : x.parent = some p) (hpos : 0 < s.currentIndex) (hd : s.data = x.data)
    (hbyte : s.data[s.currentIndex]? = some d) (hne : d ≠ b) :
    ∃ st h', SoundRun (matchByte b rest s next) (matchByteWith notedDivide b rest s next') h st h' ∧
      st.currentNode < h'.length := by
  obtain ⟨y, c, hy, hc, -⟩ := hw.parents hx hp
  rw [hd] at hbyte
  have hsound := sound_of_inside hw hx hp hpos (List.getElem?_eq_some_iff.mp hbyte).1
  have hdivide := divide_ok hx hp hy hc hpos hbyte
  let split := splitNode h s.currentNode p x.data s.currentIndex c d
  have hcur : split[s.currentNode]? = _ := getElem?_splitNode_old x.data _ (lt_length hx)
  rw [hx, Option.map_some] at hcur
  have hmiddle : split[h.length]? = _ := getElem?_splitNode_new x.data (lt_length hx) (lt_length hy)
  have hnew := newNode_ok (b :: rest) split
  have hlink : (split ++ [⟨b :: rest, ∅, none, 1⟩])[s.currentNode]? = some _ :=
    (List.getElem?_append_left (lt_length hcur)).trans hcur
  have hparent := getParent_ok (p := h.length) hlink (if_pos rfl)
  have hadd := addLeaf_ok hmiddle (s := b :: rest) (b := b) rfl
  refine ⟨{ s with lastNode := some split.length }, addLeaf split h.length (b :: rest) b, ?_, ?_⟩
  · simp only [matchByte, matchByteWith, hd, hbyte, ne_eq, hne, not_false_eq_true, if_true]
    refine (soundRun_divide hsound hdivide).bind ?_
    refine (soundRun_lift hnew).bind ((soundRun_lift hparent).bind ?_)
    exact (soundRun_lift hadd).bind (soundRun_pure _ _)
  · rw [length_addLeaf]
    exact (lt_length hcur).trans (Nat.lt_succ_self _)

/-- The loop runs through, and the calls it makes are sound. The induction is on
the stream; at the start of a node the stream has its first byte. -/
theorem mergeLoop_noted (stream : List UInt8) (hw : WellFormed h) (hx : h[s.currentNode]? = some x)
    (hd : s.data = x.data) (hp : x.parent = some p) (hle : s.currentIndex ≤ s.data.length)
    (hstart : s.currentIndex = 0 → stream ≠ [] → stream.head? = s.data.head?) :
    ∃ st h', SoundRun (mergeLoop stream s) (mergeLoopWith notedDivide stream s) h st h' ∧
      st.currentNode < h'.length := by
  induction stream generalizing h s x p with
  | nil => exact ⟨s, h, soundRun_pure s h, lt_length hx⟩
  | cons b rest ih =>
    rw [mergeLoop, mergeLoopWith]
    by_cases hend : s.data.length ≤ s.currentIndex
    · rw [if_pos hend, if_pos hend]
      have hfind := findChildNode_ok hx b
      cases hl : x.childNodes.lookup b with
      | none =>
        rw [hl] at hfind
        have hnew := newNode_ok (b :: rest) h
        have hadd := addLeaf_ok hx (s := b :: rest) (b := b) rfl
        refine ⟨{ s with lastNode := some h.length }, addLeaf h s.currentNode (b :: rest) b, ?_, ?_⟩
        · refine (soundRun_lift hfind).bind ((soundRun_lift hnew).bind ?_)
          exact (soundRun_lift hadd).bind (soundRun_pure _ _)
        · rw [length_addLeaf]
          exact (lt_length hx).trans (Nat.lt_succ_self _)
      | some child =>
        rw [hl] at hfind
        obtain ⟨y, hy, hyp, hyb⟩ := hw.children hx hl
        obtain ⟨y', hy', hdata, hparent⟩ : ∃ y', (counted h s.currentNode)[child]? = some y' ∧
            y'.data = y.data ∧ y'.parent = y.parent := by
          rw [getElem?_counted, hy]
          exact ⟨_, rfl, by split_ifs <;> rfl, by split_ifs <;> rfl⟩
        have hzero : y'.data[0]? = some b := by rw [hdata, ← List.head?_eq_getElem?, hyb]
        have hlt := (List.getElem?_eq_some_iff.mp hzero).1
        obtain ⟨st, h', hrun, hcurrent⟩ :=
          ih (s := ⟨0 + 1, some child, child, y'.data⟩) (hw.counted _) hy' rfl
            (hparent.trans hyp) hlt fun h0 => absurd h0 (Nat.succ_ne_zero 0)
        refine ⟨st, h', ?_, hcurrent⟩
        refine (soundRun_lift hfind).bind ((soundRun_lift (incrementCount_ok hx)).bind ?_)
        exact (soundRun_lift (getData_ok hy')).bind (soundRun_matchByte hzero hrun)
    · rw [if_neg hend, if_neg hend]
      have hlt : s.currentIndex < s.data.length := Nat.lt_of_not_le hend
      have hhere : s.data[s.currentIndex]? = some s.data[s.currentIndex] := List.getElem?_eq_getElem hlt
      by_cases hsame : s.data[s.currentIndex] = b
      · obtain ⟨st, h', hrun, hcurrent⟩ :=
          ih (s := { s with currentIndex := s.currentIndex + 1 }) hw hx hd hp hlt
            fun h0 => absurd h0 (Nat.succ_ne_zero _)
        rw [hsame] at hhere
        exact ⟨st, h', soundRun_matchByte hhere hrun, hcurrent⟩
      · -- The mismatch lies behind the first byte of the node.
        have hpos : 0 < s.currentIndex := by
          by_contra hzero
          have h0 : s.currentIndex = 0 := by omega
          have hhead := hstart h0 (List.cons_ne_nil _ _)
          rw [List.head?_cons, List.head?_eq_getElem?, ← h0, hhere, Option.some.injEq] at hhead
          exact hsame hhead.symm
        exact soundRun_split rest _ _ hw hx hp hpos hd hhere hsame

/-- Merging below a root runs through with sound calls. -/
theorem mergeNode_noted {r : NodeId} {stream : List UInt8} (hw : WellFormed h) (hx : h[r]? = some x)
    (hs : stream ≠ []) :
    ∃ leaf h', SoundRun (mergeNode r stream) (mergeNodeWith notedDivide r stream) h leaf h' := by
  obtain ⟨b, rest, rfl⟩ := List.exists_cons_of_ne_nil hs
  have hcount := incrementCount_ok hx
  have hroot : (counted h r)[r]? = some { x with count := x.count + 1 } := by
    rw [getElem?_counted, hx, Option.map_some, if_pos rfl]
  have hfind := findChildNode_ok hroot b
  cases hl : x.childNodes.lookup b with
  | none =>
    have hnew := newNode_ok (b :: rest) (counted h r)
    have hadd := addLeaf_ok hroot (s := b :: rest) (b := b) rfl
    refine ⟨(counted h r).length, addLeaf (counted h r) r (b :: rest) b, ?_⟩
    refine (soundRun_lift hcount).bind ((soundRun_lift hfind).bind ?_)
    simp only [hl]
    exact (soundRun_lift hnew).bind ((soundRun_lift hadd).bind (soundRun_pure _ _))
  | some n =>
    obtain ⟨y, hy, hyp, hyb⟩ := (hw.counted r).children hroot hl
    obtain ⟨st, h', hrun, hcurrent⟩ :=
      mergeLoop_noted (s := ⟨0, none, n, y.data⟩) (b :: rest) (hw.counted r) hy rfl hyp (Nat.zero_le _)
        fun _ _ => hyb.symm
    have hlast := incrementCount_ok (List.getElem?_eq_getElem hcurrent)
    refine ⟨st.lastNode.getD st.currentNode, counted h' st.currentNode, ?_⟩
    refine (soundRun_lift hcount).bind ((soundRun_lift hfind).bind ?_)
    simp only [hl]
    refine (soundRun_lift (getData_ok hy)).bind (hrun.bind ?_)
    exact (soundRun_lift hlast).bind (soundRun_pure _ _)

variable {t : Tree} {header first : List UInt8} {sent received : List (List UInt8)} {calls : List TreeCall}

/-- One call on a tree makes sound calls of `divide`. -/
theorem run_noted {c : TreeCall} (hg : Grown h t header sent received) (hc : c.data ≠ []) :
    ∃ t' h', SoundRun (c.run t) (runWith notedDivide t c) h t' h' := by
  cases c with
  | merge stream =>
    obtain ⟨x, hx, -⟩ := hg.holdsSent.header
    obtain ⟨leaf, h', hrun⟩ := mergeNode_noted hg.wellFormed hx hc
    exact ⟨_, h', hrun.bind (soundRun_pure _ _)⟩
  | addReceivedData data =>
    obtain ⟨x, hx, -⟩ := hg.holdsReceived.header
    obtain ⟨leaf, h', hrun⟩ := mergeNode_noted hg.wellFormed hx hc
    cases hl : t.lastPacket with
    | none =>
      refine ⟨t, h', hrun.bind ?_⟩
      rw [hl]
      exact soundRun_pure _ _
    | some i =>
      refine ⟨{ t with streamPackets := t.streamPackets.modify i fun p =>
        { p with receivedLeafNode := some leaf } }, h', hrun.bind ?_⟩
      rw [hl]
      exact soundRun_pure _ _

/-- The calls of a tree one after the other. -/
theorem runs_noted (hg : Grown h t header sent received) (hcalls : ∀ c ∈ calls, c.data ≠ []) :
    ∃ t' h' sent' received',
      SoundRun (calls.foldlM TreeCall.run t) (calls.foldlM (runWith notedDivide) t) h t' h' ∧
        Grown h' t' header sent' received' := by
  induction calls generalizing h t sent received with
  | nil => exact ⟨t, h, sent, received, soundRun_pure t h, hg⟩
  | cons c calls ih =>
    have hc := hcalls c (List.mem_cons_self ..)
    obtain ⟨t1, h1, hrun⟩ := run_noted hg hc
    obtain ⟨t1', h1', hrun', hg₁⟩ := hg.run hc
    cases hrun.run.symm.trans hrun'
    obtain ⟨t', h', sent', received', hruns, hg'⟩ :=
      ih hg₁ fun c' hc' => hcalls c' (List.mem_cons_of_mem _ hc')
    refine ⟨t', h', sent', received', ?_, hg'⟩
    rw [List.foldlM_cons, List.foldlM_cons]
    exact hrun.bind hruns

/-- Whatever history a tree has: its nodes are linked both ways under their first
bytes, and every call of `divide` on the way was made inside a node and left
the words of all nodes alone. -/
theorem treeRun_divides (hw : WellFormed h) (hfirst : first ≠ []) (hcalls : ∀ c ∈ calls, c.data ≠ []) :
    ∃ t h' noted, treeRun header first calls h = .ok t h' ∧
      treeRunWith notedDivide header first calls (h, []) = .ok t (h', noted) ∧
      WellFormed h' ∧ Deterministic (forest h') ∧ ∀ c ∈ noted, c.Inside ∧ c.KeepsWords := by
  obtain ⟨-, t, h1, hnew, hg, -⟩ := grown_newTree hw header hfirst
  obtain ⟨t', h', sent, received, hruns, hg'⟩ := runs_noted hg hcalls
  have hall : SoundRun (treeRun header first calls) (treeRunWith notedDivide header first calls) h t' h' :=
    (soundRun_lift hnew).bind hruns
  obtain ⟨noted, hsound, hnoted⟩ := hall.noted
  exact ⟨t', h', noted, hall.run, hnoted [], hg'.wellFormed, hg'.wellFormed.deterministic, hsound⟩

/-- Three streams that part one after the other, and a response. -/
theorem treeRun_divides_three :
    ∃ t h' noted, treeRun [0, 0xA4, 4, 0] [1, 2, 3, 4] [.merge [1, 2, 5], .addReceivedData [0x90, 0],
        .merge [1, 6]] [] = .ok t h' ∧
      treeRunWith notedDivide [0, 0xA4, 4, 0] [1, 2, 3, 4] [.merge [1, 2, 5], .addReceivedData [0x90, 0],
        .merge [1, 6]] ([], []) = .ok t (h', noted) ∧
      WellFormed h' ∧ Deterministic (forest h') ∧ ∀ c ∈ noted, c.Inside ∧ c.KeepsWords :=
  treeRun_divides WellFormed.nil (by decide) (by decide)

end ApduPlay.DivideCalls
