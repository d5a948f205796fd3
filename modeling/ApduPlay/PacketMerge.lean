import ApduPlay.PacketTree
import ApduPlay.Library.WordForest

/-!
# What merging a stream does

The merge loop goes down node by node: it ends inside or at the end of a
node, adds a leaf below a node, or splits one. Each case is a graft or a
subdivision of the forest, so old nodes keep what they spell, and the words
spelled afterwards are those of the abstract cut points.
-/

namespace ApduPlay.PacketMerge

open LabelForest WordCuts PacketNode PacketTree

variable {h h' : Heap} {n p cur : NodeId} {x y : Node} {b c d : UInt8} {last : Option NodeId}
  {u v rest data t : List UInt8}

/-- Matching bytes are consumed without touching the heap. -/
theorem mergeLoop_walk (cur : NodeId) (last : Option NodeId) {data : List UInt8} (rest u : List UInt8) {k : ℕ}
    (hu : u <+: data.drop k) :
    mergeLoop (u ++ rest) ⟨k, last, cur, data⟩ h =
      mergeLoop rest ⟨k + u.length, last, cur, data⟩ h := by
  induction u generalizing k with
  | nil => rfl
  | cons a u ih =>
    obtain ⟨w, hw⟩ := hu
    have hk : data[k]? = some a := by
      rw [← List.head?_drop, ← hw]
      rfl
    have hlt := (List.getElem?_eq_some_iff.mp hk).1
    have hnext : u <+: data.drop (k + 1) := by
      refine ⟨w, ?_⟩
      rw [← List.tail_drop, ← hw]
      rfl
    rw [List.cons_append, mergeLoop]
    simp only [if_neg (Nat.not_le.mpr hlt), matchByte, hk, ne_eq, not_true_eq_false, if_false]
    rw [ih hnext, List.length_cons, Nat.add_right_comm, Nat.add_assoc]

/-- The stream ends inside the node or with it. -/
theorem mergeLoop_exhausted (hv : v <+: data) :
    mergeLoop v ⟨0, last, cur, data⟩ h = .ok ⟨v.length, last, cur, data⟩ h := by
  have hw := mergeLoop_walk cur last [] v (h := h) (k := 0) (by simpa using hv)
  rw [List.append_nil, Nat.zero_add] at hw
  rw [hw]
  rfl

/-- The stream goes on past the node, where no child takes it. -/
theorem mergeLoop_newChild (hx : h[cur]? = some x) (hl : x.childNodes.lookup b = none) :
    mergeLoop (x.data ++ b :: rest) ⟨0, last, cur, x.data⟩ h =
      .ok ⟨x.data.length, some h.length, cur, x.data⟩ (addLeaf h cur (b :: rest) b) := by
  rw [mergeLoop_walk _ _ _ x.data (k := 0) (by simp), mergeLoop]
  simp only [Nat.zero_add, le_refl, if_true]
  refine (bind_ok (findChildNode_ok hx b)).trans ?_
  rw [hl]
  refine (bind_ok (newNode_ok (b :: rest) h)).trans ?_
  exact bind_ok (addLeaf_ok hx rfl)

/-- The stream goes on past the node, and a child takes it. -/
theorem mergeLoop_descend (hx : h[cur]? = some x) (hl : x.childNodes.lookup b = some n)
    (hy : (counted h cur)[n]? = some y)
    (hyd : y.data ≠ []) :
    mergeLoop (x.data ++ b :: rest) ⟨0, last, cur, x.data⟩ h =
      mergeLoop (b :: rest) ⟨0, some n, n, y.data⟩ (counted h cur) := by
  have hpos : ¬ y.data.length ≤ 0 := by
    have := List.length_pos_of_ne_nil hyd
    omega
  rw [mergeLoop_walk _ _ _ x.data (k := 0) (by simp), mergeLoop, mergeLoop]
  simp only [Nat.zero_add, le_refl, if_true, if_neg hpos]
  refine (bind_ok (findChildNode_ok hx b)).trans ?_
  rw [hl]
  refine (bind_ok (incrementCount_ok hx)).trans ?_
  exact bind_ok (getData_ok hy)

/-- The stream leaves the node inside its data. -/
theorem mergeLoop_split (hx : h[cur]? = some x) (hp : x.parent = some p) (hy : h[p]? = some y)
    (hd : x.data = u ++ d :: t) (hu : u.head? = some c) (hbd : b ≠ d) :
    mergeLoop (u ++ b :: rest) ⟨0, last, cur, x.data⟩ h =
      .ok ⟨u.length, some (h.length + 1), cur, x.data⟩
        (addLeaf (splitNode h cur p x.data u.length c d) h.length (b :: rest) b) := by
  have hpos : 0 < u.length := by
    cases u with
    | nil => cases hu
    | cons a u => simp
  have hc : x.data.head? = some c := by
    rw [hd, List.head?_append, hu]
    rfl
  have hk : x.data[u.length]? = some d := by simp [hd]
  have hlt := (List.getElem?_eq_some_iff.mp hk).1
  have hdiv := divide_ok hx hp hy hc hpos hk
  have hnl := lt_length hx
  have hcur := getElem?_splitNode_old x.data (n := cur) (p := p) (b := c) (c := d)
    (k := u.length) cur hnl
  rw [hx, Option.map_some] at hcur
  have hnew := getElem?_splitNode_new x.data (b := c) (c := d) (k := u.length) hnl
    (lt_length hy)
  rw [mergeLoop_walk _ _ _ u (k := 0) (by rw [hd]; simp), mergeLoop]
  simp only [Nat.zero_add, if_neg (Nat.not_le.mpr hlt), matchByte, hk, ne_eq, hbd.symm,
    not_false_eq_true, if_true]
  refine (bind_ok hdiv).trans ?_
  refine (bind_ok (newNode_ok (b :: rest) _)).trans ?_
  have hlink : (splitNode h cur p x.data u.length c d ++ [⟨b :: rest, ∅, none, 1⟩])[cur]? = some _ :=
    (List.getElem?_append_left (lt_length hcur)).trans hcur
  refine (bind_ok (getParent_ok hlink (if_pos rfl))).trans ?_
  refine (bind_ok (addLeaf_ok hnew rfl)).trans ?_
  rw [length_splitNode]
  rfl

/-- What the loop does that starts at `cur` and inserts `s` below `r`. -/
structure MergedBelow (h : Heap) (r cur : NodeId) (s : List UInt8) (st : MergeState)
    (h' : Heap) : Prop where
  /-- The heap stays well formed. -/
  wellFormed : WellFormed h'
  /-- Nodes are only added. -/
  length_le : h.length ≤ h'.length
  /-- The stream is inserted, and its node is the one returned. -/
  inserted : Inserted (forest h) (· < h.length) r s (st.lastNode.getD st.currentNode) (forest h')
  /-- The loop ends at or below the node where it started. -/
  current : Above (forest h) cur st.currentNode
  /-- Nodes outside the tree are left alone. -/
  frame : ∀ i < h.length, (∀ w, ¬ Spells (forest h) r i w) → h'[i]? = h[i]?
  /-- Nodes not below `cur` keep all but their children. -/
  steady : ∀ {i : NodeId} {z : Node}, h[i]? = some z → ¬ Above (forest h) cur i →
    ∃ z', h'[i]? = some z' ∧ z'.parent = z.parent ∧ z'.data = z.data ∧ z'.count = z.count

theorem mergedBelow_exhausted {r : NodeId} (hw : WellFormed h) (hx : h[cur]? = some x)
    (hp : x.parent = some p) (hs : Spells (forest h) r p v) (ht : t <+: x.data) (hne : t ≠ [])
    (hlast : last.getD cur = cur) :
    MergedBelow h r cur (v ++ t) ⟨t.length, last, cur, x.data⟩ h where
  wellFormed := hw
  length_le := le_rfl
  inserted := by
    simp only [hlast]
    refine inserted_stop hw.deterministic hs ?_ ?_ hne
    · rw [forest_parent hx, hp]
    · rwa [forest_label hx]
  current := .refl
  frame _ _ _ := rfl
  steady hz _ := ⟨_, hz, rfl, rfl, rfl⟩

theorem no_child_of_lookup (hw : WellFormed h) (hx : h[n]? = some x)
    (hl : x.childNodes.lookup b = none) (i : NodeId) (hi : (forest h).parent i = some n) :
    ((forest h).label i).head? ≠ some b := by
  obtain ⟨z, hz, hzp⟩ := exists_of_parent hi
  obtain ⟨y, a, hy, ha, hya⟩ := hw.parents hz hzp
  rw [hx, Option.some.injEq] at hy
  subst hy
  rw [forest_label hz, ha]
  intro he
  rw [Option.some.injEq] at he
  rw [← he, hya] at hl
  cases hl

theorem mergedBelow_newChild (rest data : List UInt8) {r : NodeId} (hw : WellFormed h)
    (hx : h[cur]? = some x) (hs : Spells (forest h) r cur v) (hr : r < h.length)
    (hl : x.childNodes.lookup b = none) (k : ℕ) :
    MergedBelow h r cur (v ++ b :: rest) ⟨k, some h.length, cur, data⟩
      (addLeaf h cur (b :: rest) b) where
  wellFormed := hw.addLeaf hx rfl hl
  length_le := by rw [length_addLeaf]; omega
  inserted := by
    rw [forest_addLeaf (lt_length hx)]
    exact inserted_graft _ hw.deterministic hw.fresh Nat.ne_of_lt hr.ne hs (lt_length hx).ne
      (no_child_of_lookup hw hx hl)
  current := .refl
  frame i hi hout := by
    have hne : i ≠ cur := by rintro rfl; exact hout _ hs
    rw [getElem?_addLeaf_old i hi]
    simp only [if_neg hne]
    cases h[i]? <;> rfl
  steady {i z} hz _ := by
    have hget := getElem?_addLeaf_old (p := cur) (b := b) i (lt_length hz) (b :: rest)
    rw [hz, Option.map_some] at hget
    exact ⟨_, hget, rfl, rfl, rfl⟩

theorem mergedBelow_split {r : NodeId} (hw : WellFormed h) (hx : h[cur]? = some x)
    (hp : x.parent = some p) (hs : Spells (forest h) r p v) (hr : r < h.length)
    (hd : x.data = u ++ d :: t) (hu : u.head? = some c) (hbd : b ≠ d) (k : ℕ) :
    MergedBelow h r cur (v ++ (u ++ b :: rest)) ⟨k, some (h.length + 1), cur, data⟩
      (addLeaf (splitNode h cur p x.data u.length c d) h.length (b :: rest) b) := by
  have hune : u ≠ [] := by rintro rfl; cases hu
  have hc : x.data.head? = some c := by
    rw [hd, List.head?_append, hu]
    rfl
  have hk : x.data[u.length]? = some d := by simp [hd]
  obtain ⟨y, b', hy, _⟩ := hw.parents hx hp
  have hpl := lt_length hy
  have hcl := lt_length hx
  have hnew := getElem?_splitNode_new x.data (b := c) (c := d) (k := u.length) hcl hpl
  have hlook : ((∅ : AList fun _ : UInt8 => NodeId).insert d cur).lookup b = none := by
    rw [AList.lookup_insert_ne hbd]
    rfl
  have hws := hw.splitNode hx hp hc (List.length_pos_of_ne_nil hune) hk
  have hsplit := length_splitNode h cur p x.data u.length c d
  have hold {i : NodeId} {z : Node} (hz : h[i]? = some z) :
      ∃ z', (addLeaf (splitNode h cur p x.data u.length c d) h.length (b :: rest) b)[i]? = some z' ∧
        (i ≠ cur → z'.parent = z.parent ∧ z'.data = z.data ∧ z'.count = z.count ∧
          (i ≠ p → z' = z)) := by
    have hi := lt_length hz
    have hi' : i < (splitNode h cur p x.data u.length c d).length := by
      rw [hsplit]
      exact hi.trans (Nat.lt_succ_self _)
    have hget := getElem?_addLeaf_old (p := h.length) (b := b) i hi' (b :: rest)
    rw [getElem?_splitNode_old _ i hi, hz, Option.map_some, Option.map_some] at hget
    refine ⟨_, hget, fun hne => ?_⟩
    simp only [if_neg hne, if_neg hi.ne]
    exact ⟨trivial, trivial, trivial, fun hnp => by rw [if_neg hnp]⟩
  constructor
  · exact hws.addLeaf hnew rfl hlook
  · rw [length_addLeaf, hsplit]
    omega
  · have hfs := forest_splitNode (k := u.length) (b := c) (c := d) hx hpl
    rw [forest_addLeaf (by rw [hsplit]; exact Nat.lt_succ_self _), hfs, hsplit]
    have hfresh : Fresh (subdivide (forest h) cur h.length p u.length) (h.length + 1) := by
      rw [← hfs, ← hsplit]
      exact hws.fresh
    rw [← List.append_assoc]
    refine inserted_split (t := t) hw.deterministic hw.fresh Nat.ne_of_lt hfresh (fun hq => ?_)
      (Nat.ne_of_lt (Nat.lt_succ_self _)) hr hs ?_ ?_ hune hbd
    · exact (hq.trans (Nat.lt_succ_self _)).ne
    · rw [forest_parent hx, hp]
    · rw [forest_label hx, hd]
  · exact .refl
  · intro i hi hout
    obtain ⟨z, hz⟩ : ∃ z, h[i]? = some z := ⟨_, List.getElem?_eq_getElem hi⟩
    obtain ⟨z', hz', hkeep⟩ := hold hz
    have hne : i ≠ cur := by
      rintro rfl
      exact hout _ (.child hs (by rw [forest_parent hx, hp]))
    have hnp : i ≠ p := by rintro rfl; exact hout _ hs
    rw [hz', hz, (hkeep hne).2.2.2 hnp]
  · intro i z hz hna
    obtain ⟨z', hz', hkeep⟩ := hold hz
    have hne : i ≠ cur := by rintro rfl; exact hna .refl
    exact ⟨z', hz', (hkeep hne).1, (hkeep hne).2.1, (hkeep hne).2.2.1⟩

/-- Entering a child adds the occurrence of the node left, and the rest of the
loop stays below that child. -/
theorem MergedBelow.descend {r : NodeId} {s : List UInt8} {st : MergeState}
    (hs : Spells (forest h) r cur v) (hn : (forest h).parent n = some cur)
    (hm : MergedBelow (counted h cur) r n s st h') :
    MergedBelow h r cur s st h' := by
  obtain ⟨hwf, hlen, hins, hcur, hframe, hsteady⟩ := hm
  rw [forest_counted] at hins hcur hframe hsteady
  rw [length_counted] at hlen hins hframe
  refine ⟨hwf, hlen, hins, Above.trans (.step .refl hn) hcur, fun i hi hout => ?_, fun {i z} hz hna => ?_⟩
  · have hne : cur ≠ i := by rintro rfl; exact hout _ hs
    rw [hframe i hi hout, getElem?_counted]
    cases h[i]? <;> simp [hne]
  · have hne : cur ≠ i := by rintro rfl; exact hna .refl
    refine hsteady ?_ fun ha => hna (Above.trans (.step .refl hn) ha)
    rw [getElem?_counted, hz, Option.map_some, if_neg hne]

/-- The loop runs through and inserts the stream below the node where it
starts. The induction is on the length of what is left of the stream: every
node entered takes at least one byte. -/
theorem mergeLoop_spec (last : Option NodeId) {r : NodeId} (hw : WellFormed h) (hx : h[cur]? = some x)
    (hp : x.parent = some p) (hs : Spells (forest h) r p v) (hr : r < h.length)
    (ht : t.head? = x.data.head?) (hlast : last.getD cur = cur) :
    ∃ st h', mergeLoop t ⟨0, last, cur, x.data⟩ h = .ok st h' ∧
      MergedBelow h r cur (v ++ t) st h' := by
  induction hk : t.length using Nat.strong_induction_on generalizing h cur x p v t last with
  | _ k ih =>
    subst hk
    have hpar : (forest h).parent cur = some p := by rw [forest_parent hx, hp]
    obtain ⟨a, tail, hxd⟩ : ∃ a tail, x.data = a :: tail := by
      have hne := hw.deterministic.label_ne_nil hpar
      rw [forest_label hx] at hne
      exact List.exists_cons_of_ne_nil hne
    have htne : t ≠ [] := by
      rintro rfl
      rw [hxd] at ht
      cases ht
    rcases prefix_or_extend_or_part t x.data with hpre | ⟨b, rest, rfl⟩ | ⟨u, d, b, s', t', hd, rfl, hbd⟩
    · exact ⟨_, _, mergeLoop_exhausted hpre, mergedBelow_exhausted hw hx hp hs hpre htne hlast⟩
    · have hcur : Spells (forest h) r cur (v ++ x.data) := by
        have := Spells.child hs hpar
        rwa [forest_label hx] at this
      rw [← List.append_assoc]
      cases hl : x.childNodes.lookup b with
      | none =>
        exact ⟨_, _, mergeLoop_newChild hx hl, mergedBelow_newChild _ _ hw hx hcur hr hl _⟩
      | some n =>
        obtain ⟨y, hy, hyp, hyb⟩ := hw.children hx hl
        have hw' := hw.counted cur
        have hget := getElem?_counted h cur n
        have hncur : cur ≠ n :=
          (hcur.child_ne hw.deterministic (by rw [forest_parent hy, hyp])).symm
        rw [hy, Option.map_some, if_neg hncur] at hget
        have hyne : y.data ≠ [] := by
          intro he
          rw [he] at hyb
          cases hyb
        have hshorter : (b :: rest).length < (x.data ++ b :: rest).length := by
          rw [hxd, List.length_append, List.length_cons, List.length_cons]
          omega
        obtain ⟨st, h', hrun, hm⟩ := ih (b :: rest).length hshorter (some n)
          (t := b :: rest) hw' hget hyp (by rw [forest_counted]; exact hcur) (by rwa [length_counted])
          hyb.symm rfl rfl
        exact ⟨st, h', (mergeLoop_descend hx hl hget hyne).trans hrun,
          hm.descend hcur (by rw [forest_parent hy, hyp])⟩
    · obtain ⟨y, _, hy, _⟩ := hw.parents hx hp
      obtain ⟨c, hu⟩ : ∃ c, u.head? = some c := by
        cases u with
        | nil =>
          rw [hd] at ht
          simp only [List.nil_append, List.head?_cons, Option.some.injEq] at ht
          exact absurd ht hbd
        | cons c u => exact ⟨c, rfl⟩
      exact ⟨_, _, mergeLoop_split hx hp hy hd hu hbd, mergedBelow_split hw hx hp hs hr hd hu hbd _⟩

/-- What merging `s` below the root `r` does. -/
structure Merged (h : Heap) (r : NodeId) (s : List UInt8) (leaf : NodeId) (h' : Heap) : Prop where
  /-- The heap stays well formed. -/
  wellFormed : WellFormed h'
  /-- Nodes are only added. -/
  length_le : h.length ≤ h'.length
  /-- The stream is inserted, and its node is the one returned. -/
  inserted : Inserted (forest h) (· < h.length) r s leaf (forest h')
  /-- Nodes outside the tree are left alone. -/
  frame : ∀ i < h.length, (∀ w, ¬ Spells (forest h) r i w) → h'[i]? = h[i]?
  /-- The root stays as it is and counts the stream. -/
  root : ∀ {x : Node}, h[r]? = some x →
    ∃ y, h'[r]? = some y ∧ y.parent = x.parent ∧ y.data = x.data ∧ y.count = x.count + 1

/-- No child of the root takes the stream. -/
theorem mergeNode_new (hx : h[p]? = some x) (hl : x.childNodes.lookup b = none) :
    mergeNode p (b :: rest) h = .ok h.length (addLeaf (counted h p) p (b :: rest) b) := by
  have hx' : (counted h p)[p]? = some { x with count := x.count + 1 } := by
    rw [getElem?_counted, hx, Option.map_some, if_pos rfl]
  refine (bind_ok (incrementCount_ok hx)).trans ?_
  refine (bind_ok (findChildNode_ok hx' b)).trans ?_
  simp only [hl]
  refine (bind_ok (newNode_ok (b :: rest) _)).trans ?_
  refine (bind_ok (addLeaf_ok hx' rfl)).trans ?_
  rw [length_counted]
  rfl

/-- A child of the root takes the stream, and the loop goes on from there. -/
theorem mergeNode_found {st : MergeState} {z : Node} (hx : h[p]? = some x)
    (hl : x.childNodes.lookup b = some n) (hy : (counted h p)[n]? = some y)
    (hloop : mergeLoop (b :: rest) ⟨0, none, n, y.data⟩ (counted h p) = .ok st h')
    (hz : h'[st.currentNode]? = some z) :
    mergeNode p (b :: rest) h =
      .ok (st.lastNode.getD st.currentNode) (counted h' st.currentNode) := by
  have hx' : (counted h p)[p]? = some { x with count := x.count + 1 } := by
    rw [getElem?_counted, hx, Option.map_some, if_pos rfl]
  refine (bind_ok (incrementCount_ok hx)).trans ?_
  refine (bind_ok (findChildNode_ok hx' b)).trans ?_
  simp only [hl]
  refine (bind_ok (getData_ok hy)).trans ?_
  refine (bind_ok hloop).trans ?_
  exact bind_ok (incrementCount_ok hz)

theorem exists_of_above (ha : Above (forest h) n p) (hx : h[n]? = some x) : ∃ y, h[p]? = some y := by
  cases ha with
  | refl => exact ⟨x, hx⟩
  | step _ hp =>
    obtain ⟨y, hy, _⟩ := exists_of_parent hp
    exact ⟨y, hy⟩

theorem counted_self (hx : h[n]? = some x) :
    (counted h n)[n]? = some { x with count := x.count + 1 } := by
  rw [getElem?_counted, hx, Option.map_some, if_pos rfl]

theorem counted_of_ne (hn : n ≠ p) : (counted h n)[p]? = h[p]? := by
  rw [getElem?_counted]
  cases h[p]? <;> simp [hn]

/-- No node of a tree lies above its root. -/
theorem not_above_root {r : NodeId} (hw : WellFormed h) (hroot : Spells (forest h) r r [])
    (hn : (forest h).parent n = some r) : ¬ Above (forest h) n r := by
  intro ha
  have hpre := ha.word_prefix (.child hroot hn) hroot
  rw [List.nil_append, List.prefix_nil] at hpre
  exact hw.deterministic.label_ne_nil hn hpre

/-- Entering the child `n` of the root: the loop runs through and stays below it. -/
theorem mergeNode_enter (rest : List UInt8) {r : NodeId} (hw : WellFormed h) (hx : h[r]? = some x)
    (hp : x.parent = none) (hl : x.childNodes.lookup b = some n) (hy : h[n]? = some y)
    (hyp : y.parent = some r) (hyb : y.data.head? = some b) :
    ∃ st h2, mergeLoop (b :: rest) ⟨0, none, n, y.data⟩ (counted h r) = .ok st h2 ∧
      MergedBelow (counted h r) r n (b :: rest) st h2 ∧
      mergeNode r (b :: rest) h =
        .ok (st.lastNode.getD st.currentNode) (counted h2 st.currentNode) := by
  have hroot : Spells (forest h) r r [] := .root (by rw [forest_parent hx, hp])
  have hn : (forest h).parent n = some r := by rw [forest_parent hy, hyp]
  have hy1 : (counted h r)[n]? = some y := by
    rw [counted_of_ne (hroot.child_ne hw.deterministic hn).symm, hy]
  obtain ⟨st, h2, hloop, hm⟩ := mergeLoop_spec none (t := b :: rest) (hw.counted r) hy1
    hyp (by rw [forest_counted]; exact hroot) (by rw [length_counted]; exact lt_length hx) hyb.symm rfl
  have hcur := hm.current
  rw [forest_counted] at hcur
  obtain ⟨z, hz⟩ := exists_of_above hcur hy
  have hlt := (lt_length hz).trans_le (length_counted h r ▸ hm.length_le)
  exact ⟨st, h2, hloop, hm, mergeNode_found hx hl hy1 hloop (List.getElem?_eq_getElem hlt)⟩

/-- Merging a non-empty stream below a root never raises an exception. -/
theorem mergeNode_spec {r : NodeId} {s : List UInt8} (hw : WellFormed h) (hx : h[r]? = some x)
    (hp : x.parent = none) (hs : s ≠ []) :
    ∃ leaf h', mergeNode r s h = .ok leaf h' ∧ Merged h r s leaf h' := by
  obtain ⟨b, rest, rfl⟩ := List.exists_cons_of_ne_nil hs
  have hr := lt_length hx
  have hroot : Spells (forest h) r r [] := .root (by rw [forest_parent hx, hp])
  have hx1 := counted_self hx
  cases hl : x.childNodes.lookup b with
  | none =>
    have hm := mergedBelow_newChild rest [] (hw.counted r) hx1
      (by rw [forest_counted]; exact hroot) (by rwa [length_counted]) hl 0
    obtain ⟨hwf, hlen, hins, _, hframe, _⟩ := hm
    rw [forest_counted, length_counted] at hins hframe
    rw [length_counted] at hlen
    refine ⟨_, _, mergeNode_new hx hl, hwf, hlen, hins, fun i hi hout => ?_, fun {z} hz => ?_⟩
    · rw [hframe i hi hout, counted_of_ne (by rintro rfl; exact hout _ hroot)]
    · rw [hx, Option.some.injEq] at hz
      subst hz
      have hget := getElem?_addLeaf_old (h := counted h r) (p := r) (b := b) r
        (by rwa [length_counted]) (b :: rest)
      rw [hx1, Option.map_some] at hget
      exact ⟨_, hget, rfl, rfl, rfl⟩
  | some n =>
    obtain ⟨y, hy, hyp, hyb⟩ := hw.children hx hl
    have hn : (forest h).parent n = some r := by rw [forest_parent hy, hyp]
    obtain ⟨st, h2, _, ⟨hwf, hlen, hins, hcur, hframe, hsteady⟩, hrun⟩ :=
      mergeNode_enter rest hw hx hp hl hy hyp hyb
    rw [forest_counted, length_counted] at hins hframe
    rw [length_counted] at hlen
    rw [forest_counted] at hcur hsteady
    have hrcur := not_above_root hw hroot hn
    obtain ⟨w, hcurw⟩ := hcur.exists_spells (.child hroot hn)
    refine ⟨_, _, hrun, hwf.counted _, ?_, ?_, fun i hi hout => ?_, fun {z} hz => ?_⟩
    · rwa [length_counted]
    · rw [forest_counted]
      exact hins
    · rw [counted_of_ne (by rintro rfl; exact hout _ hcurw), hframe i hi hout,
        counted_of_ne (by rintro rfl; exact hout _ hroot)]
    · rw [hx, Option.some.injEq] at hz
      subst hz
      obtain ⟨r', hr', hparent, hdata, hcount⟩ := hsteady hx1 hrcur
      have hne : st.currentNode ≠ r := fun he => hrcur (he ▸ hcur)
      exact ⟨r', by rw [counted_of_ne hne, hr'], hparent, hdata, hcount⟩

end ApduPlay.PacketMerge
