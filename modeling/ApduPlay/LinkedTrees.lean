import ApduPlay.Library.TreeTraversal
import ApduPlay.PacketTree

/-!
# Trees of nodes

What can be reached from a root through the child maps is a tree when every node
that is reached so is stored under the first byte of its data and knows the node
above it. Other nodes of the heap, which no tree refers to any more, do not matter.
-/

namespace ApduPlay.LinkedTrees

open LabelForest TreeTraversal PacketNode PacketTree

/-- The children of a node in some order. -/
def childIds (h : Heap) (n : NodeId) : List NodeId :=
  match h[n]? with
  | some x => x.childNodes.entries.map Sigma.snd
  | none => []

/-- A tree below a root. -/
structure Linked (h : Heap) (r : NodeId) : Prop where
  /-- The root is a node, and there is none above it. -/
  root : ∃ x, h[r]? = some x ∧ x.parent = none
  /-- A child is a node that knows the one above it and has the byte it is stored under. -/
  children : ∀ {p c : NodeId} {y : Node} {b : UInt8}, Reachable (childIds h) r p → h[p]? = some y →
    y.childNodes.lookup b = some c → ∃ x, h[c]? = some x ∧ x.parent = some p ∧ x.data.head? = some b

variable {h h' : Heap} {root n p c : NodeId} {x y : Node} {b : UInt8} {w : List UInt8}

theorem mem_childIds (hy : h[p]? = some y) : c ∈ childIds h p ↔ ∃ b, y.childNodes.lookup b = some c := by
  rw [childIds, hy]
  constructor
  · intro hmem
    obtain ⟨⟨b, c⟩, hentry, rfl⟩ := List.mem_map.mp hmem
    exact ⟨b, AList.mem_lookup_iff.mpr hentry⟩
  · rintro ⟨b, hlookup⟩
    exact List.mem_map.mpr ⟨⟨b, c⟩, AList.mem_lookup_iff.mp hlookup, rfl⟩

theorem exists_of_mem_childIds (hc : c ∈ childIds h p) : ∃ y, h[p]? = some y := by
  cases hy : h[p]? with
  | none =>
    rw [childIds, hy] at hc
    exact absurd hc List.not_mem_nil
  | some y => exact ⟨y, rfl⟩

/-- A child in a tree. -/
theorem Linked.child (hl : Linked h root) (hp : Reachable (childIds h) root p)
    (hc : c ∈ childIds h p) :
    ∃ x y b, h[c]? = some x ∧ h[p]? = some y ∧ x.parent = some p ∧ x.data.head? = some b ∧
      y.childNodes.lookup b = some c := by
  obtain ⟨y, hy⟩ := exists_of_mem_childIds hc
  obtain ⟨b, hlookup⟩ := (mem_childIds hy).mp hc
  obtain ⟨x, hx, hparent, hhead⟩ := hl.children hp hy hlookup
  exact ⟨x, y, b, hx, hy, hparent, hhead, hlookup⟩

/-- What is below the root is a node. -/
theorem Linked.exists_node (hl : Linked h root) (hn : Reachable (childIds h) root n) :
    ∃ x, h[n]? = some x := by
  cases hn with
  | root =>
    obtain ⟨x, hx, -⟩ := hl.root
    exact ⟨x, hx⟩
  | child hp hc =>
    obtain ⟨x, -, -, hx, -⟩ := hl.child hp hc
    exact ⟨x, hx⟩

/-- The references are those of a tree. -/
theorem Linked.isTree (hl : Linked h root) :
    IsTree (childIds h) (fun n => h[n]?.bind Node.parent) root where
  parent_root := by
    obtain ⟨x, hx, hparent⟩ := hl.root
    rw [hx]
    exact hparent
  parent_child hp hc := by
    obtain ⟨x, -, -, hx, -, hparent, -⟩ := hl.child hp hc
    rw [hx]
    exact hparent
  nodup_children {n} hn := by
    obtain ⟨y, hy⟩ := hl.exists_node hn
    rw [childIds, hy]
    refine List.Nodup.map_on ?_ (List.Nodup.of_map Sigma.fst y.childNodes.nodupKeys)
    rintro ⟨b, c⟩ hb ⟨b', c'⟩ hb' rfl
    obtain ⟨x, hx, -, hhead⟩ := hl.children hn hy (AList.mem_lookup_iff.mpr hb)
    obtain ⟨x', hx', -, hhead'⟩ := hl.children hn hy (AList.mem_lookup_iff.mpr hb')
    rw [hx, Option.some.injEq] at hx'
    rw [← hx', hhead, Option.some.injEq] at hhead'
    rw [hhead']

theorem Linked.child_ne (hl : Linked h root) (hp : Reachable (childIds h) root p) (hc : c ∈ childIds h p) :
    c ≠ p := by
  rintro rfl
  exact hl.isTree.parent_ne hp (hl.isTree.parent_child hp hc)

/-- A root of a well-formed heap. -/
theorem linked_of_wellFormed (hw : WellFormed h) (hx : h[root]? = some x) (hparent : x.parent = none) :
    Linked h root :=
  ⟨⟨x, hx, hparent⟩, fun _ hy hlookup => hw.children hy hlookup⟩

/-- In a well-formed heap what spells a word can be reached. -/
theorem reachable_of_spells (hw : WellFormed h) (hs : Spells (forest h) root n w) :
    Reachable (childIds h) root n := by
  induction hs with
  | root _ => exact .root
  | child _ hparent ih =>
    obtain ⟨x, hx, hp⟩ := exists_of_parent hparent
    obtain ⟨y, b, hy, -, hlookup⟩ := hw.parents hx hp
    exact .child ih ((mem_childIds hy).mpr ⟨b, hlookup⟩)

theorem Linked.spells_root (hl : Linked h root) : Spells (forest h) root root [] := by
  obtain ⟨x, hx, hparent⟩ := hl.root
  exact .root (by rw [forest_parent hx, hparent])

/-- What has a node above it is not the root. -/
theorem Linked.ne_of_parent (hl : Linked h root) (hx : h[n]? = some x) (hparent : x.parent = some p) :
    n ≠ root := by
  rintro rfl
  obtain ⟨y, hy, hnone⟩ := hl.root
  rw [hx, Option.some.injEq] at hy
  rw [← hy, hparent] at hnone
  cases hnone

/-- Above a node of the tree there is a node of the tree. -/
theorem Linked.reachable_parent (hl : Linked h root) (hn : Reachable (childIds h) root n)
    (hx : h[n]? = some x) (hparent : x.parent = some p) :
    Reachable (childIds h) root p ∧ n ∈ childIds h p := by
  cases hn with
  | root => exact absurd rfl (hl.ne_of_parent hx hparent)
  | @child q _ hq hc =>
    obtain ⟨x', _, _, hx', -, hparent', -⟩ := hl.child hq hc
    rw [hx, Option.some.injEq] at hx'
    rw [← hx', hparent, Option.some.injEq] at hparent'
    rw [hparent']
    exact ⟨hq, hc⟩

/-- Child maps and parent links are inverse to each other. -/
theorem Linked.parent_iff (hl : Linked h root) (hn : Reachable (childIds h) root n) (hx : h[n]? = some x) :
    x.parent = some p ↔ Reachable (childIds h) root p ∧ n ∈ childIds h p := by
  refine ⟨hl.reachable_parent hn hx, fun ⟨hp, hnp⟩ => ?_⟩
  obtain ⟨x', -, -, hx', -, hparent, -⟩ := hl.child hp hnp
  rw [hx, Option.some.injEq] at hx'
  rwa [hx']

/-- Siblings begin with different bytes. -/
theorem Linked.siblings {c' : NodeId} {x' : Node} (hl : Linked h root) (hp : Reachable (childIds h) root p)
    (hc : c ∈ childIds h p) (hc' : c' ∈ childIds h p) (hx : h[c]? = some x) (hx' : h[c']? = some x')
    (hhead : x.data.head? = x'.data.head?) : c = c' := by
  obtain ⟨z, y, b, hz, hy, -, hb, hlookup⟩ := hl.child hp hc
  obtain ⟨z', y', b', hz', hy', -, hb', hlookup'⟩ := hl.child hp hc'
  rw [hx, Option.some.injEq] at hz
  rw [hx', Option.some.injEq] at hz'
  rw [hy, Option.some.injEq] at hy'
  subst hz hz' hy'
  rw [hb, hb', Option.some.injEq] at hhead
  rw [hhead, hlookup', Option.some.injEq] at hlookup
  exact hlookup.symm

/-- Only the root has nothing above it. -/
theorem Linked.exists_parent (hl : Linked h root) (hn : Reachable (childIds h) root n) (hne : n ≠ root) :
    ∃ x p b, h[n]? = some x ∧ x.parent = some p ∧ x.data.head? = some b ∧
      Reachable (childIds h) root p ∧ n ∈ childIds h p := by
  cases hn with
  | root => exact absurd rfl hne
  | @child p _ hp hc =>
    obtain ⟨x, _, b, hx, -, hparent, hhead, -⟩ := hl.child hp hc
    exact ⟨x, p, b, hx, hparent, hhead, hp, hc⟩

/-- A node of the tree spells a word. -/
theorem Linked.exists_spells (hl : Linked h root) (hn : Reachable (childIds h) root n) :
    ∃ w, Spells (forest h) root n w := by
  induction hn with
  | root => exact ⟨[], hl.spells_root⟩
  | child hp hc ih =>
    obtain ⟨w, hw⟩ := ih
    obtain ⟨x, _, _, hx, -, hparent, -⟩ := hl.child hp hc
    exact ⟨_, .child hw (by rw [forest_parent hx, hparent])⟩

/-- A node is in one tree only. -/
theorem Linked.root_unique {root' : NodeId} (hl : Linked h root) (hl' : Linked h root')
    (hn : Reachable (childIds h) root n) (hn' : Reachable (childIds h) root' n) : root = root' := by
  obtain ⟨w, hw⟩ := hl.exists_spells hn
  obtain ⟨w', hw'⟩ := hl'.exists_spells hn'
  exact hw.root_unique hw'

/-- The nodes on the way up from a node are collected with enough fuel, and
they are as many different nodes. -/
theorem Linked.leafData_spells (hl : Linked h root) (hx : h[root]? = some x)
    (hn : Reachable (childIds h) root n) (hs : Spells (forest h) root n w) :
    ∃ (way : List NodeId) (data : List (List UInt8)),
      (∀ fuel, way.length ≤ fuel → leafData h fuel (some n) = some data) ∧
      data.reverse.flatten = x.data ++ w ∧ way.Nodup ∧
      ∀ i ∈ way, i < h.length ∧ ∃ u, Spells (forest h) root i u ∧ u.length ≤ w.length := by
  induction hs with
  | root hr =>
    rw [forest_parent hx] at hr
    refine ⟨[root], [x.data], fun fuel hf => ?_, by simp, by simp, fun i hi => ?_⟩
    · obtain ⟨k, rfl⟩ : ∃ k, fuel = k + 1 := ⟨fuel - 1, by simp at hf; omega⟩
      simp [leafData, hx, hr]
    · rw [List.mem_singleton] at hi
      subst hi
      exact ⟨lt_length hx, [], .root (by rw [forest_parent hx, hr]), le_rfl⟩
  | @child p n w hs hparent ih =>
    obtain ⟨y, hy, hyp⟩ := exists_of_parent hparent
    obtain ⟨hp, hnp⟩ := hl.reachable_parent hn hy hyp
    obtain ⟨way, data, hrun, hflat, hnodup, hway⟩ := ih hp
    obtain ⟨y', _, b, hy', -, -, hb, -⟩ := hl.child hp hnp
    rw [hy, Option.some.injEq] at hy'
    have hpos : 0 < ((forest h).label n).length := by
      rw [forest_label hy, hy']
      exact List.length_pos_of_mem (List.mem_of_mem_head? hb)
    refine ⟨n :: way, y.data :: data, fun fuel hf => ?_, ?_, ?_, fun i hi => ?_⟩
    · obtain ⟨k, rfl⟩ : ∃ k, fuel = k + 1 := ⟨fuel - 1, by simp at hf; omega⟩
      simp only [List.length_cons, Nat.add_le_add_iff_right] at hf
      simp [leafData, hy, hyp, hrun k hf]
    · rw [List.reverse_cons, List.flatten_append, hflat, forest_label hy]
      simp
    · -- The nodes above spell shorter words than the node itself.
      refine List.nodup_cons.mpr ⟨fun hmem => ?_, hnodup⟩
      obtain ⟨_, u, hu, hle⟩ := hway n hmem
      rw [hu.word_unique (.child hs hparent), List.length_append] at hle
      omega
    · rcases List.mem_cons.mp hi with rfl | hi
      · exact ⟨lt_length hy, _, .child hs hparent, le_rfl⟩
      · obtain ⟨hlt, u, hu, hle⟩ := hway i hi
        exact ⟨hlt, u, hu, by rw [List.length_append]; omega⟩

/-- A node of a tree is rebuilt as the data of the root and the word it spells. -/
theorem Linked.getDataFromLeafNode (hl : Linked h root) (hx : h[root]? = some x)
    (hn : Reachable (childIds h) root n) (hs : Spells (forest h) root n w) :
    PacketTree.getDataFromLeafNode h (some n) = some (x.data ++ w) := by
  obtain ⟨way, data, hrun, hflat, hnodup, hway⟩ := hl.leafData_spells hx hn hs
  have hsub : way ⊆ List.range h.length := fun i hi => List.mem_range.mpr (hway i hi).1
  have hlen := (hnodup.subperm hsub).length_le
  rw [List.length_range] at hlen
  rw [PacketTree.getDataFromLeafNode, hrun _ hlen, Option.map_some, hflat]

/-- What is not in the tree does not matter. -/
theorem Linked.frame (hl : Linked h root)
    (hsame : ∀ {i : NodeId}, Reachable (childIds h) root i → h'[i]? = h[i]?) :
    Linked h' root ∧ ∀ i, Reachable (childIds h') root i ↔ Reachable (childIds h) root i := by
  have hkids {i : NodeId} (hi : Reachable (childIds h) root i) : childIds h' i = childIds h i := by
    rw [childIds, childIds, hsame hi]
  have hreach (i : NodeId) : Reachable (childIds h') root i ↔ Reachable (childIds h) root i := by
    constructor
    · intro hi
      induction hi with
      | root => exact .root
      | child _ hc ih => exact .child ih (hkids ih ▸ hc)
    · intro hi
      induction hi with
      | root => exact .root
      | child hn hc ih => exact .child ih ((hkids hn).symm ▸ hc)
  refine ⟨⟨?_, fun {p c y b} hp hy hlookup => ?_⟩, hreach⟩
  · obtain ⟨x, hx, hparent⟩ := hl.root
    exact ⟨x, (hsame .root).trans hx, hparent⟩
  · rw [hreach] at hp
    rw [hsame hp] at hy
    obtain ⟨x, hx, hparent, hhead⟩ := hl.children hp hy hlookup
    exact ⟨x, (hsame (.child hp ((mem_childIds hy).mpr ⟨b, hlookup⟩))).trans hx, hparent, hhead⟩

theorem Linked.spells_frame (hl : Linked h root)
    (hsame : ∀ {i : NodeId}, Reachable (childIds h) root i → h'[i]? = h[i]?)
    (hn : Reachable (childIds h) root n) (hs : Spells (forest h) root n w) : Spells (forest h') root n w := by
  induction hs with
  | root hr => exact .root ((congrArg (fun x => x.bind Node.parent) (hsame .root)).trans hr)
  | @child p n w _ hparent ih =>
    obtain ⟨x, hx, hxp⟩ := exists_of_parent hparent
    obtain ⟨hp, -⟩ := hl.reachable_parent hn hx hxp
    have hx' := (hsame hn).trans hx
    rw [forest_label hx, ← forest_label hx']
    exact .child (ih hp) (by rw [forest_parent hx', hxp])

end ApduPlay.LinkedTrees
