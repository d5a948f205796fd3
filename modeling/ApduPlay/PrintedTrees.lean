import ApduPlay.SimplifiedTrees

/-!
# Printing the nodes of a tree

The graph of a tree has a line for every leaf: the way from the node where the
last line was left down to the leaf. The nodes that are left to print are on a
stack.
-/

namespace ApduPlay.PrintedTrees

open TreeTraversal LogParser PacketGraph PacketNode LinkedTrees SimplifiedTrees

/-- The text of a line. -/
def pathText (path : List NodeId) : JavaString :=
  "\t".toList ++ " -> ".toList.intercalate (path.map fun n : NodeId => decimal (identifier n)) ++ ";".toList

/-- Write the line of the nodes so far, none of which may be null. -/
def printPath (toPrint : List (Option NodeId)) : WriterM Unit := do
  let path ← toPrint.mapM fun
    | some node => pure node
    | none => throw .nullPointer
  modify fun s => (s.1, s.2 ++ [pathText path])

/-- What the next line begins with: the node above the one on top of the stack. -/
def parentOfTop : List NodeId → JavaM (List (Option NodeId))
  | [] => pure []
  | top :: _ => do return [(← load top).parent]

/-- The loop of `print`, with the number of rounds bounded. A loop that never
ends is an exception here as well. The top of the stack comes first. -/
def printLoop (hash : HashOrder) : ℕ → List NodeId → List (Option NodeId) → WriterM Unit
  | _, [], _ => pure ()
  | 0, _ :: _, _ => throw .nullPointer
  | rounds + 1, node :: stack, toPrint => do
    let toPrint := toPrint ++ [some node]
    let childNodes ← getChildNodes hash node
    if childNodes.isEmpty then
      printPath toPrint
      printLoop hash rounds stack (← parentOfTop stack)
    else printLoop hash rounds (childNodes.reverse ++ stack) toPrint

/-- `print`; there are not more rounds than nodes. -/
def print (hash : HashOrder) (node : NodeId) : WriterM Unit := do
  printLoop hash (← get).1.length [node] []

/-- The edges of a line. -/
def edges (path : List NodeId) : List (NodeId × NodeId) := path.zip path.tail

/-- A line goes down to a leaf. -/
structure DownToLeaf (h : Heap) (path : List NodeId) : Prop where
  /-- Every node is below the one before it. -/
  down : path.IsChain fun p c => c ∈ childIds h p
  /-- The last one has no children. -/
  leaf : ∃ n ∈ path.getLast?, childIds h n = []

/-- The lines show a tree. -/
structure ShowsTree (h : Heap) (root : NodeId) (paths : List (List NodeId)) : Prop where
  /-- No edge is there twice. -/
  nodup : (paths.flatMap edges).Nodup
  /-- They are the edges of the tree. -/
  edges : ∀ p c, (p, c) ∈ paths.flatMap edges ↔ Reachable (childIds h) root p ∧ c ∈ childIds h p
  /-- Every line goes down to a leaf. -/
  downToLeaf : ∀ path ∈ paths, DownToLeaf h path

/-- What comes next is a child of the last node of the line so far, unless the
root is about to be printed. -/
def Continues (h : Heap) (visited pending : List NodeId) : List NodeId → Prop
  | [] => pending = []
  | top :: _ => visited = [] ∧ pending = [] ∨ ∃ p ∈ pending.getLast?, p ∈ visited ∧ top ∈ childIds h p

/-- The state of the loop. -/
structure Printed (h : Heap) (root : NodeId) (visited stack pending : List NodeId)
    (paths : List (List NodeId)) : Prop where
  /-- Every node is visited once. -/
  frontier : Frontier (childIds h) root visited stack
  /-- The line so far goes down. -/
  down : pending.IsChain fun p c => c ∈ childIds h p
  /-- It goes on with the top of the stack. -/
  continues : Continues h visited pending stack
  /-- No edge is there twice. -/
  nodup : (paths.flatMap edges ++ edges pending).Nodup
  /-- The edges are those between visited nodes. -/
  edges : ∀ p c, (p, c) ∈ paths.flatMap edges ++ edges pending ↔ c ∈ visited ∧ p ∈ visited ∧ c ∈ childIds h p
  /-- The lines go down to leaves. -/
  downToLeaf : ∀ path ∈ paths, DownToLeaf h path
  /-- All their nodes are visited. -/
  passed : ∀ path ∈ pending :: paths, path ⊆ visited

variable {h : Heap} {root n p c : NodeId} {visited stack pending : List NodeId} {paths : List (List NodeId)}
  {hash : HashOrder}

theorem edges_concat (pending : List NodeId) (n : NodeId) :
    edges (pending ++ [n]) = edges pending ++ (pending.getLast?.map fun p => (p, n)).toList := by
  induction pending with
  | nil => rfl
  | cons p pending ih =>
    cases pending with
    | nil => rfl
    | cons q pending =>
      have hcons (l : List NodeId) : edges (p :: q :: l) = (p, q) :: edges (q :: l) := rfl
      rw [List.cons_append, List.cons_append, hcons, ← List.cons_append, ih, List.getLast?_cons_cons, hcons,
        List.cons_append]

theorem printed_start (h : Heap) (root : NodeId) : Printed h root [] [root] [] [] where
  frontier := frontier_start _ _
  down := .nil
  continues := Or.inl ⟨rfl, rfl⟩
  nodup := List.nodup_nil
  edges p c := by simp [edges]
  downToLeaf path hpath := absurd hpath List.not_mem_nil
  passed := List.forall_mem_singleton.mpr (List.Subset.refl [])

/-- The line so far goes on with the node on top of the stack. -/
theorem Printed.down_concat (hs : Printed h root visited (n :: stack) pending paths) :
    (pending ++ [n]).IsChain fun p c => c ∈ childIds h p := by
  refine List.isChain_append.mpr ⟨hs.down, .singleton n, fun p hp c hc => ?_⟩
  cases hc
  rcases hs.continues with ⟨-, hnil⟩ | ⟨q, hq, -, hn⟩
  · rw [hnil] at hp
    cases hp
  · rw [Option.mem_def.mp hp] at hq
    cases hq
    exact hn

/-- Its edge is a new one. -/
theorem Printed.edges_concat (hl : Linked h root) (hs : Printed h root visited (n :: stack) pending paths) :
    (paths.flatMap PrintedTrees.edges ++ PrintedTrees.edges (pending ++ [n])).Nodup ∧
      ∀ p c, (p, c) ∈ paths.flatMap PrintedTrees.edges ++ PrintedTrees.edges (pending ++ [n]) ↔
        c ∈ visited ++ [n] ∧ p ∈ visited ++ [n] ∧ c ∈ childIds h p := by
  have ht := hl.isTree
  have hfrontier := hs.frontier
  have hwaits : n ∈ n :: stack := List.mem_cons_self
  have hnew : n ∉ visited := fun hmem => (List.nodup_append'.mp hfrontier.nodup).2.2 hmem hwaits
  have hparent {p : NodeId} (hp : p ∈ visited ++ [n]) (hn : n ∈ childIds h p) :
      h[n]?.bind Node.parent = some p := by
    refine ht.parent_child (hfrontier.reachable p ?_) hn
    rw [List.append_cons]
    exact List.mem_append_left stack hp
  have hbelow {c : NodeId} (hc : c ∈ childIds h n) : c ∉ visited := fun hmem =>
    hfrontier.not_mem_of_child ht hwaits hc (List.mem_append_left _ hmem)
  rw [PrintedTrees.edges_concat, ← List.append_assoc]
  rcases hs.continues with ⟨hvisited, hpending⟩ | ⟨q, hq, hqv, hqn⟩
  · subst hvisited hpending
    have hroot : n = root := by
      rcases hfrontier.above n hwaits with hroot | ⟨p, hp, -⟩
      · exact hroot
      · exact absurd hp List.not_mem_nil
    refine ⟨by simpa using hs.nodup, fun p c => ?_⟩
    have hedges := hs.edges p c
    simp only [List.getLast?_nil, Option.map_none, Option.toList_none, List.append_nil, List.nil_append,
      List.mem_singleton] at hedges ⊢
    rw [hedges]
    refine ⟨fun hmem => absurd hmem.1 List.not_mem_nil, ?_⟩
    rintro ⟨rfl, rfl, hself⟩
    have hself := hparent (by simp) hself
    rw [hroot, ht.parent_root] at hself
    cases hself
  · rw [Option.mem_def.mp hq, Option.map_some, Option.toList_some]
    have hedge : (q, n) ∉ paths.flatMap PrintedTrees.edges ++ PrintedTrees.edges pending := fun hmem =>
      hnew ((hs.edges q n).mp hmem).1
    refine ⟨List.nodup_append'.mpr ⟨hs.nodup, List.nodup_singleton _, by simpa using hedge⟩, fun p c => ?_⟩
    rw [List.mem_append, hs.edges p c, List.mem_singleton, Prod.mk.injEq]
    constructor
    · rintro (⟨hc, hp, hpc⟩ | ⟨rfl, rfl⟩)
      · exact ⟨List.mem_append_left _ hc, List.mem_append_left _ hp, hpc⟩
      · exact ⟨by simp, List.mem_append_left _ hqv, hqn⟩
    · rintro ⟨hc, hp, hpc⟩
      rcases List.mem_append.mp hc with hc | hc
      · rcases List.mem_append.mp hp with hp | hp
        · exact Or.inl ⟨hc, hp, hpc⟩
        · rw [List.mem_singleton.mp hp] at hpc
          exact absurd hc (hbelow hpc)
      · rw [List.mem_singleton.mp hc] at hpc ⊢
        have hsame := hparent hp hpc
        rw [hparent (List.mem_append_left _ hqv) hqn, Option.some.injEq] at hsame
        exact Or.inr ⟨hsame.symm, rfl⟩

/-- The nodes of the line so far and of the other lines are visited with the one on top. -/
theorem Printed.passed_concat (hs : Printed h root visited (n :: stack) pending paths) :
    ∀ path ∈ (pending ++ [n]) :: paths, path ⊆ visited ++ [n] := by
  obtain ⟨hpending, hpaths⟩ := List.forall_mem_cons.mp hs.passed
  refine List.forall_mem_cons.mpr ⟨?_, fun path hpath => ?_⟩
  · exact List.append_subset.mpr ⟨List.subset_append_of_subset_left _ hpending, List.subset_append_right _ _⟩
  · exact List.subset_append_of_subset_left _ (hpaths path hpath)

/-- A node with children: they are pushed. -/
theorem Printed.push (hl : Linked h root) (hs : Printed h root visited (n :: stack) pending paths)
    {next : List NodeId} (hne : childIds h n ≠ []) (hnext : next.Perm (childIds h n)) :
    Printed h root (visited ++ [n]) (next ++ stack) (pending ++ [n]) paths := by
  obtain ⟨hnodup, hedges⟩ := hs.edges_concat hl
  refine ⟨hs.frontier.visit hl.isTree ?_, hs.down_concat, ?_, hnodup, hedges, hs.downToLeaf,
    hs.passed_concat⟩
  · exact (hnext.append_right stack).trans List.perm_append_comm
  · cases next with
    | nil => exact absurd hnext.symm.eq_nil hne
    | cons top next =>
      refine Or.inr ⟨n, ?_, by simp, hnext.subset List.mem_cons_self⟩
      rw [List.getLast?_concat]
      rfl

/-- A leaf: its line is complete, and the next one begins above the top of the stack. -/
theorem Printed.finish (hl : Linked h root) (hs : Printed h root visited (n :: stack) pending paths)
    (hleaf : childIds h n = []) :
    ∃ next : List NodeId, parentOfTop stack h = .ok (next.map some) h ∧
      Printed h root (visited ++ [n]) stack next (paths ++ [pending ++ [n]]) := by
  obtain ⟨hnodup, hedges⟩ := hs.edges_concat hl
  have hfrontier := hs.frontier.visit hl.isTree (by rw [hleaf, List.append_nil])
  have hpaths : (paths ++ [pending ++ [n]]).flatMap PrintedTrees.edges =
      paths.flatMap PrintedTrees.edges ++ PrintedTrees.edges (pending ++ [n]) := by
    rw [List.flatMap_append, List.flatMap_singleton]
  have hlines : ∀ path ∈ paths ++ [pending ++ [n]], DownToLeaf h path := by
    refine List.forall_mem_append.mpr ⟨hs.downToLeaf,
      List.forall_mem_singleton.mpr ⟨hs.down_concat, n, ?_, hleaf⟩⟩
    rw [List.getLast?_concat]
    rfl
  obtain ⟨hpending, hothers⟩ := List.forall_mem_cons.mp hs.passed_concat
  have hpassed : ∀ path ∈ paths ++ [pending ++ [n]], path ⊆ visited ++ [n] :=
    List.forall_mem_append.mpr ⟨hothers, List.forall_mem_singleton.mpr hpending⟩
  cases stack with
  | nil =>
    refine ⟨[], rfl, hfrontier, .nil, rfl, ?_, ?_, hlines,
      List.forall_mem_cons.mpr ⟨List.nil_subset _, hpassed⟩⟩
    · rw [hpaths]
      simpa [PrintedTrees.edges] using hnodup
    · rw [hpaths]
      simpa [PrintedTrees.edges] using hedges
  | cons top stack =>
    have hwaits : top ∈ visited ++ [n] ++ top :: stack := by simp
    obtain ⟨p, hp, htop⟩ : ∃ p ∈ visited ++ [n], top ∈ childIds h p := by
      rcases hfrontier.above top hwaits with hroot | habove
      · -- The root was the first node that was visited.
        have hfirst : root ∈ visited ++ [n] :=
          hfrontier.root_mem.resolve_right fun hnone => List.append_ne_nil_of_right_ne_nil _ (by simp) hnone.1
        exact absurd hfirst
          (hroot ▸ fun hmem => (List.nodup_append'.mp hfrontier.nodup).2.2 hmem List.mem_cons_self)
      · exact habove
    obtain ⟨x, -, -, hx, -, hparent, -⟩ := hl.child (hfrontier.reachable p (List.mem_append_left _ hp)) htop
    refine ⟨[p], ?_, hfrontier, .singleton p, Or.inr ⟨p, rfl, hp, htop⟩, ?_, ?_, hlines,
      List.forall_mem_cons.mpr ⟨fun m hm => List.mem_singleton.mp hm ▸ hp, hpassed⟩⟩
    · refine (bind_ok (load_ok hx)).trans ?_
      rw [hparent]
      rfl
    · rw [hpaths]
      simpa [PrintedTrees.edges] using hnodup
    · rw [hpaths]
      simpa [PrintedTrees.edges] using hedges

theorem mapM_some (path : List NodeId) (s : Heap × List JavaString) :
    ((path.map some).mapM fun
      | some node => pure node
      | none => throw JavaException.nullPointer : WriterM (List NodeId)) s = .ok path s := by
  induction path with
  | nil => rfl
  | cons n path ih =>
    rw [List.map_cons, List.mapM_cons]
    have hone : (pure n : WriterM NodeId) s = .ok n s := rfl
    exact (bind_ok hone).trans ((bind_ok ih).trans rfl)

/-- The line is written. -/
theorem printPath_ok (path : List NodeId) (s : Heap × List JavaString) :
    printPath (path.map some) s = .ok () (s.1, s.2 ++ [pathText path]) :=
  bind_ok (mapM_some path s)

/-- The loop ends with lines that show what was visited. -/
theorem printLoop_ok (hash : HashOrder) (hl : Linked h root) {rounds : ℕ}
    (hrounds : h.length ≤ visited.length + rounds) (hs : Printed h root visited stack pending paths)
    (out : List JavaString) :
    ∃ visited' paths', printLoop hash rounds stack (pending.map some) (h, out ++ paths.map pathText) =
        .ok () (h, out ++ paths'.map pathText) ∧ Printed h root visited' [] [] paths' := by
  induction rounds generalizing visited stack pending paths with
  | zero =>
    cases stack with
    | nil =>
      obtain rfl : pending = [] := hs.continues
      exact ⟨visited, paths, rfl, hs⟩
    | cons n stack =>
      have hlt := hs.frontier.length_lt fun n hn => (hl.exists_node hn).elim fun x hx => lt_length hx
      exact absurd hrounds (by omega)
  | succ rounds ih =>
    cases stack with
    | nil =>
      obtain rfl : pending = [] := hs.continues
      exact ⟨visited, paths, rfl, hs⟩
    | cons n stack =>
      obtain ⟨x, hx⟩ := hl.exists_node (hs.frontier.reachable n (by simp))
      have hvisited : h.length ≤ (visited ++ [n]).length + rounds := by
        rw [List.length_append, List.length_singleton]
        omega
      have hperm := hash.perm (childIds h n)
      have hkids := lift_ok (getChildNodes_ok hash hx) (out ++ paths.map pathText)
      have hpending : pending.map some ++ [some n] = (pending ++ [n]).map some := by
        rw [List.map_append, List.map_singleton]
      rw [printLoop, hpending]
      by_cases hleaf : childIds h n = []
      · obtain ⟨next, hnext, hs'⟩ := hs.finish hl hleaf
        obtain ⟨visited', paths', hrun, hend⟩ := ih hvisited hs'
        refine ⟨visited', paths', ?_, hend⟩
        have hempty : (hash.order (childIds h n)).isEmpty = true := by
          rw [List.isEmpty_iff, ← List.perm_nil, ← hleaf]
          exact hperm
        refine (bind_ok hkids).trans ?_
        rw [if_pos hempty]
        refine (bind_ok (printPath_ok _ _)).trans ((bind_ok (lift_ok hnext _)).trans ?_)
        rwa [List.append_assoc, ← List.map_singleton (f := pathText), ← List.map_append]
      · have hs' := hs.push hl hleaf ((List.reverse_perm _).trans hperm)
        obtain ⟨visited', paths', hrun, hend⟩ := ih hvisited hs'
        refine ⟨visited', paths', ?_, hend⟩
        have hempty : ¬ (hash.order (childIds h n)).isEmpty = true := fun hempty =>
          hleaf ((List.isEmpty_iff.mp hempty ▸ hperm).symm.eq_nil)
        refine (bind_ok hkids).trans ?_
        rwa [if_neg hempty]

/-- A root with two leaves. -/
def twoLeaves : Heap := addLeaf (addLeaf ([] ++ [⟨[0xA4], ∅, none, 1⟩]) 0 [0x01] 0x01) 0 [0x02] 0x02

end ApduPlay.PrintedTrees
