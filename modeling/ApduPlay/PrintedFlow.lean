import Mathlib.Algebra.Order.Ring.Rat
import ApduPlay.Library.KeyedLists
import ApduPlay.SimplifiedTrees

/-!
# The flow of a tree

One of the outputs shows a tree as a line of nodes, one for every depth. The nodes
of a depth are counted by their text, and the text with the largest count is shown
in a colour that stands for its part of the packets.
-/

namespace ApduPlay.PrintedFlow

open ExceptionRuns (Ends)
open KeyedLists TreeTraversal LogParser PacketGraph PacketNode LinkedTrees SimplifiedTrees WrappedText

/-- A node of the flow. -/
structure FlowNode where
  /-- Its number, which is printed as an `int`. -/
  flowIndex : ℕ
  /-- The text that is shown. -/
  value : JavaString
  /-- The same in lines. -/
  label : JavaString
  /-- How often it was counted. -/
  count : JavaInt
  deriving DecidableEq, Repr

/-- The part of the packets that the colour is made of. -/
def FlowNode.frequency (node : FlowNode) (packetsCount : JavaInt) : ℚ :=
  node.count.toInt / packetsCount.toInt

/-- One node of a depth: it is counted, and its children come next. -/
def countNode (cfg : PrintSettings) (hash : HashOrder) (s : List (JavaString × JavaInt) × List NodeId)
    (node : NodeId) : JavaM (List (JavaString × JavaInt) × List NodeId) := do
  let childNodes := s.2 ++ (← getChildNodes hash node)
  let value ← toHexBinaryString cfg.bytesSeparator (← getData node)
  let count := (← load node).count
  return (addTo s.1 (value, count), childNodes)

/-- The first of the entries with the largest count, which an entry replaces if it is larger. -/
def firstLargest : List (JavaString × JavaInt) → Option (JavaString × JavaInt)
  | [] => none
  | entry :: entries =>
    some (entries.foldl (fun candidate next => if candidate.2.toInt < next.2.toInt then next else candidate)
      entry)

/-- `Collections.max`. No entry at all is an exception here as well. -/
def maxEntry (entries : List (JavaString × JavaInt)) : JavaM (JavaString × JavaInt) :=
  match firstLargest entries with
  | some max => pure max
  | none => throw .nullPointer

/-- One depth of the flow: the node that is shown for its nodes, and those of the next depth. The children
of a node and the entries of the map that counts are in orders of their own. -/
def flowNode (cfg : PrintSettings) (hash entryHash : HashOrder) (flowIndex : ℕ) (nodes : List NodeId) :
    JavaM (FlowNode × List NodeId) := do
  let (map, childNodes) ← nodes.foldlM (countNode cfg hash) ([], [])
  let max ← maxEntry (entryHash.order map)
  let wrapped ← label cfg max.1
  return (⟨flowIndex, max.1, wrapped, max.2⟩, childNodes)

/-- The loop of `printFlow`, with the number of rounds bounded. A loop that never
ends is an exception here as well. -/
def flowLoop (cfg : PrintSettings) (hash entryHash : HashOrder) : ℕ → ℕ → List NodeId → JavaM (List FlowNode)
  | _, _, [] => pure []
  | 0, _, _ :: _ => throw .nullPointer
  | rounds + 1, flowIndex, node :: nodes => do
    let (shown, childNodes) ← flowNode cfg hash entryHash flowIndex (node :: nodes)
    let flow ← flowLoop cfg hash entryHash rounds (flowIndex + 1) childNodes
    return shown :: flow

/-- The nodes of the flow; there are not more rounds than nodes. -/
def flowNodes (cfg : PrintSettings) (hash entryHash : HashOrder) (node : NodeId) (flowIndex : ℕ) :
    JavaM (List FlowNode) := do
  flowLoop cfg hash entryHash (← get).length flowIndex [node]

/-- Depths that get a number before the loop ends or raises an exception. -/
def numberedDepths (cfg : PrintSettings) (hash entryHash : HashOrder) : ℕ → List NodeId → Heap → ℕ
  | _, [], _ => 0
  | 0, _ :: _, _ => 0
  | rounds + 1, node :: nodes, h =>
    match flowNode cfg hash entryHash 0 (node :: nodes) h with
    | .ok (_, childNodes) h => numberedDepths cfg hash entryHash rounds childNodes h + 1
    | .error _ _ => 0

/-- The line of a node, with the colour for its count and that of the packets. -/
def FlowNode.text (lineSeparator : JavaString) (hexColor : JavaInt → JavaInt → JavaString)
    (packetsCount : JavaInt) (node : FlowNode) : JavaString :=
  "\t".toList ++ decimal (wrapInt node.flowIndex) ++ " [label=<".toList ++ node.label ++
    "> style=filled fillcolor=\"".toList ++ hexColor node.count packetsCount ++ "\"];".toList ++ lineSeparator

/-- What is printed of a flow: the labels, and the way through the nodes. -/
def flowLines (lineSeparator : JavaString) (hexColor : JavaInt → JavaInt → JavaString)
    (packetsCount : JavaInt) (flow : List FlowNode) : List JavaString :=
  let graph := flow.flatMap fun node => decimal (wrapInt node.flowIndex) ++ " -> ".toList
  [flow.flatMap (FlowNode.text lineSeparator hexColor packetsCount),
    "\t".toList ++ graph.take (graph.length - 4) ++ ";".toList]

/-- `printFlow`, from a number on. Returns the next number. -/
def printFlow (cfg : PrintSettings) (lineSeparator : JavaString) (hexColor : JavaInt → JavaInt → JavaString)
    (hash entryHash : HashOrder) (node : NodeId) (packetsCount : JavaInt) (flowIndex : ℕ) : WriterM ℕ := do
  let flow ← flowNodes cfg hash entryHash node flowIndex
  modify fun s => (s.1, s.2 ++ flowLines lineSeparator hexColor packetsCount flow)
  return flowIndex + flow.length

variable {cfg : PrintSettings} {hash entryHash : HashOrder} {h : Heap} {root n : NodeId} {x : Node}
  {nodes : List NodeId} {k rounds flowIndex : ℕ}

/-- What a node is counted with. -/
def entryOf (cfg : PrintSettings) (h : Heap) (n : NodeId) : JavaString × JavaInt :=
  match h[n]? with
  | some x => (hexBinaryString cfg.bytesSeparator x.data, x.count)
  | none => ([], 0)

theorem entryOf_eq (hx : h[n]? = some x) :
    entryOf cfg h n = (hexBinaryString cfg.bytesSeparator x.data, x.count) := by
  rw [entryOf, hx]

/-- A node whose text has room is counted. -/
theorem countNode_ok (hx : h[n]? = some x) (hroom : HasRoom cfg.bytesSeparator x.data)
    (s : List (JavaString × JavaInt) × List NodeId) :
    countNode cfg hash s n h = .ok (addTo s.1 (entryOf cfg h n), s.2 ++ hash.order (childIds h n)) h := by
  rw [entryOf_eq hx]
  exact (bind_ok (getChildNodes_ok hash hx)).trans ((bind_ok (getData_ok hx)).trans
    ((bind_ok (lift_eq_ok (toHexBinaryString_ok hroom) h)).trans ((bind_ok (load_ok hx)).trans rfl)))

/-- A node is only counted if its text has room. -/
theorem hasRoom_of_countNode {s : List (JavaString × JavaInt) × List NodeId} (hx : h[n]? = some x)
    (hend : Ends (countNode cfg hash s n) h) : HasRoom cfg.bytesSeparator x.data := by
  have htext := (hend.behind (getChildNodes_ok hash hx)).behind (getData_ok hx)
  exact toHexBinaryString_ok_iff.mp (ends_lift_iff.mp htext.of_bind)

/-- The text of a node has room. -/
def NodeHasRoom (cfg : PrintSettings) (h : Heap) (n : NodeId) : Prop :=
  ∃ x, h[n]? = some x ∧ HasRoom cfg.bytesSeparator x.data

/-- The loop over the nodes of a depth. -/
theorem countNodes_ok (hnodes : ∀ n ∈ nodes, NodeHasRoom cfg h n)
    (s : List (JavaString × JavaInt) × List NodeId) :
    nodes.foldlM (countNode cfg hash) s h =
      .ok ((nodes.map (entryOf cfg h)).foldl addTo s.1,
          s.2 ++ nodes.flatMap fun n => hash.order (childIds h n)) h := by
  induction nodes generalizing s with
  | nil =>
    rw [List.flatMap_nil, List.append_nil]
    rfl
  | cons n nodes ih =>
    obtain ⟨⟨x, hx, hroom⟩, hrest⟩ := List.forall_mem_cons.mp hnodes
    rw [List.foldlM_cons, List.flatMap_cons, ← List.append_assoc]
    exact (bind_ok (countNode_ok hx hroom s)).trans (ih hrest _)

/-- It ends only if all texts have room. -/
theorem nodeHasRoom_of_countNodes {s : List (JavaString × JavaInt) × List NodeId}
    (hnodes : ∀ n ∈ nodes, ∃ x, h[n]? = some x)
    (hend : Ends (nodes.foldlM (countNode cfg hash) s) h) : ∀ n ∈ nodes, NodeHasRoom cfg h n := by
  induction nodes generalizing s with
  | nil => exact List.forall_mem_nil _
  | cons n nodes ih =>
    obtain ⟨⟨x, hx⟩, hrest⟩ := List.forall_mem_cons.mp hnodes
    rw [List.foldlM_cons] at hend
    have hroom := hasRoom_of_countNode hx hend.of_bind
    exact List.forall_mem_cons.mpr ⟨⟨x, hx, hroom⟩, ih hrest (hend.behind (countNode_ok hx hroom s))⟩

/-- The sums that are counted at a depth. -/
def levelSums (cfg : PrintSettings) (h : Heap) (nodes : List NodeId) : List (JavaString × JavaInt) :=
  (nodes.map (entryOf cfg h)).foldl addTo []

/-- The node that is shown for the nodes of a depth. -/
def IsShown (cfg : PrintSettings) (entryHash : HashOrder) (h : Heap) (nodes : List NodeId) (node : FlowNode) :
    Prop :=
  firstLargest (entryHash.order (levelSums cfg h nodes)) = some (node.value, node.count)

section Largest

variable {entries : List (JavaString × JavaInt)} {entry max : JavaString × JavaInt}

theorem firstLargest_cons_of_le (hle : ∀ e ∈ entries, e.2.toInt ≤ entry.2.toInt) :
    firstLargest (entry :: entries) = some entry := by
  rw [firstLargest]
  induction entries with
  | nil => rfl
  | cons next entries ih =>
    rw [List.foldl_cons, if_neg (Int.not_lt.mpr (hle next List.mem_cons_self))]
    exact ih fun e he => hle e (List.mem_cons_of_mem _ he)

/-- An entry that is larger takes the place of the one before it. -/
theorem firstLargest_cons_of_lt {next : JavaString × JavaInt} (hlt : entry.2.toInt < next.2.toInt) :
    firstLargest (entry :: next :: entries) = firstLargest (next :: entries) := by
  rw [firstLargest, List.foldl_cons, if_pos hlt]
  rfl

/-- Another one is passed over. -/
theorem firstLargest_cons_of_ge {next : JavaString × JavaInt} (hle : next.2.toInt ≤ entry.2.toInt) :
    firstLargest (entry :: next :: entries) = firstLargest (entry :: entries) := by
  rw [firstLargest, List.foldl_cons, if_neg (Int.not_lt.mpr hle)]
  rfl

/-- None of the entries is larger. -/
theorem firstLargest_spec (hmax : firstLargest entries = some max) :
    max ∈ entries ∧ ∀ e ∈ entries, e.2.toInt ≤ max.2.toInt := by
  cases entries with
  | nil => cases hmax
  | cons entry entries =>
    induction entries generalizing entry with
    | nil =>
      cases hmax
      exact ⟨List.mem_singleton_self _, fun e he => (List.mem_singleton.mp he) ▸ Int.le_refl _⟩
    | cons next entries ih =>
      rcases Int.lt_or_le entry.2.toInt next.2.toInt with hlt | hle
      · rw [firstLargest_cons_of_lt hlt] at hmax
        obtain ⟨hmem, hall⟩ := ih next hmax
        refine ⟨List.mem_cons_of_mem _ hmem, List.forall_mem_cons.mpr ⟨?_, hall⟩⟩
        exact Int.le_trans (Int.le_of_lt hlt) (hall next List.mem_cons_self)
      · rw [firstLargest_cons_of_ge hle] at hmax
        obtain ⟨hmem, hall⟩ := ih entry hmax
        obtain ⟨hentry, hall⟩ := List.forall_mem_cons.mp hall
        refine ⟨?_, List.forall_mem_cons.mpr ⟨hentry, List.forall_mem_cons.mpr ⟨?_, hall⟩⟩⟩
        · exact (List.mem_cons.mp hmem).elim (fun h => h ▸ List.mem_cons_self)
            fun h => List.mem_cons_of_mem _ (List.mem_cons_of_mem _ h)
        · exact Int.le_trans hle hentry

theorem exists_firstLargest (hne : entries ≠ []) : ∃ max, firstLargest entries = some max := by
  cases entries with
  | nil => exact absurd rfl hne
  | cons entry entries => exact ⟨_, rfl⟩

end Largest

/-- The nodes of a depth in the order in which they are counted. -/
def levelNodes (hash : HashOrder) (h : Heap) (root : NodeId) : ℕ → List NodeId
  | 0 => [root]
  | k + 1 => (levelNodes hash h root k).flatMap fun n => hash.order (childIds h n)

/-- These are all nodes of the depth. -/
theorem level_levelNodes (hash : HashOrder) (hl : Linked h root) (k : ℕ) :
    Level (childIds h) root k (levelNodes hash h root k) := by
  induction k with
  | zero => exact level_root (childIds h) root
  | succ k ih => exact ih.below hl.isTree (List.Perm.flatMap_left _ fun n _ => hash.perm (childIds h n))

/-- One node for every depth from `k` to `depth`. -/
def ShowsLevels (cfg : PrintSettings) (hash entryHash : HashOrder) (h : Heap) (root : NodeId)
    (flowIndex k depth : ℕ) (flow : List FlowNode) : Prop :=
  flow.length = depth + 1 - k ∧ ∀ j ≤ depth, k ≤ j → ∃ node, flow[j - k]? = some node ∧
    node.flowIndex = flowIndex + (j - k) ∧ IsShown cfg entryHash h (levelNodes hash h root j) node

theorem levelSums_ne_nil (hne : nodes ≠ []) : levelSums cfg h nodes ≠ [] := by
  intro hnil
  obtain ⟨n, hn⟩ := List.exists_mem_of_ne_nil nodes hne
  have hkey : (entryOf cfg h n).1 ∈ (levelSums cfg h nodes).map Prod.fst :=
    mem_keys_foldl_addTo.mpr (List.mem_map_of_mem (List.mem_map_of_mem hn))
  rw [hnil] at hkey
  exact absurd hkey List.not_mem_nil

/-- A depth with nodes is shown. -/
theorem exists_shown (cfg : PrintSettings) (entryHash : HashOrder) (h : Heap) (hne : nodes ≠ [])
    (flowIndex : ℕ) (label : JavaString) :
    ∃ max, maxEntry (entryHash.order (levelSums cfg h nodes)) h = .ok max h ∧
      IsShown cfg entryHash h nodes ⟨flowIndex, max.1, label, max.2⟩ := by
  have horder : entryHash.order (levelSums cfg h nodes) ≠ [] := fun hnil =>
    levelSums_ne_nil hne (hnil ▸ entryHash.perm (levelSums cfg h nodes)).symm.eq_nil
  obtain ⟨max, hmax⟩ := exists_firstLargest horder
  refine ⟨max, ?_, hmax⟩
  rw [maxEntry, hmax]
  rfl

/-- What is shown for some nodes has a label. -/
def ShownHasLabel (cfg : PrintSettings) (entryHash : HashOrder) (h : Heap) (nodes : List NodeId) : Prop :=
  ∀ node, IsShown cfg entryHash h nodes node → HasLabel cfg node.value

/-- Without nodes nothing is shown. -/
theorem shownHasLabel_nil (cfg : PrintSettings) (entryHash : HashOrder) (h : Heap) :
    ShownHasLabel cfg entryHash h [] := by
  intro node hshown
  exact absurd (firstLargest_spec hshown).1 fun hmem =>
    List.not_mem_nil ((entryHash.perm (levelSums cfg h [])).mem_iff.mp hmem)

/-- A depth is shown if its texts have room and the one that is shown has a label. -/
theorem flowNode_ok (hash : HashOrder) (hroom : ∀ n ∈ nodes, NodeHasRoom cfg h n) (hne : nodes ≠ [])
    (hlabel : ShownHasLabel cfg entryHash h nodes) (flowIndex : ℕ) :
    ∃ node, flowNode cfg hash entryHash flowIndex nodes h =
        .ok (node, nodes.flatMap fun n => hash.order (childIds h n)) h ∧
      node.flowIndex = flowIndex ∧ IsShown cfg entryHash h nodes node := by
  obtain ⟨max, hmax, hshown⟩ := exists_shown cfg entryHash h hne flowIndex []
  obtain ⟨wrapped, hwrapped⟩ := hasLabel_iff.mp (hlabel _ hshown)
  refine ⟨⟨flowIndex, max.1, wrapped, max.2⟩, ?_, rfl, hshown⟩
  exact (bind_ok (countNodes_ok hroom ([], []))).trans ((bind_ok hmax).trans
    ((bind_ok (lift_eq_ok hwrapped h)).trans rfl))

/-- It is only then. -/
theorem fits_of_flowNode (hnodes : ∀ n ∈ nodes, ∃ x, h[n]? = some x) (hne : nodes ≠ [])
    (hend : Ends (flowNode cfg hash entryHash flowIndex nodes) h) :
    (∀ n ∈ nodes, NodeHasRoom cfg h n) ∧ ShownHasLabel cfg entryHash h nodes := by
  rw [flowNode] at hend
  have hroom := nodeHasRoom_of_countNodes hnodes (Ends.of_bind hend)
  obtain ⟨max, hmax, hshown⟩ := exists_shown cfg entryHash h hne flowIndex []
  have hcounted := Ends.behind hend (countNodes_ok hroom ([], []))
  have hrest := Ends.behind hcounted hmax
  refine ⟨hroom, fun node hnode => ?_⟩
  have hvalue : node.value = max.1 := congrArg Prod.fst (Option.some.inj (hnode.symm.trans hshown))
  rw [hvalue]
  exact hasLabel_iff.mpr (ends_lift_iff.mp hrest.of_bind)

/-- All texts of a tree have room. -/
def NodesHaveRoom (cfg : PrintSettings) (h : Heap) (root : NodeId) : Prop :=
  ∀ n, Reachable (childIds h) root n → NodeHasRoom cfg h n

/-- The loop ends only if all texts from its depth on have room and labels. The induction is on the
rounds. -/
theorem fits_of_flowLoop (hl : Linked h root)
    (hend : Ends (flowLoop cfg hash entryHash rounds flowIndex (levelNodes hash h root k)) h) {j : ℕ}
    (hj : k ≤ j) :
    (∀ n ∈ levelNodes hash h root j, NodeHasRoom cfg h n) ∧
      ShownHasLabel cfg entryHash h (levelNodes hash h root j) := by
  have hempty {k : ℕ} (hnil : levelNodes hash h root k = []) {j : ℕ} (hj : k ≤ j) :
      levelNodes hash h root j = [] := by
    induction hj with
    | refl => exact hnil
    | step _ ih => rw [levelNodes, ih, List.flatMap_nil]
  induction rounds generalizing k flowIndex with
  | zero =>
    by_cases hnil : levelNodes hash h root k = []
    · rw [hempty hnil hj]
      exact ⟨List.forall_mem_nil _, shownHasLabel_nil cfg entryHash h⟩
    · obtain ⟨n, nodes, hcons⟩ := List.exists_cons_of_ne_nil hnil
      rw [hcons] at hend
      obtain ⟨flow, h', hrun⟩ := hend
      cases hrun
  | succ rounds ih =>
    by_cases hnil : levelNodes hash h root k = []
    · rw [hempty hnil hj]
      exact ⟨List.forall_mem_nil _, shownHasLabel_nil cfg entryHash h⟩
    · have hnodes : ∀ n ∈ levelNodes hash h root k, ∃ x, h[n]? = some x := fun n hn =>
        hl.exists_node (((level_levelNodes hash hl k).mem n).mp hn).reachable
      obtain ⟨hfits, hnext⟩ : ((∀ n ∈ levelNodes hash h root k, NodeHasRoom cfg h n) ∧
            ShownHasLabel cfg entryHash h (levelNodes hash h root k)) ∧
          Ends (flowLoop cfg hash entryHash rounds (flowIndex + 1) (levelNodes hash h root (k + 1))) h := by
        rw [levelNodes]
        generalize levelNodes hash h root k = nodes at hnil hend hnodes
        obtain ⟨n, nodes, rfl⟩ := List.exists_cons_of_ne_nil hnil
        have hfits := fits_of_flowNode hnodes hnil (Ends.of_bind hend)
        obtain ⟨node, hnode, -⟩ := flowNode_ok hash hfits.1 hnil hfits.2 flowIndex
        exact ⟨hfits, (Ends.behind hend hnode).of_bind⟩
      rcases Nat.eq_or_lt_of_le hj with rfl | hlt
      · exact hfits
      · exact ih hnext hlt

/-- A tree has a flow only if all its texts have room, and what is shown has labels. -/
theorem fits_of_flowNodes (hl : Linked h root) {flow : List FlowNode} {h' : Heap}
    (hrun : flowNodes cfg hash entryHash root flowIndex h = .ok flow h') :
    NodesHaveRoom cfg h root ∧ ∀ k, ShownHasLabel cfg entryHash h (levelNodes hash h root k) := by
  have hend : Ends (flowLoop cfg hash entryHash h.length flowIndex (levelNodes hash h root 0)) h :=
    ⟨flow, h', hrun⟩
  refine ⟨fun n hn => ?_, fun k => (fits_of_flowLoop hl hend (Nat.zero_le k)).2⟩
  obtain ⟨k, hk⟩ := AtDepth.exists_of_reachable hn
  exact (fits_of_flowLoop hl hend (Nat.zero_le k)).1 n (((level_levelNodes hash hl k).mem n).mpr hk)

/-- The loop shows the depths that are left. -/
theorem flowLoop_ok (cfg : PrintSettings) (hash entryHash : HashOrder) {depth : ℕ} (hl : Linked h root)
    (hroom : NodesHaveRoom cfg h root)
    (hlabels : ∀ j ≤ depth, ShownHasLabel cfg entryHash h (levelNodes hash h root j))
    (hend : ∀ n, ¬ AtDepth (childIds h) root (depth + 1) n)
    (hfull : ∀ j ≤ depth, ∃ n, AtDepth (childIds h) root j n) (hk : k ≤ depth + 1)
    (hrounds : depth + 1 ≤ k + rounds) (flowIndex : ℕ) :
    ∃ flow, flowLoop cfg hash entryHash rounds flowIndex (levelNodes hash h root k) h = .ok flow h ∧
      ShowsLevels cfg hash entryHash h root flowIndex k depth flow := by
  have hmem (k : ℕ) := (level_levelNodes hash hl k).mem
  have hstop : levelNodes hash h root (depth + 1) = [] :=
    List.eq_nil_iff_forall_not_mem.mpr fun n hn => hend n ((hmem _ n).mp hn)
  induction rounds generalizing k flowIndex with
  | zero =>
    obtain rfl : k = depth + 1 := le_antisymm hk hrounds
    rw [hstop]
    exact ⟨[], rfl, by simp, fun j hj hkj => absurd hkj (by omega)⟩
  | succ rounds ih =>
    rcases Nat.eq_or_lt_of_le hk with rfl | hlt
    · rw [hstop]
      exact ⟨[], rfl, by simp, fun j hj hkj => absurd hkj (by omega)⟩
    have hlast : k ≤ depth := Nat.lt_succ_iff.mp hlt
    obtain ⟨n, hn⟩ := hfull k hlast
    have hne : levelNodes hash h root k ≠ [] := List.ne_nil_of_mem ((hmem k n).mpr hn)
    obtain ⟨node, hnode, hindex, hshown⟩ := flowNode_ok hash
      (fun n hn => hroom n ((hmem k n).mp hn).reachable) hne (hlabels k hlast) flowIndex
    obtain ⟨flow, hrun, hlength, hflow⟩ := ih (k := k + 1) (by omega) (by omega) (flowIndex + 1)
    have hround : flowLoop cfg hash entryHash (rounds + 1) flowIndex (levelNodes hash h root k) h =
        .ok (node :: flow) h := by
      rw [levelNodes] at hrun
      generalize levelNodes hash h root k = nodes at hne hnode hrun
      obtain ⟨n, nodes, rfl⟩ := List.exists_cons_of_ne_nil hne
      exact (bind_ok hnode).trans ((bind_ok hrun).trans rfl)
    refine ⟨node :: flow, hround, ?_, fun j hj hkj => ?_⟩
    · rw [List.length_cons, hlength]
      omega
    · rcases Nat.eq_or_lt_of_le hkj with rfl | hlt
      · rw [Nat.sub_self]
        exact ⟨node, rfl, hindex, hshown⟩
      · obtain ⟨next, hnext, hindex, hshown'⟩ := hflow j hj hlt
        have hsub : j - k = j - (k + 1) + 1 := by omega
        refine ⟨next, by rw [hsub, List.getElem?_cons_succ, hnext], ?_, hshown'⟩
        rw [hindex]
        omega

/-- The nodes of the flow of a tree are found, and show every depth. -/
theorem flowNodes_ok (cfg : PrintSettings) (hash entryHash : HashOrder) {depth : ℕ} (hl : Linked h root)
    (hroom : NodesHaveRoom cfg h root)
    (hlabels : ∀ j ≤ depth, ShownHasLabel cfg entryHash h (levelNodes hash h root j))
    (hend : ∀ n, ¬ AtDepth (childIds h) root (depth + 1) n)
    (hfull : ∀ j ≤ depth, ∃ n, AtDepth (childIds h) root j n) (hrounds : depth < h.length) (flowIndex : ℕ) :
    ∃ flow, flowNodes cfg hash entryHash root flowIndex h = .ok flow h ∧
      ShowsLevels cfg hash entryHash h root flowIndex 0 depth flow := by
  have hdepth : depth + 1 ≤ 0 + h.length := by omega
  obtain ⟨flow, hrun, hshows⟩ :=
    flowLoop_ok cfg hash entryHash (k := 0) hl hroom hlabels hend hfull (Nat.zero_le _) hdepth flowIndex
  exact ⟨flow, hrun, hshows⟩

/-- They are printed. -/
theorem printFlow_ok {flow : List FlowNode}
    (hnodes : flowNodes cfg hash entryHash root flowIndex h = .ok flow h) (lineSeparator : JavaString)
    (hexColor : JavaInt → JavaInt → JavaString) (packetsCount : JavaInt) (lines : List JavaString) :
    printFlow cfg lineSeparator hexColor hash entryHash root packetsCount flowIndex (h, lines) =
      .ok (flowIndex + flow.length) (h, lines ++ flowLines lineSeparator hexColor packetsCount flow) :=
  bind_ok (lift_ok hnodes lines)

end ApduPlay.PrintedFlow
