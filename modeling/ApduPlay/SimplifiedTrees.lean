import ApduPlay.LinkedTrees
import ApduPlay.PacketGraph

/-!
# Simplifying a tree

Before a tree is printed its nodes are cut into nodes of one byte each. The bytes
before the last one get new nodes, and the node itself, which packets may refer
to, is put in place of the last new one.
-/

namespace ApduPlay.SimplifiedTrees

open LabelForest TreeTraversal PacketGraph PacketNode PacketTree LinkedTrees

/-- `getChildNodes` -/
def getChildNodes (hash : HashOrder) (n : NodeId) : JavaM (List NodeId) := do
  return hash.order ((← load n).childNodes.entries.map Sigma.snd)

/-- One round over the bytes: a new node below the last one. -/
def chainByte (node : NodeId) (data : List UInt8) (lastNode : NodeId) (i : ℕ) : JavaM NodeId := do
  let n ← newNode (← copyOfRange data i (i + 1))
  let count := (← load node).count
  update lastNode fun x => { x with count }
  addChild lastNode n
  return n

/-- The nodes of one byte each for a node of several. -/
def cutNode (node : NodeId) : JavaM Unit := do
  let data ← getData node
  if data.length > 1 then
    let firstNode ← newNode (← copyOfRange data 0 1)
    let lastNode ← (List.range' 1 (data.length - 1)).foldlM (chainByte node data) firstNode
    addChild (← getParent node) firstNode
    let lastData ← getData lastNode
    update node fun x => { x with data := lastData }
    addChild (← getParent lastNode) node

/-- The loop over the queue, with the number of rounds bounded. A loop that never
ends is an exception here as well. -/
def simplifyLoop (hash : HashOrder) : ℕ → List NodeId → JavaM Unit
  | _, [] => pure ()
  | 0, _ :: _ => throw .nullPointer
  | rounds + 1, node :: queue => do
    cutNode node
    let childNodes ← getChildNodes hash node
    simplifyLoop hash rounds (queue ++ childNodes)

/-- `simplifyNodes` below a root; there are not more rounds than nodes. -/
def simplifyBelow (hash : HashOrder) (node : NodeId) : JavaM Unit := do
  let rounds := (← get).length
  let queue ← getChildNodes hash node
  simplifyLoop hash rounds queue

/-- `simplifyNodes` -/
def simplifyNodes (hash : HashOrder) (t : Tree) : JavaM Unit := do
  simplifyBelow hash t.root
  simplifyBelow hash t.receivedRoot

/-- The new nodes for some bytes, from an identifier on. -/
def chain (count : JavaInt) : NodeId → Option NodeId → List UInt8 → List Node
  | _, _, [] => []
  | _, parent, [b] => [⟨[b], ∅, parent, 1⟩]
  | m, parent, b :: c :: rest =>
    ⟨[b], (∅ : AList fun _ : UInt8 => NodeId).insert c (m + 1), parent, count⟩ ::
      chain count (m + 1) (some m) (c :: rest)

variable {h h' : Heap} {n p m : NodeId} {x y : Node} {b d : UInt8} {data rest : List UInt8}
  {count : JavaInt} {k : ℕ}

/-- The children of a node in the order of the hash map. -/
theorem getChildNodes_ok (hash : HashOrder) (hx : h[n]? = some x) :
    getChildNodes hash n h = .ok (hash.order (childIds h n)) h := by
  rw [childIds, hx]
  exact bind_ok (load_ok hx)

/-- Changing the first item behind others. -/
theorem modify_append_length {α : Type} (g : List α) (a : α) (l : List α) (f : α → α) :
    (g ++ a :: l).modify g.length f = g ++ f a :: l := by
  induction g with
  | nil => rfl
  | cons a' g ih => exact congrArg (a' :: ·) ih

/-- The first item behind others. -/
theorem getElem?_append_length {α : Type} (g : List α) (a : α) (l : List α) :
    (g ++ a :: l)[g.length]? = some a := by
  rw [List.getElem?_append_right (Nat.le_refl _), Nat.sub_self]
  rfl

/-- One round hangs the node of the next byte below the last node. -/
theorem chainByte_ok {g : Heap} {i : ℕ} (hn : g[n]? = some x) (hi : data[i]? = some d)
    (b : UInt8) (parent : Option NodeId) :
    chainByte n data g.length i (g ++ [⟨[b], ∅, parent, 1⟩]) =
      .ok (g.length + 1)
        (g ++ [⟨[b], (∅ : AList fun _ : UInt8 => NodeId).insert d (g.length + 1), parent, x.count⟩,
        ⟨[d], ∅, some g.length, 1⟩]) := by
  obtain ⟨hlt, hget⟩ := List.getElem?_eq_some_iff.mp hi
  have hbyte : (data.drop i).take (i + 1 - i) = [d] := by
    rw [Nat.add_sub_cancel_left, List.drop_eq_getElem_cons hlt, hget]
    rfl
  let last : Node := ⟨[b], ∅, parent, 1⟩
  let new : Node := ⟨[d], ∅, none, 1⟩
  have hcopy := copyOfRange_ok (Nat.le_succ i) hlt (g ++ [last])
  rw [hbyte] at hcopy
  have hnew : newNode [d] (g ++ [last]) = .ok (g.length + 1) (g ++ [last, new]) := by
    rw [newNode_ok, List.length_append, List.length_singleton, List.append_assoc]
    rfl
  have hload : load n (g ++ [last, new]) = .ok x (g ++ [last, new]) :=
    load_ok ((List.getElem?_append_left (lt_length hn)).trans hn)
  have hcount : update g.length (fun x' => { x' with count := x.count }) (g ++ [last, new]) =
      .ok () (g ++ [{ last with count := x.count }, new]) := by
    rw [update_ok (getElem?_append_length g last [new]), modify_append_length]
  have hsecond : (g ++ [{ last with count := x.count }, new])[g.length + 1]? = some new := by
    rw [List.getElem?_append_right (Nat.le_add_right _ 1), Nat.add_sub_cancel_left]
    rfl
  have hlink := addChild_ok hsecond rfl (getElem?_append_length g { last with count := x.count } [new])
  refine (bind_ok hcopy).trans ((bind_ok hnew).trans ((bind_ok hload).trans ((bind_ok hcount).trans ?_)))
  refine (bind_ok hlink).trans ?_
  refine congrArg (EStateM.Result.ok (g.length + 1)) ?_
  have hsplit :
      g ++ [{ last with count := x.count }, new] = (g ++ [{ last with count := x.count }]) ++ [new] := by
    rw [List.append_assoc]
    rfl
  have hlength : (g ++ [{ last with count := x.count }]).length = g.length + 1 := by
    rw [List.length_append, List.length_singleton]
  rw [linkChild, hsplit, ← hlength, modify_append_length, List.append_assoc, hlength]
  exact modify_append_length g _ _ _

/-- The loop over the bytes makes the chain of new nodes. -/
theorem chainLoop_ok {g : Heap} {i : ℕ} (hn : g[n]? = some x) (hdata : data.drop (i + 1) = rest)
    (b : UInt8) (parent : Option NodeId) :
    (List.range' (i + 1) rest.length).foldlM (chainByte n data) g.length (g ++ [⟨[b], ∅, parent, 1⟩]) =
      .ok (g.length + rest.length) (g ++ chain x.count g.length parent (b :: rest)) := by
  induction rest generalizing g i b parent with
  | nil => rfl
  | cons d rest ih =>
    have hi : data[i + 1]? = some d := by
      rw [← List.head?_drop, hdata]
      rfl
    have hdrop : data.drop (i + 1 + 1) = rest := by
      rw [← List.drop_drop, hdata]
      rfl
    let last : Node := ⟨[b], (∅ : AList fun _ : UInt8 => NodeId).insert d (g.length + 1), parent, x.count⟩
    have hold : (g ++ [last])[n]? = some x := (List.getElem?_append_left (lt_length hn)).trans hn
    have hrest := ih hold hdrop d (some g.length)
    rw [List.length_append, List.length_singleton, List.append_assoc, List.append_assoc] at hrest
    rw [List.length_cons, List.range'_succ, List.foldlM_cons]
    refine (bind_ok (chainByte_ok hn hi b parent)).trans (hrest.trans ?_)
    rw [chain, Nat.add_assoc, Nat.add_comm 1]
    rfl

/-- A chain has a node for each byte. -/
theorem length_chain (count : JavaInt) (m : NodeId) (parent : Option NodeId) (data : List UInt8) :
    (chain count m parent data).length = data.length := by
  induction data generalizing m parent with
  | nil => rfl
  | cons b rest ih =>
    cases rest with
    | nil => rfl
    | cons c rest => exact congrArg (· + 1) (ih (m + 1) (some m))

/-- What is above the node at a place of a chain. -/
def aboveAt (m : NodeId) (parent : Option NodeId) (j : ℕ) : Option NodeId :=
  if j = 0 then parent else some (m + j - 1)

/-- The node above, counted from the next one. -/
theorem aboveAt_succ (m : NodeId) (parent : Option NodeId) (j : ℕ) :
    aboveAt (m + 1) (some m) j = aboveAt m parent (j + 1) := by
  rw [aboveAt, aboveAt, if_neg (Nat.succ_ne_zero j)]
  split_ifs with hj
  · rw [hj]
    rfl
  · exact congrArg (fun i => some (i - 1)) (Nat.add_right_comm m 1 j)

/-- A node of a chain, with the one below it if there is one. -/
theorem getElem?_chain {j : ℕ} (hb : data[j]? = some b) (count : JavaInt) (m : NodeId)
    (parent : Option NodeId) :
    (chain count m parent data)[j]? = some (match data[j + 1]? with
      | some c => ⟨[b], (∅ : AList fun _ : UInt8 => NodeId).insert c (m + j + 1), aboveAt m parent j, count⟩
      | none => ⟨[b], ∅, aboveAt m parent j, 1⟩) := by
  induction data generalizing j m parent with
  | nil => cases hb
  | cons d rest ih =>
    cases rest with
    | nil =>
      cases j with
      | zero =>
        cases hb
        rfl
      | succ j => cases hb
    | cons c rest =>
      cases j with
      | zero =>
        cases hb
        rfl
      | succ j =>
        rw [chain, List.getElem?_cons_succ, List.getElem?_cons_succ]
        refine (ih hb (m + 1) (some m)).trans ?_
        rw [aboveAt_succ m parent, Nat.add_right_comm m 1 j]
        rfl

/-- The heap after a node was cut into the nodes of its bytes, from `b` to `d`. -/
def cutHeap (h : Heap) (n p : NodeId) (x : Node) (b d : UInt8) : Heap :=
  linkChild ((linkChild (h ++ chain x.count h.length none x.data) p h.length b).modify n
    fun x' => { x' with data := [d] }) (h.length + x.data.length - 2) n d

/-- The nodes after a cut. -/
theorem getElem?_cutHeap (h : Heap) (n p : NodeId) (x : Node) (b d : UInt8) (i : NodeId) :
    (cutHeap h n p x b d)[i]? = (h ++ chain x.count h.length none x.data)[i]?.map fun y =>
      { y with
        data := if i = n then [d] else y.data
        parent := if i = n then some (h.length + x.data.length - 2)
          else if i = h.length then some p else y.parent
        childNodes :=
          let linked := if i = p then y.childNodes.insert b h.length else y.childNodes
          if i = h.length + x.data.length - 2 then linked.insert d n else linked } := by
  rw [cutHeap, getElem?_linkChild, List.getElem?_modify, getElem?_linkChild]
  cases (h ++ chain x.count h.length none x.data)[i]? with
  | none => rfl
  | some y =>
    by_cases hin : n = i
    · subst hin
      simp
    · simp [hin, Ne.symm hin]

/-- A node with one byte is left alone. -/
theorem cutNode_single (hx : h[n]? = some x) (hlen : x.data.length ≤ 1) : cutNode n h = .ok () h := by
  refine (bind_ok (getData_ok hx)).trans ?_
  rw [if_neg (not_lt.mpr hlen)]
  rfl

/-- A node with several bytes is cut. -/
theorem cutNode_ok (hx : h[n]? = some x) (hp : x.parent = some p) (hy : h[p]? = some y)
    (hb : x.data.head? = some b) (hd : x.data.getLast? = some d) (hlen : 1 < x.data.length) :
    cutNode n h = .ok () (cutHeap h n p x b d) := by
  obtain ⟨rest, hdata⟩ : ∃ rest, x.data = b :: rest := by
    cases hcons : x.data with
    | nil =>
      rw [hcons] at hb
      cases hb
    | cons b' rest =>
      rw [hcons] at hb
      cases hb
      exact ⟨rest, rfl⟩
  have hlength : x.data.length = rest.length + 1 := by rw [hdata, List.length_cons]
  let m := h.length
  let made := h ++ chain x.count m none x.data
  have hold {i : NodeId} {z : Node} (hz : h[i]? = some z) : made[i]? = some z :=
    (List.getElem?_append_left (lt_length hz)).trans hz
  have hcopy := copyOfRange_ok (Nat.zero_le 1) hlen.le h
  have hfirst : (x.data.drop 0).take (1 - 0) = [b] := by rw [hdata]; rfl
  rw [hfirst] at hcopy
  have hdrop : x.data.drop (0 + 1) = rest := by rw [hdata]; rfl
  have hloop := chainLoop_ok hx hdrop b none
  rw [← hdata] at hloop
  have hrounds : x.data.length - 1 = rest.length := by rw [hlength, Nat.add_sub_cancel]
  have hpos : 0 < rest.length := by omega
  have hmade {j : ℕ} {z : Node} (hz : (chain x.count m none x.data)[j]? = some z) :
      made[m + j]? = some z := by
    rw [List.getElem?_append_right (Nat.le_add_right m j), Nat.add_sub_cancel_left, hz]
  obtain ⟨z, hz, hzb⟩ : ∃ z : Node, made[m]? = some z ∧ z.data.head? = some b := by
    have h0 : x.data[0]? = some b := by rw [hdata]; rfl
    refine ⟨_, hmade (getElem?_chain h0 x.count m none), ?_⟩
    cases x.data[0 + 1]? <;> rfl
  have hlink := addChild_ok hz hzb (hold hy)
  let placed := linkChild made p m b
  have hplaced {i : NodeId} {z : Node} (hz : made[i]? = some z) :
      ∃ z', placed[i]? = some z' ∧ z'.data = z.data ∧ (i ≠ m → z'.parent = z.parent) := by
    have hget := getElem?_linkChild made p m i b
    rw [hz, Option.map_some] at hget
    exact ⟨_, hget, rfl, fun hne => if_neg hne⟩
  have hlast : x.data[rest.length]? = some d := by
    rw [← hd, List.getLast?_eq_getElem?, hrounds]
  have hnone : x.data[rest.length + 1]? = none := List.getElem?_eq_none hlength.le
  have hlastNode := hmade (getElem?_chain hlast x.count m none)
  rw [hnone] at hlastNode
  have hmne : m + rest.length ≠ m := by omega
  obtain ⟨z₁, hz₁, hz₁d, hz₁p⟩ := hplaced hlastNode
  obtain ⟨x₁, hx₁, -⟩ := hplaced (hold hx)
  let moved := placed.modify n fun x' => { x' with data := [d] }
  have hnm : n ≠ m + rest.length := ne_of_lt ((lt_length hx).trans_le (Nat.le_add_right _ _))
  have hz₂ : moved[m + rest.length]? = some z₁ := by
    rw [List.getElem?_modify, hz₁]
    simp [hnm]
  have hx₂ : moved[n]? = some { x₁ with data := [d] } := by
    rw [List.getElem?_modify_eq, hx₁]
    rfl
  have habove : z₁.parent = some (m + x.data.length - 2) := by
    rw [hz₁p hmne]
    show aboveAt m none rest.length = _
    have hindex : h.length + rest.length - 1 = h.length + x.data.length - 2 := by omega
    rw [aboveAt, if_neg hpos.ne', hindex]
  obtain ⟨y₁, hy₁⟩ : ∃ y₁, moved[m + x.data.length - 2]? = some y₁ := by
    have hlt : m + x.data.length - 2 < moved.length := by
      simp only [moved, placed, made, linkChild, List.length_modify, List.length_append, length_chain, m]
      omega
    exact ⟨_, List.getElem?_eq_getElem hlt⟩
  refine (bind_ok (getData_ok hx)).trans ?_
  rw [if_pos hlen]
  refine (bind_ok hcopy).trans ((bind_ok (newNode_ok [b] h)).trans ?_)
  rw [hrounds]
  refine (bind_ok hloop).trans ((bind_ok (getParent_ok (hold hx) hp)).trans ?_)
  refine (bind_ok hlink).trans ((bind_ok (getData_ok hz₁)).trans ?_)
  rw [hz₁d]
  refine (bind_ok (update_ok hx₁ _)).trans ((bind_ok (getParent_ok hz₂ habove)).trans ?_)
  exact addChild_ok hx₂ rfl hy₁

/-- A map with one entry. -/
theorem lookup_insert_iff {s : AList fun _ : UInt8 => NodeId} {a : UInt8} {c : NodeId}
    (hs : ∀ a, b ≠ a → s.lookup a = none) : (s.insert b m).lookup a = some c ↔ some b = some a ∧ c = m := by
  rw [Option.some.injEq]
  by_cases hba : b = a
  · subst hba
    rw [AList.lookup_insert, Option.some.injEq, and_iff_right rfl, eq_comm]
  · rw [AList.lookup_insert_ne (Ne.symm hba), hs a hba]
    exact ⟨fun h => (nomatch h), fun h => absurd h.1 hba⟩

/-- What cutting a node below `p` changes. -/
structure Cut (h : Heap) (n p : NodeId) (x y : Node) (h' : Heap) : Prop where
  /-- No node is lost. -/
  length_le : h.length ≤ h'.length
  /-- Other nodes stay as they are. -/
  frame : ∀ {i : NodeId}, i < h.length → i ≠ n → i ≠ p → h'[i]? = h[i]?
  /-- The first new node takes the place of the old one. -/
  top : ∃ b, x.data.head? = some b ∧
    h'[p]? = some { y with childNodes := y.childNodes.insert b h.length }
  /-- The old node keeps the last byte, below the last new one. -/
  node : h'[n]? = some { x with
    data := x.data.drop (x.data.length - 1), parent := some (h.length + x.data.length - 2) }
  /-- A new node has one byte and the next node below it. -/
  made : ∀ {j : ℕ}, j + 1 < x.data.length → ∃ z : Node, h'[h.length + j]? = some z ∧
    z.data = (x.data.drop j).take 1 ∧ z.parent = aboveAt h.length (some p) j ∧ z.count = x.count ∧
    ∀ a c, z.childNodes.lookup a = some c ↔
      x.data[j + 1]? = some a ∧ c = if j + 2 = x.data.length then n else h.length + j + 1

/-- They are cut as they should be. -/
theorem cut_cutHeap (hx : h[n]? = some x) (hy : h[p]? = some y) (hne : n ≠ p)
    (hb : x.data.head? = some b) (hd : x.data.getLast? = some d) (hlen : 1 < x.data.length) :
    Cut h n p x y (cutHeap h n p x b d) := by
  have hold {i : NodeId} {z : Node} (hz : h[i]? = some z) : (cutHeap h n p x b d)[i]? = some { z with
      data := if i = n then [d] else z.data
      parent := if i = n then some (h.length + x.data.length - 2) else z.parent
      childNodes := if i = p then z.childNodes.insert b h.length else z.childNodes } := by
    have hi := lt_length hz
    have hfirst : i ≠ h.length := hi.ne
    have hle : h.length ≤ h.length + x.data.length - 2 := by omega
    have hlast : i ≠ h.length + x.data.length - 2 := (hi.trans_le hle).ne
    rw [getElem?_cutHeap, List.getElem?_append_left hi, hz, Option.map_some, if_neg hfirst, if_neg hlast]
  constructor
  · simp only [cutHeap, linkChild, List.length_modify, List.length_append]
    exact Nat.le_add_right _ _
  · intro i hi hin hip
    obtain ⟨z, hz⟩ : ∃ z, h[i]? = some z := ⟨_, List.getElem?_eq_getElem hi⟩
    rw [hold hz, hz, if_neg hin, if_neg hin, if_neg hip]
  · refine ⟨b, hb, ?_⟩
    rw [hold hy, if_neg (Ne.symm hne), if_neg (Ne.symm hne), if_pos rfl]
  · have hdrop : x.data.drop (x.data.length - 1) = [d] := by
      obtain ⟨front, hfront⟩ := List.getLast?_eq_some_iff.mp hd
      rw [hfront, List.length_append, List.length_singleton, Nat.add_sub_cancel, List.drop_left]
    rw [hold hx, if_pos rfl, if_pos rfl, if_neg hne, hdrop]
  · intro j hj
    have hnext : x.data[j + 1]? = some x.data[j + 1] := List.getElem?_eq_getElem hj
    have hbyte : x.data[j]? = some x.data[j] := List.getElem?_eq_getElem (Nat.lt_of_succ_lt hj)
    have hchain := getElem?_chain hbyte x.count h.length none
    rw [hnext] at hchain
    have hnode : h.length + j ≠ n := ((lt_length hx).trans_le (Nat.le_add_right _ j)).ne'
    have habove : h.length + j ≠ p := ((lt_length hy).trans_le (Nat.le_add_right _ j)).ne'
    have hget := getElem?_cutHeap h n p x b d (h.length + j)
    rw [List.getElem?_append_right (Nat.le_add_right _ j), Nat.add_sub_cancel_left, hchain,
      Option.map_some] at hget
    simp only [if_neg hnode, if_neg habove] at hget
    refine ⟨_, hget, ?_, ?_, rfl, fun a c => ?_⟩
    · rw [List.drop_eq_getElem_cons (Nat.lt_of_succ_lt hj)]
      rfl
    · simp only [aboveAt]
      by_cases hj0 : j = 0
      · simp [hj0]
      · simp [hj0]
    · have hlastIndex : h.length + j = h.length + x.data.length - 2 ↔ j + 2 = x.data.length := by omega
      simp only [hlastIndex, hnext]
      have hsingle : ∀ a, x.data[j + 1] ≠ a → ((∅ : AList fun _ : UInt8 => NodeId).insert x.data[j + 1]
          (h.length + j + 1)).lookup a = none := fun a ha => by
        rw [AList.lookup_insert_ne (Ne.symm ha), AList.lookup_empty]
      by_cases hlast : j + 2 = x.data.length
      · have hbd : d = x.data[j + 1] := by
          rw [List.getLast?_eq_getElem?, ← hlast] at hd
          exact Option.some.inj (hd.symm.trans hnext)
        rw [if_pos hlast, if_pos hlast, hbd]
        exact lookup_insert_iff hsingle
      · rw [if_neg hlast, if_neg hlast]
        exact lookup_insert_iff fun a _ => AList.lookup_empty a

/-- A node of a tree that is cut. -/
structure CutIn (h : Heap) (r n p : NodeId) (x y : Node) (h' : Heap) : Prop extends Cut h n p x y h' where
  /-- The tree. -/
  linked : Linked h r
  /-- The node. -/
  node_eq : h[n]? = some x
  /-- The node above it. -/
  above_eq : h[p]? = some y
  /-- It is in the tree. -/
  above_reachable : Reachable (childIds h) r p
  /-- The node is below it. -/
  mem_childIds : n ∈ childIds h p
  /-- The node has several bytes. -/
  one_lt : 1 < x.data.length

variable {r i c : NodeId} {w : List UInt8}

/-- The node that is cut has a parent. -/
theorem CutIn.parent (hc : CutIn h r n p x y h') : x.parent = some p := by
  obtain ⟨x', -, -, hx', -, hparent, -⟩ := hc.linked.child hc.above_reachable hc.mem_childIds
  rw [hc.node_eq, Option.some.injEq] at hx'
  rwa [hx']

/-- It belongs to the tree. -/
theorem CutIn.reachable (hc : CutIn h r n p x y h') : Reachable (childIds h) r n :=
  .child hc.above_reachable hc.mem_childIds

/-- The node is stored under its first byte. -/
theorem CutIn.lookup (hc : CutIn h r n p x y h') {a : UInt8} :
    y.childNodes.lookup a = some n ↔ x.data.head? = some a := by
  obtain ⟨x', y', b, hx', hy', -, hb, hlookup⟩ := hc.linked.child hc.above_reachable hc.mem_childIds
  rw [hc.node_eq, Option.some.injEq] at hx'
  rw [hc.above_eq, Option.some.injEq] at hy'
  rw [← hx'] at hb
  rw [← hy'] at hlookup
  constructor
  · intro ha
    obtain ⟨x', hx', -, hhead⟩ := hc.linked.children hc.above_reachable hc.above_eq ha
    rw [hc.node_eq, Option.some.injEq] at hx'
    rwa [hx']
  · intro ha
    rw [hb, Option.some.injEq] at ha
    rwa [← ha]

/-- It is not its own parent. -/
theorem CutIn.ne (hc : CutIn h r n p x y h') : n ≠ p :=
  hc.linked.child_ne hc.above_reachable hc.mem_childIds

/-- Nodes other than the one above keep their children. -/
theorem CutIn.childIds_eq (hc : CutIn h r n p x y h') (hi : i < h.length) (hip : i ≠ p) :
    childIds h' i = childIds h i := by
  by_cases hin : i = n
  · subst hin
    rw [childIds, childIds, hc.node, hc.node_eq]
  · rw [childIds, childIds, hc.frame hi hin hip]

/-- The node above has the first new node in place of the old one. -/
theorem CutIn.mem_childIds_top (hc : CutIn h r n p x y h') :
    c ∈ childIds h' p ↔ c = h.length ∨ c ≠ n ∧ c ∈ childIds h p := by
  obtain ⟨b, hb, htop⟩ := hc.top
  have hkey {a : UInt8} : y.childNodes.lookup a = some n ↔ a = b := by
    rw [hc.lookup, hb, Option.some.injEq, eq_comm]
  rw [LinkedTrees.mem_childIds htop, LinkedTrees.mem_childIds hc.above_eq]
  constructor
  · rintro ⟨a, ha⟩
    by_cases hab : a = b
    · subst hab
      rw [AList.lookup_insert, Option.some.injEq] at ha
      exact Or.inl ha.symm
    · rw [AList.lookup_insert_ne hab] at ha
      refine Or.inr ⟨?_, a, ha⟩
      rintro rfl
      exact hab (hkey.mp ha)
  · rintro (rfl | ⟨hcn, a, ha⟩)
    · exact ⟨b, AList.lookup_insert _⟩
    · refine ⟨a, ?_⟩
      rw [AList.lookup_insert_ne, ha]
      rintro rfl
      rw [hkey.mpr rfl, Option.some.injEq] at ha
      exact hcn ha.symm

/-- What is below a new node. -/
def belowAt (h : Heap) (n : NodeId) (data : List UInt8) (j : ℕ) : NodeId :=
  if j + 2 = data.length then n else h.length + j + 1

/-- A new node has one child. -/
theorem CutIn.mem_childIds_made (hc : CutIn h r n p x y h') {j : ℕ} (hj : j + 1 < x.data.length) :
    c ∈ childIds h' (h.length + j) ↔ c = belowAt h n x.data j := by
  obtain ⟨z, hz, -, -, -, hlookup⟩ := hc.made hj
  rw [LinkedTrees.mem_childIds hz]
  constructor
  · rintro ⟨a, ha⟩
    exact ((hlookup a c).mp ha).2
  · intro heq
    exact ⟨x.data[j + 1], (hlookup _ c).mpr ⟨List.getElem?_eq_getElem hj, heq⟩⟩

/-- The new nodes are below the node above. -/
theorem CutIn.reachable_made (hc : CutIn h r n p x y h') (hp : Reachable (childIds h') r p) {j : ℕ}
    (hj : j + 1 < x.data.length) : Reachable (childIds h') r (h.length + j) := by
  induction j with
  | zero => exact .child hp (hc.mem_childIds_top.mpr (Or.inl rfl))
  | succ j ih =>
    refine .child (ih (Nat.lt_of_succ_lt hj)) ((hc.mem_childIds_made (Nat.lt_of_succ_lt hj)).mpr ?_)
    have hinner : j + 2 ≠ x.data.length := hj.ne
    exact (if_neg hinner).symm

/-- What was in the tree is still in it. -/
theorem CutIn.reachable_old (hc : CutIn h r n p x y h') (hi : Reachable (childIds h) r i) :
    Reachable (childIds h') r i := by
  induction hi with
  | root => exact .root
  | @child q c hq hcq ih =>
    obtain ⟨z, hz⟩ := hc.linked.exists_node hq
    by_cases hcn : c = n
    · subst hcn
      have hqp : q = p := by
        have := hc.linked.isTree.parent_child hq hcq
        rw [hc.linked.isTree.parent_child hc.above_reachable hc.mem_childIds, Option.some.injEq] at this
        exact this.symm
      rw [hqp] at ih
      have hlast : x.data.length - 2 + 1 < x.data.length := by
        have := hc.one_lt
        omega
      refine .child (hc.reachable_made ih hlast) ((hc.mem_childIds_made hlast).mpr ?_)
      have hend : x.data.length - 2 + 2 = x.data.length := by
        have := hc.one_lt
        omega
      exact (if_pos hend).symm
    · by_cases hqp : q = p
      · subst hqp
        exact .child ih (hc.mem_childIds_top.mpr (Or.inr ⟨hcn, hcq⟩))
      · refine .child ih ?_
        rwa [hc.childIds_eq (lt_length hz) hqp]

/-- Only the new nodes came into it. -/
theorem CutIn.reachable_cases (hc : CutIn h r n p x y h') (hi : Reachable (childIds h') r i) :
    Reachable (childIds h) r i ∨ ∃ j, j + 1 < x.data.length ∧ i = h.length + j := by
  induction hi with
  | root => exact Or.inl .root
  | @child q c _ hcq ih =>
    rcases ih with hq | ⟨j, hj, rfl⟩
    · obtain ⟨z, hz⟩ := hc.linked.exists_node hq
      by_cases hqp : q = p
      · subst hqp
        rcases hc.mem_childIds_top.mp hcq with rfl | ⟨-, hcq⟩
        · exact Or.inr ⟨0, hc.one_lt, rfl⟩
        · exact Or.inl (.child hq hcq)
      · rw [hc.childIds_eq (lt_length hz) hqp] at hcq
        exact Or.inl (.child hq hcq)
    · rw [hc.mem_childIds_made hj, belowAt] at hcq
      split_ifs at hcq with hlast
      · rw [hcq]
        exact Or.inl hc.reachable
      · exact Or.inr ⟨j + 1, by omega, hcq⟩

/-- The first byte of a piece. -/
theorem head?_take_drop (data : List UInt8) (j : ℕ) : ((data.drop j).take 1).head? = data[j]? := by
  rw [← List.head?_drop]
  cases data.drop j <;> rfl

/-- Nodes that are not cut keep their data, their parents and their counts. -/
theorem CutIn.kept (hc : CutIn h r n p x y h') {z : Node} (hz : h[i]? = some z) (hin : i ≠ n) :
    ∃ z', h'[i]? = some z' ∧ z'.data = z.data ∧ z'.parent = z.parent ∧ z'.count = z.count := by
  by_cases hip : i = p
  · obtain ⟨b, -, htop⟩ := hc.top
    rw [hip, hc.above_eq, Option.some.injEq] at hz
    rw [hip, ← hz]
    exact ⟨_, htop, rfl, rfl, rfl⟩
  · exact ⟨z, (hc.frame (lt_length hz) hin hip).trans hz, rfl, rfl, rfl⟩

/-- A node with another parent is not the one that is cut. -/
theorem CutIn.ne_of_parent (hc : CutIn h r n p x y h') {z : Node} (hz : h[i]? = some z)
    (hp : z.parent ≠ some p) :
    i ≠ n := by
  rintro rfl
  rw [hc.node_eq, Option.some.injEq] at hz
  exact hp (hz ▸ hc.parent)

/-- A child of a node that was there. -/
theorem CutIn.linked_old (hc : CutIn h r n p x y h') {q : NodeId} {z : Node} {a : UInt8}
    (hq : Reachable (childIds h) r q) (hz : h'[q]? = some z) (ha : z.childNodes.lookup a = some c) :
    ∃ x', h'[c]? = some x' ∧ x'.parent = some q ∧ x'.data.head? = some a := by
  have hbelow {y' : Node} (hy' : h[q]? = some y') (ha : y'.childNodes.lookup a = some c) (hcn : c ≠ n) :
      ∃ x', h'[c]? = some x' ∧ x'.parent = some q ∧ x'.data.head? = some a := by
    obtain ⟨x', hx', hparent, hhead⟩ := hc.linked.children hq hy' ha
    obtain ⟨z', hz', hdata, habove, -⟩ := hc.kept hx' hcn
    exact ⟨z', hz', habove.trans hparent, hdata ▸ hhead⟩
  by_cases hqp : q = p
  · subst hqp
    obtain ⟨b, hb, htop⟩ := hc.top
    rw [htop, Option.some.injEq] at hz
    rw [← hz] at ha
    by_cases hab : a = b
    · subst hab
      rw [AList.lookup_insert, Option.some.injEq] at ha
      obtain ⟨z', hz', hdata, habove, -⟩ := hc.made hc.one_lt
      refine ⟨z', ha ▸ hz', habove, ?_⟩
      rw [hdata, head?_take_drop, ← List.head?_eq_getElem?]
      exact hb
    · rw [AList.lookup_insert_ne hab] at ha
      refine hbelow hc.above_eq ha ?_
      rintro rfl
      rw [hc.lookup, hb, Option.some.injEq] at ha
      exact hab ha.symm
  · obtain ⟨y', hy'⟩ := hc.linked.exists_node hq
    have hsame : z.childNodes = y'.childNodes := by
      by_cases hqn : q = n
      · subst hqn
        rw [hc.node, Option.some.injEq] at hz
        rw [hc.node_eq, Option.some.injEq] at hy'
        rw [← hz, ← hy']
      · rw [hc.frame (lt_length hy') hqn hqp, hy', Option.some.injEq] at hz
        rw [hz]
    rw [hsame] at ha
    refine hbelow hy' ha ?_
    obtain ⟨x', hx', hparent, -⟩ := hc.linked.children hq hy' ha
    refine hc.ne_of_parent hx' ?_
    rw [hparent, Ne, Option.some.injEq]
    exact hqp

/-- The child of a new node. -/
theorem CutIn.linked_made (hc : CutIn h r n p x y h') {j : ℕ} (hj : j + 1 < x.data.length) {z : Node}
    {a : UInt8}
    (hz : h'[h.length + j]? = some z) (ha : z.childNodes.lookup a = some c) :
    ∃ x', h'[c]? = some x' ∧ x'.parent = some (h.length + j) ∧ x'.data.head? = some a := by
  obtain ⟨z', hz', -, -, -, hlookup⟩ := hc.made hj
  rw [hz, Option.some.injEq] at hz'
  rw [← hz'] at hlookup
  obtain ⟨hbyte, hbelow⟩ := (hlookup a c).mp ha
  by_cases hlast : j + 2 = x.data.length
  · rw [if_pos hlast] at hbelow
    have habove : h.length + x.data.length - 2 = h.length + j := by omega
    have hend : x.data.length - 1 = j + 1 := by omega
    refine ⟨_, hbelow ▸ hc.node, congrArg some habove, ?_⟩
    rw [hend, List.head?_drop]
    exact hbyte
  · rw [if_neg hlast] at hbelow
    obtain ⟨x', hx', hdata, hparent, -⟩ := hc.made (show j + 1 + 1 < x.data.length by omega)
    refine ⟨x', hbelow ▸ hx', hparent, ?_⟩
    rw [hdata, head?_take_drop]
    exact hbyte

/-- The tree stays a tree. -/
theorem CutIn.linked_after (hc : CutIn h r n p x y h') : Linked h' r := by
  constructor
  · obtain ⟨z, hz, hnone⟩ := hc.linked.root
    obtain ⟨z', hz', -, hparent, -⟩ := hc.kept hz (hc.ne_of_parent hz (hnone ▸ fun h => nomatch h))
    exact ⟨z', hz', hparent.trans hnone⟩
  · intro q c z a hq hz ha
    rcases hc.reachable_cases hq with hq | ⟨j, hj, rfl⟩
    · exact hc.linked_old hq hz ha
    · exact hc.linked_made hj hz ha

/-- The words of the new nodes. -/
theorem CutIn.spells_made (hc : CutIn h r n p x y h') (hp : Spells (forest h') r p w) {j : ℕ}
    (hj : j + 1 < x.data.length) :
    Spells (forest h') r (h.length + j) (w ++ x.data.take (j + 1)) := by
  induction j with
  | zero =>
    obtain ⟨z, hz, hdata, hparent, -⟩ := hc.made hj
    have hs := Spells.child hp (n := h.length + 0) (by rw [forest_parent hz, hparent]; rfl)
    rwa [forest_label hz, hdata, List.drop_zero] at hs
  | succ j ih =>
    obtain ⟨z, hz, hdata, hparent, -⟩ := hc.made hj
    have hs := Spells.child (ih (Nat.lt_of_succ_lt hj)) (n := h.length + (j + 1))
      (by rw [forest_parent hz, hparent]; rfl)
    rwa [forest_label hz, hdata, List.append_assoc, ← List.take_add] at hs

/-- The words of the nodes that were there stay what they were. -/
theorem CutIn.spells (hc : CutIn h r n p x y h') (hi : Reachable (childIds h) r i)
    (hs : Spells (forest h) r i w) : Spells (forest h') r i w := by
  induction hs with
  | root => exact hc.linked_after.spells_root
  | @child q i w hq hparent ih =>
    obtain ⟨z, hz, hzp⟩ := exists_of_parent hparent
    obtain ⟨hqr, -⟩ := hc.linked.reachable_parent hi hz hzp
    by_cases hin : i = n
    · subst hin
      rw [hc.node_eq, Option.some.injEq] at hz
      have hqp : q = p := by
        rw [← hz, hc.parent, Option.some.injEq] at hzp
        exact hzp.symm
      rw [hqp] at ih hqr
      have hlong := hc.one_lt
      have hlast : x.data.length - 2 + 1 < x.data.length := by omega
      have hmade := hc.spells_made (ih hqr) hlast
      have habove : h.length + x.data.length - 2 = h.length + (x.data.length - 2) := by omega
      have hend : x.data.length - 2 + 1 = x.data.length - 1 := by omega
      have hs := Spells.child hmade (n := i) (by rw [forest_parent hc.node, habove])
      rw [forest_label hc.node, hend, List.append_assoc, List.take_append_drop] at hs
      rwa [forest_label hc.node_eq]
    · obtain ⟨z', hz', hdata, hparent', -⟩ := hc.kept hz hin
      have hs := Spells.child (ih hqr) (n := i) (by rw [forest_parent hz', hparent', hzp])
      rwa [forest_label hz', hdata, ← forest_label hz] at hs

/-- A new node for a byte of an old one. -/
structure Piece (h₀ h : Heap) (r n i : NodeId) (x z : Node) (w : List UInt8) (j : ℕ) : Prop where
  /-- The old node was in the tree. -/
  reachable : Reachable (childIds h₀) r n
  /-- It was this one. -/
  old : h₀[n]? = some x
  /-- The node above it spelled a word. -/
  above : ∃ p, x.parent = some p ∧ Spells (forest h₀) r p w
  /-- The new node is this one. -/
  new : h[i]? = some z
  /-- It has one byte. -/
  single : z.data.length = 1
  /-- It has the count of the old one. -/
  count : z.count = x.count
  /-- It is on the way down to the last byte. -/
  inside : 0 < j ∧ j < x.data.length
  /-- It spells the bytes so far. -/
  spells : Spells (forest h) r i (w ++ x.data.take j)

/-- A new node was cut from an old one. -/
def CutFrom (h₀ h : Heap) (r n i : NodeId) : Prop := ∃ x z w j, Piece h₀ h r n i x z w j

/-- The state of the loop: the nodes that were visited are cut. -/
structure Simplifying (h₀ : Heap) (r : NodeId) (visited queue : List NodeId) (h : Heap) : Prop where
  /-- The nodes of the tree before are visited once. -/
  frontier : Frontier (childIds h₀) r visited queue
  /-- The root was visited. -/
  root_mem : r ∈ visited
  /-- There is a tree. -/
  linked : Linked h r
  /-- No node is lost. -/
  length_le : h₀.length ≤ h.length
  /-- Nodes that were not visited are what they were. -/
  unvisited : ∀ {i : NodeId}, i < h₀.length → i ∉ visited → h[i]? = h₀[i]?
  /-- The nodes are still in the tree. -/
  reachable : ∀ {i : NodeId}, Reachable (childIds h₀) r i → Reachable (childIds h) r i
  /-- They spell what they did. -/
  spells : ∀ {i : NodeId} {w : List UInt8}, Reachable (childIds h₀) r i → Spells (forest h₀) r i w →
    Spells (forest h) r i w
  /-- The visited nodes keep their counts, and have one byte but for the root. -/
  cut : ∀ {i : NodeId} {x : Node}, i ∈ visited → h₀[i]? = some x → ∃ x', h[i]? = some x' ∧
    x'.count = x.count ∧
    (i = r → x'.data = x.data) ∧ (i ≠ r → x'.data.length = 1)
  /-- The others are new. -/
  nodes : ∀ {i : NodeId}, Reachable (childIds h) r i →
    Reachable (childIds h₀) r i ∨ h₀.length ≤ i ∧ ∃ n, CutFrom h₀ h r n i

variable {h₀ : Heap} {visited queue kids : List NodeId} {hash : HashOrder}

/-- Before the loop the root is visited. -/
theorem simplifying_start (hl : Linked h r) (hkids : kids.Perm (childIds h r)) :
    Simplifying h r [r] kids h where
  frontier := (frontier_start (childIds h) r).visit hl.isTree (by rwa [List.nil_append])
  root_mem := List.mem_singleton_self r
  linked := hl
  length_le := Nat.le_refl _
  unvisited _ _ := rfl
  reachable hi := hi
  spells _ hs := hs
  cut {i x} hi hx := ⟨x, hx, rfl, fun _ => rfl, fun hne => absurd (List.mem_singleton.mp hi) hne⟩
  nodes hi := Or.inl hi

/-- The node that waits first, which is as it was. -/
theorem Simplifying.next (hl : Linked h₀ r) (hs : Simplifying h₀ r visited (n :: queue) h) :
    ∃ x p y, h₀[n]? = some x ∧ h[n]? = some x ∧ x.parent = some p ∧ h[p]? = some y ∧ n ∉ visited ∧
      p ∈ visited ∧
      x.data ≠ [] ∧ Reachable (childIds h₀) r n ∧ Reachable (childIds h) r p ∧ n ∈ childIds h p := by
  have hwaits : n ∈ n :: queue := List.mem_cons_self
  have hnot : n ∉ visited := fun hmem => (List.nodup_append'.mp hs.frontier.nodup).2.2 hmem hwaits
  have hne : n ≠ r := fun heq => hnot (heq ▸ hs.root_mem)
  have hreach := hs.frontier.reachable n (List.mem_append_right _ hwaits)
  obtain ⟨x, p, b, hx, hparent, hb, hp, hnp⟩ := hl.exists_parent hreach hne
  have hx' : h[n]? = some x := (hs.unvisited (lt_length hx) hnot).trans hx
  obtain ⟨hp', hnp'⟩ := hs.linked.reachable_parent (hs.reachable hreach) hx' hparent
  obtain ⟨y, hy⟩ := hs.linked.exists_node hp'
  have hvisited : p ∈ visited := by
    rcases hs.frontier.above n (List.mem_append_right _ hwaits) with hroot | ⟨q, hq, hnq⟩
    · exact absurd hroot hne
    · have hsame := hl.isTree.parent_child (hs.frontier.reachable q (List.mem_append_left _ hq)) hnq
      rw [hl.isTree.parent_child hp hnp, Option.some.injEq] at hsame
      rwa [hsame]
  refine ⟨x, p, y, hx, hx', hparent, hy, hnot, hvisited, ?_, hreach, hp', hnp'⟩
  rintro hnil
  rw [hnil] at hb
  cases hb

/-- A node of one byte is visited. -/
theorem Simplifying.skip (hl : Linked h₀ r) (hs : Simplifying h₀ r visited (n :: queue) h)
    (hx : h[n]? = some x)
    (hx₀ : h₀[n]? = some x) (hsingle : x.data.length = 1) (hkids : kids.Perm (childIds h₀ n)) :
    Simplifying h₀ r (visited ++ [n]) (queue ++ kids) h where
  frontier := hs.frontier.visit hl.isTree (hkids.append_left queue)
  root_mem := List.mem_append_left _ hs.root_mem
  linked := hs.linked
  length_le := hs.length_le
  unvisited hi hnot := hs.unvisited hi fun hmem => hnot (List.mem_append_left _ hmem)
  reachable := hs.reachable
  spells := hs.spells
  cut {i x'} hi hx' := by
    rcases List.mem_append.mp hi with hi | hi
    · exact hs.cut hi hx'
    · obtain rfl : i = n := List.mem_singleton.mp hi
      rw [hx₀, Option.some.injEq] at hx'
      subst hx'
      exact ⟨x, hx, rfl, fun _ => rfl, fun _ => hsingle⟩
  nodes := hs.nodes

/-- What was cut before stays a piece. -/
theorem CutFrom.after (hc : CutIn h r n p x y h') (hn : n < h₀.length) (hp : p < h₀.length) {m i : NodeId}
    (hi : h₀.length ≤ i) (hreach : Reachable (childIds h) r i) (hm : CutFrom h₀ h r m i) :
    CutFrom h₀ h' r m i := by
  obtain ⟨x', z, w, j, hpiece⟩ := hm
  have hframe := hc.frame (lt_length hpiece.new) (hn.trans_le hi).ne' (hp.trans_le hi).ne'
  exact ⟨x', z, w, j, { hpiece with
    new := hframe.trans hpiece.new
    spells := hc.spells hreach hpiece.spells }⟩

/-- A node of several bytes is cut. -/
theorem Simplifying.cut_next (hl : Linked h₀ r) (hs : Simplifying h₀ r visited (n :: queue) h)
    (hc : CutIn h r n p x y h') (hx₀ : h₀[n]? = some x) (hnot : n ∉ visited) (hp : p ∈ visited)
    (hreach : Reachable (childIds h₀) r n) (hkids : kids.Perm (childIds h₀ n)) :
    Simplifying h₀ r (visited ++ [n]) (queue ++ kids) h' := by
  have hn := lt_length hx₀
  obtain ⟨hpr, -⟩ := hl.reachable_parent hreach hx₀ hc.parent
  obtain ⟨y₀, hy₀⟩ := hl.exists_node hpr
  have hpl := lt_length hy₀
  constructor
  · exact hs.frontier.visit hl.isTree (hkids.append_left queue)
  · exact List.mem_append_left _ hs.root_mem
  · exact hc.linked_after
  · exact hs.length_le.trans hc.length_le
  · intro i hi hmem
    obtain ⟨hiv, hin⟩ := not_or.mp (mt List.mem_append.mpr hmem)
    have hip : i ≠ p := fun heq => hiv (heq ▸ hp)
    rw [hc.frame (hi.trans_le hs.length_le) (fun heq => hin (List.mem_singleton.mpr heq)) hip]
    exact hs.unvisited hi hiv
  · exact fun hi => hc.reachable_old (hs.reachable hi)
  · exact fun hi hw => hc.spells (hs.reachable hi) (hs.spells hi hw)
  · intro i x' hi hx'
    rcases List.mem_append.mp hi with hi | hi
    · obtain ⟨z, hz, hcount, hroot, hsingle⟩ := hs.cut hi hx'
      obtain ⟨z', hz', hdata, -, hcount'⟩ := hc.kept hz fun heq => hnot (heq ▸ hi)
      exact ⟨z', hz', hcount'.trans hcount, fun hr => hdata.trans (hroot hr), fun hr => hdata ▸ hsingle hr⟩
    · obtain rfl : i = n := List.mem_singleton.mp hi
      rw [hx₀, Option.some.injEq] at hx'
      subst hx'
      have hlong := hc.one_lt
      refine ⟨_, hc.node, rfl, fun hr => absurd hs.root_mem (hr ▸ hnot), fun _ => ?_⟩
      rw [List.length_drop]
      omega
  · intro i hi
    rcases hc.reachable_cases hi with hi | ⟨j, hj, rfl⟩
    · rcases hs.nodes hi with hold | ⟨hge, m, hm⟩
      · exact Or.inl hold
      · exact Or.inr ⟨hge, m, hm.after hc hn hpl hge hi⟩
    · obtain ⟨z, hz, hdata, -, hcount, -⟩ := hc.made hj
      obtain ⟨w, hw⟩ := hl.exists_spells hpr
      have hwp := hc.spells hc.above_reachable (hs.spells hpr hw)
      refine Or.inr ⟨hs.length_le.trans (Nat.le_add_right _ j), n, x, z, w, j + 1, ?_⟩
      exact ⟨hreach, hx₀, ⟨p, hc.parent, hw⟩, hz,
        by rw [hdata, List.length_take, List.length_drop]; omega, hcount,
        ⟨Nat.succ_pos j, hj⟩, hc.spells_made hwp hj⟩

/-- One round visits the node that waits first. -/
theorem Simplifying.round (hash : HashOrder) (hl : Linked h₀ r)
    (hs : Simplifying h₀ r visited (n :: queue) h) :
    ∃ h' kids, cutNode n h = .ok () h' ∧ getChildNodes hash n h' = .ok kids h' ∧
      Simplifying h₀ r (visited ++ [n]) (queue ++ kids) h' := by
  obtain ⟨x, p, y, hx₀, hx, hparent, hy, hnot, hp, hne, hreach, hpr, hnp⟩ := hs.next hl
  have hold : childIds h n = childIds h₀ n := by rw [childIds, childIds, hx, hx₀]
  by_cases hlen : x.data.length ≤ 1
  · have hsingle : x.data.length = 1 := Nat.le_antisymm hlen (List.length_pos_iff.mpr hne)
    refine ⟨h, hash.order (childIds h n), cutNode_single hx hlen, getChildNodes_ok hash hx, ?_⟩
    exact hs.skip hl hx hx₀ hsingle (hold ▸ hash.perm (childIds h n))
  · obtain ⟨b, rest, hdata⟩ := List.exists_cons_of_ne_nil hne
    have hb : x.data.head? = some b := by rw [hdata]; rfl
    have hd : x.data.getLast? = some (x.data.getLast hne) := List.getLast?_eq_some_getLast hne
    have hlong := Nat.lt_of_not_le hlen
    have hc : CutIn h r n p x y (cutHeap h n p x b (x.data.getLast hne)) :=
      { cut_cutHeap hx hy (hs.linked.child_ne hpr hnp) hb hd hlong with
        linked := hs.linked
        node_eq := hx
        above_eq := hy
        above_reachable := hpr
        mem_childIds := hnp
        one_lt := hlong }
    have hsame := hc.childIds_eq (lt_length hx) hc.ne
    refine ⟨_, _, cutNode_ok hx hparent hy hb hd hlong, getChildNodes_ok hash hc.node, ?_⟩
    exact hs.cut_next hl hc hx₀ hnot hp hreach (hold ▸ hsame ▸ hash.perm _)

/-- The loop ends when all nodes of the tree were visited. -/
theorem simplifyLoop_ok (hash : HashOrder) (hl : Linked h₀ r) {rounds : ℕ}
    (hrounds : h₀.length ≤ visited.length + rounds) (hs : Simplifying h₀ r visited queue h) :
    ∃ h' visited', simplifyLoop hash rounds queue h = .ok () h' ∧ Simplifying h₀ r visited' [] h' := by
  induction rounds generalizing visited queue h with
  | zero =>
    cases queue with
    | nil => exact ⟨h, visited, rfl, hs⟩
    | cons n queue =>
      have hlt := hs.frontier.length_lt fun n hn => (hl.exists_node hn).elim fun x hx => lt_length hx
      exact absurd hrounds (not_le.mpr hlt)
  | succ rounds ih =>
    cases queue with
    | nil => exact ⟨h, visited, rfl, hs⟩
    | cons n queue =>
      obtain ⟨h₁, kids, hcut, hkids, hs₁⟩ := hs.round hash hl
      have hvisited : h₀.length ≤ (visited ++ [n]).length + rounds := by
        rw [List.length_append, List.length_singleton]
        omega
      obtain ⟨h', visited', hrun, hend⟩ := ih hvisited hs₁
      exact ⟨h', visited', (bind_ok hcut).trans ((bind_ok hkids).trans hrun), hend⟩

/-- A tree that was simplified, and what it was before. -/
structure Simplified (h h' : Heap) (r : NodeId) : Prop where
  /-- It is a tree: a child is stored under its first byte, and knows the node above it. -/
  linked : Linked h' r
  /-- Siblings begin with different bytes. -/
  siblings : ∀ {p c c' : NodeId} {x x' : Node}, Reachable (childIds h') r p → c ∈ childIds h' p →
    c' ∈ childIds h' p → h'[c]? = some x → h'[c']? = some x' → x.data.head? = x'.data.head? → c = c'
  /-- Parent links and child maps are inverse to each other. -/
  parents : ∀ {p c : NodeId} {x : Node}, Reachable (childIds h') r c → h'[c]? = some x →
    (x.parent = some p ↔ Reachable (childIds h') r p ∧ c ∈ childIds h' p)
  /-- The root keeps its data. -/
  root : h'[r]?.map Node.data = h[r]?.map Node.data
  /-- Every other node has one byte. -/
  single : ∀ {i : NodeId}, Reachable (childIds h') r i → i ≠ r → ∃ x, h'[i]? = some x ∧ x.data.length = 1
  /-- What was in the tree is still in it. -/
  reachable : ∀ {i : NodeId}, Reachable (childIds h) r i → Reachable (childIds h') r i
  /-- It spells what it did. -/
  spells : ∀ {i : NodeId} {w : List UInt8}, Reachable (childIds h) r i → Spells (forest h) r i w →
    Spells (forest h') r i w
  /-- It keeps its count. -/
  count : ∀ {i : NodeId}, Reachable (childIds h) r i → h'[i]?.map Node.count = h[i]?.map Node.count
  /-- The others are new and were cut from a node with their count. -/
  nodes : ∀ {i : NodeId}, Reachable (childIds h') r i →
    Reachable (childIds h) r i ∨ h.length ≤ i ∧ ∃ n, CutFrom h h' r n i

/-- When the loop has ended the tree is simplified. -/
theorem Simplifying.simplified (hl : Linked h₀ r) (hs : Simplifying h₀ r visited [] h) :
    Simplified h₀ h r where
  linked := hs.linked
  siblings := hs.linked.siblings
  parents := hs.linked.parent_iff
  root := by
    obtain ⟨x, hx, -⟩ := hl.root
    obtain ⟨x', hx', -, hdata, -⟩ := hs.cut hs.root_mem hx
    rw [hx, hx']
    exact congrArg some (hdata rfl)
  single hi hne := by
    rcases hs.nodes hi with hold | ⟨-, n, x, z, w, j, hpiece⟩
    · obtain ⟨x, hx⟩ := hl.exists_node hold
      obtain ⟨x', hx', -, -, hsingle⟩ := hs.cut (hs.frontier.mem_visited_iff.mpr hold) hx
      exact ⟨x', hx', hsingle hne⟩
    · exact ⟨z, hpiece.new, hpiece.single⟩
  reachable := hs.reachable
  spells := hs.spells
  count hi := by
    obtain ⟨x, hx⟩ := hl.exists_node hi
    obtain ⟨x', hx', hcount, -, -⟩ := hs.cut (hs.frontier.mem_visited_iff.mpr hi) hx
    rw [hx, hx']
    exact congrArg some hcount
  nodes := hs.nodes

/-- Simplifying below a root simplifies its tree and leaves the rest of the heap alone. -/
theorem simplifyBelow_ok (hash : HashOrder) (hl : Linked h r) :
    ∃ h', simplifyBelow hash r h = .ok () h' ∧ Simplified h h' r ∧ h.length ≤ h'.length ∧
      ∀ {i : NodeId}, i < h.length → ¬ Reachable (childIds h) r i → h'[i]? = h[i]? := by
  obtain ⟨x, hx, -⟩ := hl.root
  have hget : (get : JavaM Heap) h = .ok h h := rfl
  obtain ⟨h', visited, hrun, hs⟩ := simplifyLoop_ok hash hl (Nat.le_add_left h.length _)
    (simplifying_start hl (hash.perm (childIds h r)))
  refine ⟨h', (bind_ok hget).trans ((bind_ok (getChildNodes_ok hash hx)).trans hrun), hs.simplified hl,
    hs.length_le, fun hi hnot => hs.unvisited hi fun hmem => hnot ?_⟩
  exact hs.frontier.mem_visited_iff.mp hmem

/-- A tree of nodes with one byte is left alone. -/
theorem simplifyLoop_single (hash : HashOrder) (hl : Linked h r)
    (hsingle : ∀ {i : NodeId}, Reachable (childIds h) r i → i ≠ r → ∃ x, h[i]? = some x ∧ x.data.length = 1)
    {rounds : ℕ} (hrounds : h.length ≤ visited.length + rounds) (hroot : r ∈ visited)
    (hs : Frontier (childIds h) r visited queue) : simplifyLoop hash rounds queue h = .ok () h := by
  induction rounds generalizing visited queue with
  | zero =>
    cases queue with
    | nil => rfl
    | cons n queue =>
      have hlt := hs.length_lt fun n hn => (hl.exists_node hn).elim fun x hx => lt_length hx
      exact absurd hrounds (not_le.mpr hlt)
  | succ rounds ih =>
    cases queue with
    | nil => rfl
    | cons n queue =>
      have hwaits : n ∈ n :: queue := List.mem_cons_self
      have hne : n ≠ r := fun heq => (List.nodup_append'.mp hs.nodup).2.2 (heq ▸ hroot) hwaits
      obtain ⟨x, hx, hlen⟩ := hsingle (hs.reachable n (List.mem_append_right _ hwaits)) hne
      have hvisited : h.length ≤ (visited ++ [n]).length + rounds := by
        rw [List.length_append, List.length_singleton]
        omega
      have hvisit := hs.visit hl.isTree ((hash.perm (childIds h n)).append_left queue)
      exact (bind_ok (cutNode_single hx hlen.le)).trans ((bind_ok (getChildNodes_ok hash hx)).trans
        (ih hvisited (List.mem_append_left _ hroot) hvisit))

/-- Nodes of one byte stay as they are. -/
theorem simplifyBelow_single (hash : HashOrder) (hl : Linked h r)
    (hsingle : ∀ {i : NodeId}, Reachable (childIds h) r i → i ≠ r → ∃ x, h[i]? = some x ∧ x.data.length = 1) :
    simplifyBelow hash r h = .ok () h := by
  obtain ⟨x, hx, -⟩ := hl.root
  have hget : (get : JavaM Heap) h = .ok h h := rfl
  have hvisit := (frontier_start (childIds h) r).visit hl.isTree (hash.perm (childIds h r))
  exact (bind_ok hget).trans ((bind_ok (getChildNodes_ok hash hx)).trans
    (simplifyLoop_single hash hl hsingle (Nat.le_add_left h.length _) (List.mem_singleton_self r) hvisit))

/-- A simplified tree stays so while other nodes change. -/
theorem Simplified.frame {h₁ h₂ : Heap} (hs : Simplified h h₁ r)
    (hsame : ∀ {i : NodeId}, Reachable (childIds h₁) r i → h₂[i]? = h₁[i]?) : Simplified h h₂ r := by
  obtain ⟨hlinked, hreach⟩ := hs.linked.frame hsame
  refine
    { linked := hlinked
      siblings := hlinked.siblings
      parents := hlinked.parent_iff
      root := by rw [hsame .root, hs.root]
      single := fun {i} hi hne => ?_
      reachable := fun hi => (hreach _).mpr (hs.reachable hi)
      spells := fun hi hw => hs.linked.spells_frame hsame (hs.reachable hi) (hs.spells hi hw)
      count := fun hi => by rw [hsame (hs.reachable hi), hs.count hi]
      nodes := fun {i} hi => ?_ }
  · rw [hreach] at hi
    rw [hsame hi]
    exact hs.single hi hne
  · rw [hreach] at hi
    refine (hs.nodes hi).imp_right fun ⟨hge, n, x, z, w, j, hpiece⟩ => ⟨hge, n, x, z, w, j, ?_⟩
    exact { hpiece with
      new := (hsame hi).trans hpiece.new
      spells := hs.linked.spells_frame hsame hi hpiece.spells }

/-- What was changed before did not matter to a tree that is simplified. -/
theorem Simplified.frame_before {h₁ h₂ : Heap} (hl : Linked h r) (hs : Simplified h₁ h₂ r)
    (hlength : h.length ≤ h₁.length)
    (hsame : ∀ {i : NodeId}, Reachable (childIds h) r i → h₁[i]? = h[i]?) : Simplified h h₂ r := by
  obtain ⟨hlinked, hreach⟩ := hl.frame hsame
  have hback {i : NodeId} (hi : Reachable (childIds h₁) r i) : h[i]? = h₁[i]? :=
    (hsame ((hreach i).mp hi)).symm
  refine
    { linked := hs.linked
      siblings := hs.siblings
      parents := hs.parents
      root := by rw [hs.root, hsame .root]
      single := hs.single
      reachable := fun hi => hs.reachable ((hreach _).mpr hi)
      spells := fun hi hw => hs.spells ((hreach _).mpr hi) (hl.spells_frame hsame hi hw)
      count := fun hi => by rw [hs.count ((hreach _).mpr hi), hsame hi]
      nodes := fun {i} hi => ?_ }
  rcases hs.nodes hi with hold | ⟨hge, n, x, z, w, j, hpiece⟩
  · exact Or.inl ((hreach i).mp hold)
  · obtain ⟨p, hparent, hw⟩ := hpiece.above
    obtain ⟨hp, -⟩ := hlinked.reachable_parent hpiece.reachable hpiece.old hparent
    refine Or.inr ⟨hlength.trans hge, n, x, z, w, j, { hpiece with
      reachable := (hreach n).mp hpiece.reachable
      old := (hback hpiece.reachable).trans hpiece.old
      above := ⟨p, hparent, hlinked.spells_frame hback hp hw⟩ }⟩

/-- The two halves of a tree are trees of their own. -/
structure WellFormedTree (h : Heap) (t : Tree) : Prop where
  /-- The transmitted half. -/
  root : Linked h t.root
  /-- The received half. -/
  receivedRoot : Linked h t.receivedRoot
  /-- They have different roots. -/
  roots_ne : t.root ≠ t.receivedRoot

/-- The bytes of a node are rebuilt as before. -/
theorem Simplified.getDataFromLeafNode_eq (hl : Linked h r) (hs : Simplified h h' r)
    (hi : Reachable (childIds h) r i) : getDataFromLeafNode h' (some i) = getDataFromLeafNode h (some i) := by
  obtain ⟨x, hx, -⟩ := hl.root
  obtain ⟨x', hx', -⟩ := hs.linked.root
  obtain ⟨w, hw⟩ := hl.exists_spells hi
  have hroot := hs.root
  rw [hx, hx', Option.map_some, Option.map_some, Option.some.injEq] at hroot
  rw [hl.getDataFromLeafNode hx hi hw,
    hs.linked.getDataFromLeafNode hx' (hs.reachable hi) (hs.spells hi hw), hroot]

/-- Both halves of a tree are simplified, and the rest of the heap is left alone. -/
theorem simplifyNodes_frame (hash : HashOrder) {t : Tree} (ht : WellFormedTree h t) :
    ∃ h', simplifyNodes hash t h = .ok () h' ∧ Simplified h h' t.root ∧ Simplified h h' t.receivedRoot ∧
      ∀ {i : NodeId}, i < h.length → ¬ Reachable (childIds h) t.root i →
        ¬ Reachable (childIds h) t.receivedRoot i → h'[i]? = h[i]? := by
  obtain ⟨h₁, hrun₁, hs₁, hlength, hframe₁⟩ := simplifyBelow_ok hash ht.root
  have hsame₁ {i : NodeId} (hi : Reachable (childIds h) t.receivedRoot i) : h₁[i]? = h[i]? := by
    obtain ⟨x, hx⟩ := ht.receivedRoot.exists_node hi
    exact hframe₁ (lt_length hx) fun hi' => ht.roots_ne (ht.root.root_unique ht.receivedRoot hi' hi)
  obtain ⟨hreceived, hreach⟩ := ht.receivedRoot.frame hsame₁
  obtain ⟨h₂, hrun₂, hs₂, -, hframe₂⟩ := simplifyBelow_ok hash hreceived
  have hsame₂ {i : NodeId} (hi : Reachable (childIds h₁) t.root i) : h₂[i]? = h₁[i]? := by
    obtain ⟨x, hx⟩ := hs₁.linked.exists_node hi
    exact hframe₂ (lt_length hx) fun hi' => ht.roots_ne (hs₁.linked.root_unique hreceived hi hi')
  refine ⟨h₂, (bind_ok hrun₁).trans hrun₂, hs₁.frame hsame₂, hs₂.frame_before ht.receivedRoot hlength hsame₁,
    fun {i} hi hroot hreceivedRoot => ?_⟩
  exact (hframe₂ (hi.trans_le hlength) (mt (hreach i).mp hreceivedRoot)).trans (hframe₁ hi hroot)

/-- Both halves of a tree are simplified. -/
theorem simplifyNodes_ok (hash : HashOrder) {t : Tree} (ht : WellFormedTree h t) :
    ∃ h', simplifyNodes hash t h = .ok () h' ∧ Simplified h h' t.root ∧ Simplified h h' t.receivedRoot := by
  obtain ⟨h', hrun, hs, hs', -⟩ := simplifyNodes_frame hash ht
  exact ⟨h', hrun, hs, hs'⟩

/-- Both halves of a tree are simplified, the bytes of every node are rebuilt as
before, and doing it again changes nothing. -/
theorem simplifyNodes_simplified (hash hash' : HashOrder) {t : Tree} (ht : WellFormedTree h t) :
    ∃ h', simplifyNodes hash t h = .ok () h' ∧ Simplified h h' t.root ∧ Simplified h h' t.receivedRoot ∧
      (∀ n, Reachable (childIds h) t.root n ∨ Reachable (childIds h) t.receivedRoot n →
        getDataFromLeafNode h' (some n) = getDataFromLeafNode h (some n)) ∧
      simplifyNodes hash' t h' = .ok () h' := by
  obtain ⟨h', hrun, hroot, hanswers⟩ := simplifyNodes_ok hash ht
  refine ⟨h', hrun, hroot, hanswers, fun n hn => ?_, ?_⟩
  · rcases hn with hn | hn
    · exact hroot.getDataFromLeafNode_eq ht.root hn
    · exact hanswers.getDataFromLeafNode_eq ht.receivedRoot hn
  · exact (bind_ok (simplifyBelow_single hash' hroot.linked hroot.single)).trans
      (simplifyBelow_single hash' hanswers.linked hanswers.single)

/-- Two roots, with a leaf of three bytes below the first. -/
def longLeaf : Heap :=
  addLeaf (([] ++ [⟨[0xA4], ∅, none, 1⟩]) ++ [⟨[0xA4], ∅, none, 1⟩]) 0 [0x01, 0x02, 0x03] 0x01

/-- A leaf of three bytes becomes three nodes. -/
theorem simplifyNodes_longLeaf :
    ∃ h', simplifyNodes anyOrder ⟨1, none, 1, 0, "A4", []⟩ longLeaf = .ok () h' ∧
      Simplified longLeaf h' 0 ∧ Simplified longLeaf h' 1 ∧
      (∀ n, Reachable (childIds longLeaf) 0 n ∨ Reachable (childIds longLeaf) 1 n →
        getDataFromLeafNode h' (some n) = getDataFromLeafNode longLeaf (some n)) ∧
      simplifyNodes anyOrder ⟨1, none, 1, 0, "A4", []⟩ h' = .ok () h' := by
  have hw : WellFormed longLeaf :=
    ((WellFormed.nil.newNode [0xA4]).newNode [0xA4]).addLeaf (p := 0) rfl rfl rfl
  exact simplifyNodes_simplified anyOrder anyOrder (t := ⟨1, none, 1, 0, "A4", []⟩)
    ⟨linked_of_wellFormed hw rfl rfl, linked_of_wellFormed hw rfl rfl, by decide⟩

end ApduPlay.SimplifiedTrees
