import Mathlib.Data.List.AList
import ApduPlay.Basic
import ApduPlay.Library.ExceptionRuns
import ApduPlay.Library.LabelForest

/-!
# Nodes of a packet tree

The node objects of the log parser live in one heap, in the order in which they
were created, and a node is referred to by its position. The class counts up an
`int` for every node it creates, which is the identifier that the outputs print.
Methods run in a monad that keeps the heap also when an exception ends them.
-/

namespace ApduPlay.PacketNode

open LabelForest

export ExceptionRuns (bind_ok bind_error)

/-- The exceptions that the methods of nodes and trees can raise. -/
inductive JavaException
  | arrayIndexOutOfBounds
  | illegalArgument
  | nullPointer
  | stringIndexOutOfBounds
  | indexOutOfBounds
  | arithmetic
  | outOfMemory
  deriving DecidableEq, Repr

/-- Reference to a node. -/
abbrev NodeId := ℕ

/-- The `identifier` of a node. -/
def identifier (n : NodeId) : ℤ := wrapInt n

/-- One node object. -/
structure Node where
  /-- Byte stream stored in the node. -/
  data : List UInt8
  /-- Children by the first byte of their data. -/
  childNodes : AList (fun _ : UInt8 => NodeId)
  /-- Parent node, null at a root. -/
  parent : Option NodeId
  /-- Occurrence count. -/
  count : JavaInt

/-- All node objects created so far, in their order. -/
abbrev Heap := List Node

/-- Computations over the node heap that may end with an exception. -/
abbrev JavaM := EStateM JavaException Heap

/-- Dereference a node. -/
def load (n : NodeId) : JavaM Node := do
  match (← get)[n]? with
  | some x => pure x
  | none => throw .nullPointer

/-- Assign to fields of a node. -/
def update (n : NodeId) (f : Node → Node) : JavaM Unit := do
  let _ ← load n
  modify fun h => h.modify n f

/-- `Arrays.copyOfRange`: the result is filled up with zeros. -/
def copyOfRange (original : List UInt8) (start stop : ℕ) : JavaM (List UInt8) :=
  if stop < start then throw .illegalArgument
  else if original.length < start then throw .arrayIndexOutOfBounds
  else pure ((original.drop start ++ List.replicate (stop - start) 0).take (stop - start))

/-- The node constructor. -/
def newNode (data : List UInt8) : JavaM NodeId := do
  let h ← get
  set (h ++ [(⟨data, ∅, none, 1⟩ : Node)])
  pure h.length

/-- Accessor of the stored byte stream. -/
def getData (n : NodeId) : JavaM (List UInt8) := do
  return (← load n).data

/-- Accessor of the parent, which the callers dereference. -/
def getParent (n : NodeId) : JavaM NodeId := do
  match (← load n).parent with
  | some p => pure p
  | none => throw .nullPointer

/-- One more occurrence. -/
def incrementCount (n : NodeId) : JavaM Unit :=
  update n fun x => { x with count := x.count + 1 }

/-- Add `node` as a child, under the first byte of its data. -/
def addChild (this node : NodeId) : JavaM Unit := do
  update node fun x => { x with parent := some this }
  match (← getData node).head? with
  | some b => update this fun x => { x with childNodes := x.childNodes.insert b node }
  | none => throw .arrayIndexOutOfBounds

/-- Child node stored under a byte, if any. -/
def findChildNode (this : NodeId) (item : UInt8) : JavaM (Option NodeId) := do
  return (← load this).childNodes.lookup item

/-- Split a node before `index`: a new node takes the first bytes and the
place under the parent, the old one keeps the rest and moves below it. -/
def divide (this : NodeId) (index : ℕ) : JavaM Unit := do
  let data ← getData this
  if data.length ≤ index ∧ index < 1 then throw .illegalArgument
  let subArray ← copyOfRange data 0 index
  let node ← newNode subArray
  addChild (← getParent this) node
  let rest ← copyOfRange data index data.length
  update this fun x => { x with data := rest }
  addChild node this

/-- Computations over the node heap and some further state. -/
abbrev JavaWith (σ : Type) := EStateM JavaException (Heap × σ)

/-- A computation over the heap leaves the further state alone. -/
instance {σ : Type} : MonadLift JavaM (JavaWith σ) where
  monadLift e s :=
    match e s.1 with
    | .ok a h => .ok a (h, s.2)
    | .error x h => .error x (h, s.2)

variable {α β σ : Type} {h h' : Heap} {n p : NodeId} {x y : Node} {b c : UInt8} {s s' : σ}

/-- What is done with the nodes leaves the rest of the state alone. -/
theorem lift_ok {e : JavaM α} {a : α} (he : e h = .ok a h') (s : σ) :
    (liftM e : JavaWith σ α) (h, s) = .ok a (h', s) := by
  show (match e h with
    | .ok a h => EStateM.Result.ok a (h, s)
    | .error err h => .error err (h, s)) = _
  rw [he]

/-- So does an exception that is raised there. -/
theorem lift_error {e : JavaM α} {err : JavaException} (he : e h = .error err h') (s : σ) :
    (liftM e : JavaWith σ α) (h, s) = .error err (h', s) := by
  show (match e h with
    | .ok a h => EStateM.Result.ok a (h, s)
    | .error err h => .error err (h, s)) = _
  rw [he]

/-- A node that exists is read. -/
theorem load_ok (hx : h[n]? = some x) : load n h = .ok x h := by
  have hget : (get : JavaM Heap) h = .ok h h := rfl
  unfold load
  rw [bind_ok hget, hx]
  rfl

/-- It is changed in its place. -/
theorem update_ok (hx : h[n]? = some x) (f : Node → Node) : update n f h = .ok () (h.modify n f) :=
  bind_ok (load_ok hx)

/-- A new node comes behind all others. -/
theorem newNode_ok (data : List UInt8) (h : Heap) :
    newNode data h = .ok h.length (h ++ [⟨data, ∅, none, 1⟩]) := rfl

/-- The data of a node. -/
theorem getData_ok (hx : h[n]? = some x) : getData n h = .ok x.data h :=
  bind_ok (load_ok hx)

/-- The parent of a node that has one. -/
theorem getParent_ok (hx : h[n]? = some x) (hp : x.parent = some p) :
    getParent n h = .ok p h := by
  refine (bind_ok (load_ok hx)).trans ?_
  rw [hp]
  rfl

/-- Children are found by the first byte of their data. -/
theorem findChildNode_ok (hx : h[n]? = some x) (b : UInt8) :
    findChildNode n b h = .ok (x.childNodes.lookup b) h :=
  bind_ok (load_ok hx)

/-- The heap after `incrementCount`. -/
def counted (h : Heap) (n : NodeId) : Heap := h.modify n fun x => { x with count := x.count + 1 }

/-- Counting a node changes its count only. -/
theorem incrementCount_ok (hx : h[n]? = some x) : incrementCount n h = .ok () (counted h n) :=
  update_ok hx _

/-- The nodes when one of them has been counted. -/
theorem getElem?_counted (h : Heap) (n i : NodeId) :
    (counted h n)[i]? = h[i]?.map fun x => if n = i then { x with count := x.count + 1 } else x := by
  rw [counted, List.getElem?_modify]
  rfl

/-- Counting creates no node. -/
theorem length_counted (h : Heap) (n : NodeId) : (counted h n).length = h.length :=
  List.length_modify _ _ _

/-- A range inside an array is copied. -/
theorem copyOfRange_ok {data : List UInt8} {i j : ℕ} (hij : i ≤ j) (hj : j ≤ data.length)
    (h : Heap) : copyOfRange data i j h = .ok ((data.drop i).take (j - i)) h := by
  have hi : ¬ data.length < i := by omega
  have hlen : j - i ≤ (data.drop i).length := by rw [List.length_drop]; omega
  rw [copyOfRange, if_neg (by omega), if_neg hi, List.take_append_of_le_length hlen]
  rfl

/-- The heap after `addChild`. -/
def linkChild (h : Heap) (this node : NodeId) (b : UInt8) : Heap :=
  (h.modify node fun x => { x with parent := some this }).modify this fun x =>
    { x with childNodes := x.childNodes.insert b node }

/-- The nodes when one of them has a new child. -/
theorem getElem?_linkChild (h : Heap) (this node i : NodeId) (b : UInt8) :
    (linkChild h this node b)[i]? = h[i]?.map fun x =>
      { x with
        parent := if i = node then some this else x.parent
        childNodes := if i = this then x.childNodes.insert b node else x.childNodes } := by
  simp only [linkChild, List.getElem?_modify]
  cases h[i]? with
  | none => rfl
  | some x => by_cases h1 : node = i <;> by_cases h2 : this = i <;> simp [h1, h2, eq_comm]

/-- A node with data becomes a child under its first byte. -/
theorem addChild_ok {this node : NodeId} (hx : h[node]? = some x) (hb : x.data.head? = some b)
    (hy : h[this]? = some y) : addChild this node h = .ok () (linkChild h this node b) := by
  have h1 : (h.modify node fun x => { x with parent := some this })[node]? =
      some { x with parent := some this } := by simp [hx]
  obtain ⟨y', hy'⟩ : ∃ y', (h.modify node fun x => { x with parent := some this })[this]? = some y' := by
    simp [List.getElem?_modify, hy]
  refine (bind_ok (update_ok hx _)).trans ((bind_ok (getData_ok h1)).trans ?_)
  simp only [hb]
  exact update_ok hy' _

/-- The parent links and data of a heap as a forest. -/
def forest (h : Heap) : Forest NodeId UInt8 where
  parent n := h[n]?.bind Node.parent
  label n := (h[n]?.map Node.data).getD []

/-- Parent links and child maps are inverse to each other, and a child is
stored under its own first byte. -/
structure WellFormed (h : Heap) : Prop where
  /-- Every node with a parent is found in its child map. -/
  parents : ∀ {n : NodeId} {x : Node} {p : NodeId}, h[n]? = some x → x.parent = some p →
    ∃ y b, h[p]? = some y ∧ x.data.head? = some b ∧ y.childNodes.lookup b = some n
  /-- Every child map entry points to a node with that parent. -/
  children : ∀ {p : NodeId} {y : Node} {b : UInt8} {c : NodeId}, h[p]? = some y →
    y.childNodes.lookup b = some c →
    ∃ x, h[c]? = some x ∧ x.parent = some p ∧ x.data.head? = some b

/-- The heap after a new leaf with data `s`, starting with `b`, was added under `p`. -/
def addLeaf (h : Heap) (p : NodeId) (s : List UInt8) (b : UInt8) : Heap :=
  linkChild (h ++ [⟨s, ∅, none, 1⟩]) p h.length b

/-- The heap after `divide n k` for a node with these data below `p`; the two
parts of the data start with `b` and `c`. -/
def splitNode (h : Heap) (n p : NodeId) (data : List UInt8) (k : ℕ) (b c : UInt8) : Heap :=
  linkChild ((linkChild (h ++ [⟨data.take k, ∅, none, 1⟩]) p h.length b).modify n
    fun x => { x with data := data.drop k }) h.length n c

/-- Nodes that exist have places below the number of nodes. -/
theorem lt_length (hx : h[n]? = some x) : n < h.length := (List.getElem?_eq_some_iff.mp hx).1

/-- Linking a node just created below `p` yields the heap with the new leaf. -/
theorem addLeaf_ok (hy : h[p]? = some y) {s : List UInt8} (hb : s.head? = some b) :
    addChild p h.length (h ++ [⟨s, ∅, none, 1⟩]) = .ok () (addLeaf h p s b) := by
  have hnew : (h ++ [(⟨s, ∅, none, 1⟩ : Node)])[h.length]? = some ⟨s, ∅, none, 1⟩ := by simp
  have hp : (h ++ [(⟨s, ∅, none, 1⟩ : Node)])[p]? = some y := by
    rw [List.getElem?_append_left (lt_length hy), hy]
  exact addChild_ok hnew hb hp

/-- A new leaf changes its parent only. -/
theorem getElem?_addLeaf_old (i : NodeId) (hi : i < h.length) (s : List UInt8) :
    (addLeaf h p s b)[i]? = h[i]?.map fun x =>
      { x with childNodes := if i = p then x.childNodes.insert b h.length else x.childNodes } := by
  have hne : i ≠ h.length := hi.ne
  rw [addLeaf, getElem?_linkChild, List.getElem?_append_left hi]
  simp only [hne, if_false]

/-- The new leaf. -/
theorem getElem?_addLeaf_new (hp : p < h.length) (s : List UInt8) :
    (addLeaf h p s b)[h.length]? = some ⟨s, ∅, some p, 1⟩ := by
  have hne : h.length ≠ p := hp.ne'
  rw [addLeaf, getElem?_linkChild]
  simp [hne]

/-- A division changes the node that is divided and its parent only. -/
theorem getElem?_splitNode_old (data : List UInt8) {k : ℕ} (i : NodeId) (hi : i < h.length) :
    (splitNode h n p data k b c)[i]? = h[i]?.map fun x =>
      { x with
        data := if i = n then data.drop k else x.data
        parent := if i = n then some h.length else x.parent
        childNodes := if i = p then x.childNodes.insert b h.length else x.childNodes } := by
  have hne : i ≠ h.length := hi.ne
  rw [splitNode, getElem?_linkChild, List.getElem?_modify, getElem?_linkChild,
    List.getElem?_append_left hi]
  cases h[i]? with
  | none => rfl
  | some x =>
    rcases eq_or_ne i n with rfl | h1
    · simp [hne]
    · simp [h1, h1.symm, hne]

/-- The new upper node has the first bytes, and the old node as its only child. -/
theorem getElem?_splitNode_new (data : List UInt8) {k : ℕ} (hn : n < h.length) (hp : p < h.length) :
    (splitNode h n p data k b c)[h.length]? =
      some ⟨data.take k, (∅ : AList fun _ : UInt8 => NodeId).insert c n, some p, 1⟩ := by
  have h1 : h.length ≠ n := hn.ne'
  have h2 : h.length ≠ p := hp.ne'
  rw [splitNode, getElem?_linkChild, List.getElem?_modify, getElem?_linkChild]
  simp [h1, h2, hn.ne]

/-- One node is added. -/
theorem length_addLeaf (h : Heap) (p : NodeId) (s : List UInt8) (b : UInt8) :
    (addLeaf h p s b).length = h.length + 1 := by
  simp [addLeaf, linkChild]

/-- One node is added. -/
theorem length_splitNode (h : Heap) (n p : NodeId) (data : List UInt8) (k : ℕ) (b c : UInt8) :
    (splitNode h n p data k b c).length = h.length + 1 := by
  simp [splitNode, linkChild]

/-- Splitting inside the data runs through and yields the split heap. -/
theorem divide_ok {k : ℕ} (hx : h[n]? = some x) (hp : x.parent = some p) (hy : h[p]? = some y)
    (hb : x.data.head? = some b) (hk : 0 < k) (hc : x.data[k]? = some c) :
    divide n k h = .ok () (splitNode h n p x.data k b c) := by
  obtain ⟨hlt, hget⟩ := List.getElem?_eq_some_iff.mp hc
  have hcond : ¬ (x.data.length ≤ k ∧ k < 1) := by omega
  have hb' : (x.data.take k).head? = some b := by
    cases hd : x.data with
    | nil => rw [hd] at hb; cases hb
    | cons a t =>
      rw [hd] at hb
      cases k with
      | zero => omega
      | succ k => exact hb
  have hnew : (h ++ [(⟨x.data.take k, ∅, none, 1⟩ : Node)])[h.length]? =
      some ⟨x.data.take k, ∅, none, 1⟩ := by simp
  have hold {i : NodeId} {z : Node} (hz : h[i]? = some z) :
      (h ++ [(⟨x.data.take k, ∅, none, 1⟩ : Node)])[i]? = some z := by
    rw [List.getElem?_append_left (lt_length hz), hz]
  have hxl : (linkChild (h ++ [(⟨x.data.take k, ∅, none, 1⟩ : Node)]) p h.length b)[n]? =
      some { x with childNodes := if n = p then x.childNodes.insert b h.length else x.childNodes } := by
    rw [getElem?_linkChild, hold hx]
    simp [(lt_length hx).ne]
  refine (bind_ok (getData_ok hx)).trans ?_
  rw [if_neg hcond]
  refine (bind_ok (copyOfRange_ok (Nat.zero_le k) hlt.le h)).trans ?_
  refine (bind_ok (newNode_ok _ h)).trans ?_
  refine (bind_ok (getParent_ok (hold hx) hp)).trans ?_
  refine (bind_ok (addChild_ok hnew hb' (hold hy))).trans ?_
  refine (bind_ok (copyOfRange_ok hlt.le le_rfl _)).trans ?_
  refine (bind_ok (update_ok hxl _)).trans ?_
  have htake : (x.data.drop k).take (x.data.length - k) = x.data.drop k :=
    List.take_of_length_le (by rw [List.length_drop])
  rw [htake]
  have hleaf : ((linkChild (h ++ [(⟨x.data.take k, ∅, none, 1⟩ : Node)]) p h.length b).modify n
      fun x' => { x' with data := x.data.drop k })[n]? = some { x with
        data := x.data.drop k
        childNodes := if n = p then x.childNodes.insert b h.length else x.childNodes } := by
    rw [List.getElem?_modify_eq, hxl]
    rfl
  obtain ⟨z, hz⟩ : ∃ z, ((linkChild (h ++ [(⟨x.data.take k, ∅, none, 1⟩ : Node)]) p h.length b).modify n
      fun x' => { x' with data := x.data.drop k })[h.length]? = some z := by
    simp [List.getElem?_modify, getElem?_linkChild]
  exact addChild_ok hleaf (by rw [List.head?_drop, hc]) hz

/-- Forests are compared node by node. -/
theorem forest_eq {F : Forest NodeId UInt8}
    (hF : ∀ i, h[i]?.bind Node.parent = F.parent i ∧ (h[i]?.map Node.data).getD [] = F.label i) :
    forest h = F := by
  cases F with
  | mk parent label =>
    rw [forest, Forest.mk.injEq]
    exact ⟨funext fun i => (hF i).1, funext fun i => (hF i).2⟩

/-- Parents and data make the forest, so other changes do not matter to it. -/
theorem forest_modify (h : Heap) (n : NodeId) (f : Node → Node)
    (hp : ∀ x, (f x).parent = x.parent) (hd : ∀ x, (f x).data = x.data) :
    forest (h.modify n f) = forest h := by
  refine forest_eq fun i => ?_
  rw [List.getElem?_modify]
  simp only [forest]
  cases h[i]? with
  | none => exact ⟨rfl, rfl⟩
  | some x => by_cases hi : n = i <;> simp [hi, hp, hd]

/-- Counts do not matter to the forest. -/
theorem forest_counted (h : Heap) (n : NodeId) : forest (counted h n) = forest h :=
  forest_modify h n _ (fun _ => rfl) (fun _ => rfl)

/-- A new leaf is grafted on the forest. -/
theorem forest_addLeaf (hp : p < h.length) (s : List UInt8) (b : UInt8) :
    forest (addLeaf h p s b) = graft (forest h) h.length p s := by
  refine forest_eq fun i => ?_
  rcases Nat.lt_trichotomy i h.length with hi | hi | hi
  · simp only [getElem?_addLeaf_old i hi, graft, Function.update_of_ne hi.ne, forest]
    cases h[i]? <;> exact ⟨rfl, rfl⟩
  · subst hi
    rw [getElem?_addLeaf_new hp]
    simp [graft]
  · have hout : (addLeaf h p s b)[i]? = none :=
      List.getElem?_eq_none (by rw [length_addLeaf]; omega)
    simp [hout, graft, Function.update_of_ne hi.ne', forest, List.getElem?_eq_none hi.le]

/-- A division subdivides an edge of the forest. -/
theorem forest_splitNode (hx : h[n]? = some x) (hp : p < h.length) (k : ℕ) (b c : UInt8) :
    forest (splitNode h n p x.data k b c) = subdivide (forest h) n h.length p k := by
  have hnl := lt_length hx
  have hlab : (forest h).label n = x.data := by simp [forest, hx]
  refine forest_eq fun i => ?_
  rcases Nat.lt_trichotomy i h.length with hi | hi | hi
  · rw [getElem?_splitNode_old _ i hi]
    rcases eq_or_ne i n with rfl | hin
    · simp [subdivide, hx, hlab]
    · simp only [subdivide, Function.update_of_ne hin, Function.update_of_ne hi.ne, forest]
      cases h[i]? <;> simp [hin]
  · subst hi
    rw [getElem?_splitNode_new _ hnl hp]
    simp [subdivide, Function.update_of_ne hnl.ne', hlab]
  · have hout : (splitNode h n p x.data k b c)[i]? = none :=
      List.getElem?_eq_none (by rw [length_splitNode]; omega)
    have hin : i ≠ n := (hnl.trans hi).ne'
    simp [hout, subdivide, Function.update_of_ne hi.ne', Function.update_of_ne hin, forest,
      List.getElem?_eq_none hi.le]

/-- Parents in the forest are those of the nodes. -/
theorem forest_parent (hx : h[n]? = some x) : (forest h).parent n = x.parent := by simp [forest, hx]

/-- Labels in the forest are the data of the nodes. -/
theorem forest_label (hx : h[n]? = some x) : (forest h).label n = x.data := by simp [forest, hx]

/-- A node with a parent is a node of the heap. -/
theorem exists_of_parent (hp : (forest h).parent n = some p) :
    ∃ x, h[n]? = some x ∧ x.parent = some p := by
  simp only [forest, Option.bind_eq_some_iff] at hp
  exact hp

/-- The next node is not in the forest. -/
theorem WellFormed.fresh (hw : WellFormed h) : Fresh (forest h) h.length := by
  constructor
  · simp [forest]
  · intro i hi
    obtain ⟨x, hx, hxp⟩ := exists_of_parent hi
    obtain ⟨y, b, hy, _⟩ := hw.parents hx hxp
    exact lt_irrefl _ (lt_length hy)

/-- Well-formed heaps are deterministic forests. -/
theorem WellFormed.deterministic (hw : WellFormed h) : Deterministic (forest h) := by
  constructor
  · intro i q hi
    obtain ⟨x, hx, hxp⟩ := exists_of_parent hi
    obtain ⟨y, b, _, hb, _⟩ := hw.parents hx hxp
    rw [forest_label hx]
    rintro hnil
    rw [hnil] at hb
    cases hb
  · intro i j q hi hj hh
    obtain ⟨x, hx, hxp⟩ := exists_of_parent hi
    obtain ⟨z, hz, hzp⟩ := exists_of_parent hj
    obtain ⟨y, b, hy, hb, hl⟩ := hw.parents hx hxp
    obtain ⟨y', b', hy', hb', hl'⟩ := hw.parents hz hzp
    rw [forest_label hx, forest_label hz, hb, hb', Option.some.injEq] at hh
    rw [hy, Option.some.injEq] at hy'
    subst hh hy'
    rw [hl, Option.some.injEq] at hl'
    exact hl'

/-- No nodes are well formed. -/
theorem WellFormed.nil : WellFormed [] := ⟨by simp, by simp⟩

/-- A fresh root does no harm. -/
theorem WellFormed.newNode (hw : WellFormed h) (data : List UInt8) :
    WellFormed (h ++ [⟨data, ∅, none, 1⟩]) := by
  have hold {i : NodeId} {z : Node} (hz : h[i]? = some z) :
      (h ++ [(⟨data, ∅, none, 1⟩ : Node)])[i]? = some z := by
    rw [List.getElem?_append_left (lt_length hz), hz]
  have hcases {i : NodeId} {z : Node} (hz : (h ++ [(⟨data, ∅, none, 1⟩ : Node)])[i]? = some z) :
      h[i]? = some z ∨ z = ⟨data, ∅, none, 1⟩ := by
    rw [List.getElem?_append] at hz
    split at hz
    · exact .inl hz
    · exact .inr (by simpa using List.mem_of_getElem? hz)
  constructor
  · intro i z q hz hq
    rcases hcases hz with hz | rfl
    · obtain ⟨y, b, hy, hb, hl⟩ := hw.parents hz hq
      exact ⟨y, b, hold hy, hb, hl⟩
    · cases hq
  · intro q z b i hz hl
    rcases hcases hz with hz | rfl
    · obtain ⟨x, hx, hp, hb⟩ := hw.children hz hl
      exact ⟨x, hold hx, hp, hb⟩
    · simp at hl

/-- Counts do not matter here either. -/
theorem WellFormed.modify_count (hw : WellFormed h) (n : NodeId) (g : Node → JavaInt) :
    WellFormed (h.modify n fun x => { x with count := g x }) := by
  have hget (i : NodeId) : (h.modify n fun x => { x with count := g x })[i]? =
      h[i]?.map fun x => if n = i then { x with count := g x } else x := by
    rw [List.getElem?_modify]
    rfl
  have hold {i : NodeId} {z : Node} (hz : h[i]? = some z) :
      ∃ z', (h.modify n fun x => { x with count := g x })[i]? = some z' ∧ z'.parent = z.parent ∧
        z'.data = z.data ∧ z'.childNodes = z.childNodes := by
    rw [hget, hz]
    by_cases hi : n = i <;> simp [hi]
  have hcases {i : NodeId} {z' : Node}
      (hz : (h.modify n fun x => { x with count := g x })[i]? = some z') :
      ∃ z, h[i]? = some z ∧ z'.parent = z.parent ∧ z'.data = z.data ∧
        z'.childNodes = z.childNodes := by
    rw [hget, Option.map_eq_some_iff] at hz
    obtain ⟨z, hz, rfl⟩ := hz
    exact ⟨z, hz, by by_cases hi : n = i <;> simp [hi]⟩
  constructor
  · intro i z' q hz hq
    obtain ⟨z, hz, hp, hd, _⟩ := hcases hz
    obtain ⟨y, b, hy, hb, hl⟩ := hw.parents hz (hp ▸ hq)
    obtain ⟨y', hy', _, _, hc⟩ := hold hy
    exact ⟨y', b, hy', hd ▸ hb, hc ▸ hl⟩
  · intro q z' b i hz hl
    obtain ⟨z, hz, _, _, hc⟩ := hcases hz
    obtain ⟨x, hx, hp, hb⟩ := hw.children hz (hc ▸ hl)
    obtain ⟨x', hx', hp', hd, _⟩ := hold hx
    exact ⟨x', hx', hp'.trans hp, hd ▸ hb⟩

/-- So a node can be counted. -/
theorem WellFormed.counted (hw : WellFormed h) (n : NodeId) : WellFormed (counted h n) :=
  hw.modify_count n fun x => x.count + 1

/-- A new entry under another key leaves a child map alone. -/
theorem lookup_linked {q m : NodeId} {a : UInt8} {children : AList fun _ : UInt8 => NodeId}
    (h : ¬ (q = p ∧ a = b)) :
    (if q = p then children.insert b m else children).lookup a = children.lookup a := by
  by_cases hq : q = p
  · rw [if_pos hq, AList.lookup_insert_ne fun ha => h ⟨hq, ha⟩]
  · rw [if_neg hq]

/-- A heap with one node more has the old nodes and this one. -/
theorem old_or_new {i : NodeId} {z : Node} (hlen : h'.length = h.length + 1) (hz : h'[i]? = some z) :
    i < h.length ∨ i = h.length := by
  have hi := lt_length hz
  rw [hlen] at hi
  exact Nat.lt_succ_iff_lt_or_eq.mp hi

/-- A leaf can be added where no child begins with its first byte. -/
theorem WellFormed.addLeaf (hw : WellFormed h) (hy : h[p]? = some y) {s : List UInt8}
    (hb : s.head? = some b) (hl : y.childNodes.lookup b = none) :
    WellFormed (addLeaf h p s b) := by
  have hpl := lt_length hy
  have hlen := length_addLeaf h p s b
  constructor
  · intro i z q hz hq
    rcases old_or_new hlen hz with hi | rfl
    · rw [getElem?_addLeaf_old i hi, Option.map_eq_some_iff] at hz
      obtain ⟨x, hx, rfl⟩ := hz
      obtain ⟨y', a, hy', ha, hla⟩ := hw.parents hx hq
      refine ⟨_, a, by rw [getElem?_addLeaf_old q (lt_length hy'), hy']; rfl, ha, ?_⟩
      have hfree : ¬ (q = p ∧ a = b) := by
        rintro ⟨rfl, rfl⟩
        rw [hy, Option.some.injEq] at hy'
        subst hy'
        rw [hl] at hla
        cases hla
      exact (lookup_linked hfree).trans hla
    · rw [getElem?_addLeaf_new hpl, Option.some.injEq] at hz
      subst hz
      cases hq
      exact ⟨_, b, by rw [getElem?_addLeaf_old p hpl, hy]; rfl, hb, by simp⟩
  · intro q z a i hz hla
    rcases old_or_new hlen hz with hq | rfl
    · rw [getElem?_addLeaf_old q hq, Option.map_eq_some_iff] at hz
      obtain ⟨y', hy', rfl⟩ := hz
      by_cases hnew : q = p ∧ a = b
      · obtain ⟨rfl, rfl⟩ := hnew
        simp only [if_true, AList.lookup_insert, Option.some.injEq] at hla
        subst hla
        exact ⟨_, getElem?_addLeaf_new hpl s, rfl, hb⟩
      · have hla' : y'.childNodes.lookup a = some i := (lookup_linked hnew).symm.trans hla
        obtain ⟨x, hx, hxp, hxb⟩ := hw.children hy' hla'
        have hget := getElem?_addLeaf_old (p := p) (b := b) i (lt_length hx) s
        rw [hx, Option.map_some] at hget
        exact ⟨_, hget, hxp, hxb⟩
    · rw [getElem?_addLeaf_new hpl, Option.some.injEq] at hz
      subst hz
      simp at hla

theorem head?_take_of_pos {data : List UInt8} {k : ℕ} (hk : 0 < k) : (data.take k).head? = data.head? := by
  cases data with
  | nil => simp
  | cons a t =>
    cases k with
    | zero => omega
    | succ k => rfl

/-- After a split every node with a parent is found in its child map. -/
theorem WellFormed.parents_splitNode (hw : WellFormed h) (hx : h[n]? = some x) (hp : x.parent = some p)
    (hb : x.data.head? = some b) {k : ℕ} (hk : 0 < k) (hc : x.data[k]? = some c) {i q : NodeId} {z : Node}
    (hz : (splitNode h n p x.data k b c)[i]? = some z) (hq : z.parent = some q) :
    ∃ y a, (splitNode h n p x.data k b c)[q]? = some y ∧ z.data.head? = some a ∧
      y.childNodes.lookup a = some i := by
  have hnl := lt_length hx
  obtain ⟨y, b', hy, hb', hyn⟩ := hw.parents hx hp
  rw [hb, Option.some.injEq] at hb'
  subst hb'
  have hpl := lt_length hy
  have hdrop : (x.data.drop k).head? = some c := by rw [List.head?_drop, hc]
  have htake : (x.data.take k).head? = some b := by rw [head?_take_of_pos hk, hb]
  have hlen := length_splitNode h n p x.data k b c
  rcases old_or_new hlen hz with hi | rfl
  · rw [getElem?_splitNode_old _ i hi, Option.map_eq_some_iff] at hz
    obtain ⟨x', hx', rfl⟩ := hz
    by_cases hin : i = n
    · -- The split node hangs below the new one.
      subst hin
      simp only [if_true, Option.some.injEq] at hq ⊢
      subst hq
      exact ⟨_, c, getElem?_splitNode_new _ hnl hpl, hdrop, AList.lookup_insert _⟩
    · simp only [if_neg hin] at hq ⊢
      obtain ⟨y', a, hy', ha, hla⟩ := hw.parents hx' hq
      refine ⟨_, a, by rw [getElem?_splitNode_old _ q (lt_length hy'), hy']; rfl, ha, ?_⟩
      have hfree : ¬ (q = p ∧ a = b) := by
        rintro ⟨rfl, rfl⟩
        rw [hy, Option.some.injEq] at hy'
        subst hy'
        rw [hyn, Option.some.injEq] at hla
        exact hin hla.symm
      exact (lookup_linked hfree).trans hla
  · rw [getElem?_splitNode_new _ hnl hpl, Option.some.injEq] at hz
    subst hz
    cases hq
    exact ⟨_, b, by rw [getElem?_splitNode_old _ p hpl, hy]; rfl, htake, by simp⟩

/-- And every child map entry points to a node with that parent. -/
theorem WellFormed.children_splitNode (hw : WellFormed h) (hx : h[n]? = some x) (hp : x.parent = some p)
    (hb : x.data.head? = some b) {k : ℕ} (hk : 0 < k) (hc : x.data[k]? = some c) {q i : NodeId} {z : Node}
    {a : UInt8} (hz : (splitNode h n p x.data k b c)[q]? = some z) (hla : z.childNodes.lookup a = some i) :
    ∃ x', (splitNode h n p x.data k b c)[i]? = some x' ∧ x'.parent = some q ∧ x'.data.head? = some a := by
  have hnl := lt_length hx
  obtain ⟨y, -, hy, -⟩ := hw.parents hx hp
  have hpl := lt_length hy
  have hdrop : (x.data.drop k).head? = some c := by rw [List.head?_drop, hc]
  have htake : (x.data.take k).head? = some b := by rw [head?_take_of_pos hk, hb]
  have hlen := length_splitNode h n p x.data k b c
  rcases old_or_new hlen hz with hq | rfl
  · rw [getElem?_splitNode_old _ q hq, Option.map_eq_some_iff] at hz
    obtain ⟨y', hy', rfl⟩ := hz
    by_cases hnew : q = p ∧ a = b
    · obtain ⟨rfl, rfl⟩ := hnew
      simp only [if_true, AList.lookup_insert, Option.some.injEq] at hla
      subst hla
      exact ⟨_, getElem?_splitNode_new _ hnl hpl, rfl, htake⟩
    · have hla' : y'.childNodes.lookup a = some i := (lookup_linked hnew).symm.trans hla
      obtain ⟨x', hx', hxp, hxb⟩ := hw.children hy' hla'
      have hin : i ≠ n := by
        rintro rfl
        rw [hx, Option.some.injEq] at hx'
        subst hx'
        rw [hp, Option.some.injEq] at hxp
        rw [hb, Option.some.injEq] at hxb
        exact hnew ⟨hxp.symm, hxb.symm⟩
      have hget := getElem?_splitNode_old x.data (n := n) (p := p) (b := b) (c := c)
        (k := k) i (lt_length hx')
      rw [hx', Option.map_some] at hget
      exact ⟨_, hget, by simpa [hin] using hxp, by simpa [hin] using hxb⟩
  · rw [getElem?_splitNode_new _ hnl hpl, Option.some.injEq] at hz
    subst hz
    by_cases hac : a = c
    · subst hac
      simp only [AList.lookup_insert, Option.some.injEq] at hla
      subst hla
      have hget := getElem?_splitNode_old x.data (n := n) (p := p) (b := b) (c := a)
        (k := k) n hnl
      rw [hx, Option.map_some] at hget
      exact ⟨_, hget, by simp, by simpa using hdrop⟩
    · rw [AList.lookup_insert_ne hac] at hla
      simp at hla

/-- A node can be divided inside its data. -/
theorem WellFormed.splitNode (hw : WellFormed h) (hx : h[n]? = some x) (hp : x.parent = some p)
    (hb : x.data.head? = some b) {k : ℕ} (hk : 0 < k) (hc : x.data[k]? = some c) :
    WellFormed (splitNode h n p x.data k b c) :=
  ⟨hw.parents_splitNode hx hp hb hk hc, hw.children_splitNode hx hp hb hk hc⟩

end ApduPlay.PacketNode
