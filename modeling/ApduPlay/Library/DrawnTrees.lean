import ApduPlay.Library.LabelForest
import ApduPlay.Library.TreeTraversal

/-!
# Drawings of labelled trees

A drawing lists the nodes with their labels and the edges between them. If it was drawn
of a tree, the words that are spelled along its edges are those of the tree.
-/

namespace DrawnTrees

open LabelForest TreeTraversal

universe u v

variable {ι : Type u} {α : Type v}

/-- Nodes with their labels, and edges that go down. -/
structure Drawing (ι : Type u) (α : Type v) where
  /-- The nodes. -/
  labels : List (ι × List α)
  /-- The edges. -/
  edges : List (ι × ι)
  deriving DecidableEq, Repr

/-- The word read along the edges on the way down from a node. -/
inductive Drawing.Spells (g : Drawing ι α) (root : ι) : ι → List α → Prop
  | root : Spells g root root []
  | child {p c : ι} {w label : List α} :
      Spells g root p w → (p, c) ∈ g.edges → (c, label) ∈ g.labels → Spells g root c (w ++ label)

/-- What can be read down from a node. -/
def Drawing.words (g : Drawing ι α) (root : ι) : Set (List α) := {u | ∃ n w, g.Spells root n w ∧ u <+: w}

/-- A drawing of a tree. -/
structure Draws (g : Drawing ι α) (F : Forest ι α) (children : ι → List ι) (root : ι) : Prop where
  /-- No node is drawn twice. -/
  nodup : (g.labels.map Prod.fst).Nodup
  /-- The nodes are those of the tree, with their labels. -/
  labels : ∀ n label, (n, label) ∈ g.labels ↔ Reachable children root n ∧ F.label n = label
  /-- The edges are those of the tree. -/
  edges : ∀ p c, (p, c) ∈ g.edges ↔ Reachable children root p ∧ c ∈ children p

variable {g : Drawing ι α} {F : Forest ι α} {children : ι → List ι} {root n : ι} {w : List α}

/-- A drawing of a tree spells what the tree does. -/
theorem Draws.spells_iff (h : Draws g F children root) (ht : IsTree children F.parent root) :
    g.Spells root n w ↔ Reachable children root n ∧ Spells F root n w := by
  constructor
  · intro hs
    induction hs with
    | root => exact ⟨.root, .root ht.parent_root⟩
    | child _ hedge hlabel ih =>
      obtain ⟨hp, hc⟩ := (h.edges _ _).mp hedge
      obtain ⟨hreach, rfl⟩ := (h.labels _ _).mp hlabel
      exact ⟨hreach, .child ih.2 (ht.parent_child hp hc)⟩
  · rintro ⟨hreach, hs⟩
    induction hreach generalizing w with
    | root =>
      cases hs with
      | root _ => exact .root
      | child _ hp => rw [ht.parent_root] at hp; cases hp
    | @child p c hp hc ih =>
      have hparent := ht.parent_child hp hc
      cases hs with
      | root hr => rw [hr] at hparent; cases hparent
      | @child q _ u hq hq' =>
        rw [hparent, Option.some.injEq] at hq'
        subst hq'
        exact .child (ih hq) ((h.edges _ _).mpr ⟨hp, hc⟩) ((h.labels _ _).mpr ⟨.child hp hc, rfl⟩)

/-- The beginnings of what the nodes of a tree spell. -/
def treeWords (F : Forest ι α) (children : ι → List ι) (root : ι) : Set (List α) :=
  {u | ∃ n w, (Reachable children root n ∧ Spells F root n w) ∧ u <+: w}

theorem Draws.words_eq (h : Draws g F children root) (ht : IsTree children F.parent root) :
    g.words root = treeWords F children root := by
  ext u
  exact exists₂_congr fun _ _ => and_congr_left' (h.spells_iff ht)

/-- If all nodes of the forest that hang below the root belong to the tree, its words
are the paths. -/
theorem treeWords_eq_paths (hreach : ∀ {n w}, Spells F root n w → Reachable children root n) :
    treeWords F children root = paths F root := by
  ext u
  constructor
  · rintro ⟨n, w, ⟨-, hs⟩, hu⟩
    exact ⟨w, ⟨n, hs⟩, hu⟩
  · rintro ⟨w, ⟨n, hs⟩, hu⟩
    exact ⟨n, w, ⟨hreach hs, hs⟩, hu⟩

end DrawnTrees
