import Mathlib.Data.List.Nodup
import Mathlib.Data.List.Perm.Subperm
import Mathlib.Data.List.Range
import Mathlib.Data.Nat.Find

/-!
# Traversing a tree of references

Nodes refer to their children and to the node above. Whether the nodes that are
waiting are kept in a queue or on a stack, every node is visited once, after the
node above it.
-/

namespace TreeTraversal

universe u

variable {ι : Type u}

/-- What is below a root, itself included. -/
inductive Reachable (children : ι → List ι) (root : ι) : ι → Prop
  | root : Reachable children root root
  | child {n c : ι} : Reachable children root n → c ∈ children n → Reachable children root c

/-- The references below a root are those of a tree. -/
structure IsTree (children : ι → List ι) (parent : ι → Option ι) (root : ι) : Prop where
  /-- Nothing is above the root. -/
  parent_root : parent root = none
  /-- Every node knows the node above it. -/
  parent_child : ∀ {n c : ι}, Reachable children root n → c ∈ children n → parent c = some n
  /-- No child is referred to twice. -/
  nodup_children : ∀ {n : ι}, Reachable children root n → (children n).Nodup

/-- The nodes that were visited, in that order, and those that are waiting. -/
structure Frontier (children : ι → List ι) (root : ι) (visited waiting : List ι) : Prop where
  /-- No node is there twice. -/
  nodup : (visited ++ waiting).Nodup
  /-- They are below the root. -/
  reachable : ∀ n ∈ visited ++ waiting, Reachable children root n
  /-- The root is visited first. -/
  root_mem : root ∈ visited ∨ visited = [] ∧ waiting = [root]
  /-- The others came when the node above them was visited. -/
  above : ∀ n ∈ visited ++ waiting, n = root ∨ ∃ p ∈ visited, n ∈ children p
  /-- The children of a visited node are visited or waiting. -/
  closed : ∀ n ∈ visited, ∀ c ∈ children n, c ∈ visited ++ waiting

variable {children : ι → List ι} {parent : ι → Option ι} {root n c : ι} {visited waiting next : List ι}

/-- No node is above itself. -/
theorem IsTree.parent_ne (ht : IsTree children parent root) (hn : Reachable children root n) :
    parent n ≠ some n := by
  induction hn with
  | root =>
    rw [ht.parent_root]
    exact fun h => nomatch h
  | child hn hc ih =>
    have hparent := ht.parent_child hn hc
    intro hself
    rw [hparent, Option.some.injEq] at hself
    subst hself
    exact ih hparent

/-- Only the root waits at first. -/
theorem frontier_start (children : ι → List ι) (root : ι) : Frontier children root [] [root] where
  nodup := List.nodup_singleton root
  reachable n hn := by
    rw [List.mem_singleton.mp hn]
    exact .root
  root_mem := Or.inr ⟨rfl, rfl⟩
  above n hn := Or.inl (List.mem_singleton.mp hn)
  closed n hn := absurd hn List.not_mem_nil

/-- The children of a node that waits did not come yet. -/
theorem Frontier.not_mem_of_child (h : Frontier children root visited waiting)
    (ht : IsTree children parent root) (hn : n ∈ waiting) (hc : c ∈ children n) :
    c ∉ visited ++ waiting := by
  intro hmem
  have hreach := h.reachable n (List.mem_append_right visited hn)
  have hparent := ht.parent_child hreach hc
  rcases h.above c hmem with rfl | ⟨p, hp, hcp⟩
  · rw [ht.parent_root] at hparent
    cases hparent
  · -- The node above is the one that waits, so it was not visited.
    have hparent' := ht.parent_child (h.reachable p (List.mem_append_left waiting hp)) hcp
    rw [hparent, Option.some.injEq] at hparent'
    subst hparent'
    exact (List.nodup_append'.mp h.nodup).2.2 hp hn

/-- A node is visited and its children wait. -/
theorem Frontier.visit (h : Frontier children root visited (n :: waiting))
    (ht : IsTree children parent root) (hnext : next.Perm (waiting ++ children n)) :
    Frontier children root (visited ++ [n]) next := by
  have hreach : Reachable children root n :=
    h.reachable n (List.mem_append_right visited List.mem_cons_self)
  have hall : (visited ++ [n] ++ next).Perm (visited ++ n :: waiting ++ children n) := by
    rw [List.append_assoc, List.append_assoc]
    exact (hnext.cons n).append_left visited
  have hmem (c : ι) : c ∈ visited ++ [n] ++ next ↔ c ∈ visited ++ n :: waiting ∨ c ∈ children n := by
    rw [hall.mem_iff, List.mem_append]
  constructor
  · refine hall.nodup_iff.mpr (List.nodup_append'.mpr ⟨h.nodup, ht.nodup_children hreach, fun c hc hcn => ?_⟩)
    exact h.not_mem_of_child ht List.mem_cons_self hcn hc
  · intro c hc
    rcases (hmem c).mp hc with hc | hc
    · exact h.reachable c hc
    · exact .child hreach hc
  · rcases h.root_mem with hroot | ⟨hnone, hroot⟩
    · exact Or.inl (List.mem_append_left _ hroot)
    · rw [hnone, (List.cons.inj hroot).1]
      exact Or.inl (List.mem_singleton_self root)
  · intro c hc
    rcases (hmem c).mp hc with hc | hc
    · rcases h.above c hc with hroot | ⟨p, hp, hcp⟩
      · exact Or.inl hroot
      · exact Or.inr ⟨p, List.mem_append_left _ hp, hcp⟩
    · exact Or.inr ⟨n, by simp, hc⟩
  · intro p hp c hc
    rcases List.mem_append.mp hp with hp | hp
    · exact (hmem c).mpr (Or.inl (h.closed p hp c hc))
    · rw [List.mem_singleton.mp hp] at hc
      exact (hmem c).mpr (Or.inr hc)

/-- When no node waits all of them were visited. -/
theorem Frontier.mem_visited_iff (h : Frontier children root visited []) :
    n ∈ visited ↔ Reachable children root n := by
  have hall (m : ι) : m ∈ visited ++ [] ↔ m ∈ visited := by rw [List.append_nil]
  refine ⟨fun hn => h.reachable n ((hall n).mpr hn), fun hn => ?_⟩
  induction hn with
  | root => exact h.root_mem.resolve_right fun hnone => absurd hnone.2 (List.cons_ne_nil _ _).symm
  | @child n c _ hc ih => exact (hall c).mp (h.closed n ih c hc)

/-- There are not more rounds than nodes. -/
theorem Frontier.length_lt {children : ℕ → List ℕ} {root n bound : ℕ} {visited waiting : List ℕ}
    (h : Frontier children root visited (n :: waiting))
    (hbound : ∀ n, Reachable children root n → n < bound) : visited.length < bound := by
  have hsub : visited ++ n :: waiting ⊆ List.range bound := fun c hc =>
    List.mem_range.mpr (hbound c (h.reachable c hc))
  have hlength := (h.nodup.subperm hsub).length_le
  rw [List.length_append, List.length_cons, List.length_range] at hlength
  omega

/-- What is so many steps below a root. -/
inductive AtDepth (children : ι → List ι) (root : ι) : ℕ → ι → Prop
  | root : AtDepth children root 0 root
  | child {k : ℕ} {n c : ι} : AtDepth children root k n → c ∈ children n → AtDepth children root (k + 1) c

variable {k : ℕ} {nodes : List ι}

/-- Every node has a depth. -/
theorem AtDepth.exists_of_reachable (h : Reachable children root n) : ∃ k, AtDepth children root k n := by
  induction h with
  | root => exact ⟨0, .root⟩
  | child _ hchild ih =>
    obtain ⟨k, hk⟩ := ih
    exact ⟨k + 1, hk.child hchild⟩

theorem AtDepth.reachable (h : AtDepth children root k n) : Reachable children root n := by
  induction h with
  | root => exact .root
  | child _ hc ih => exact .child ih hc

/-- The nodes of a depth, each of them once. -/
structure Level (children : ι → List ι) (root : ι) (k : ℕ) (nodes : List ι) : Prop where
  /-- No node is there twice. -/
  nodup : nodes.Nodup
  /-- All of them are there. -/
  mem : ∀ n, n ∈ nodes ↔ AtDepth children root k n

theorem level_root (children : ι → List ι) (root : ι) : Level children root 0 [root] where
  nodup := List.nodup_singleton root
  mem n := by
    rw [List.mem_singleton]
    constructor
    · rintro rfl
      exact .root
    · rintro ⟨⟩
      rfl

/-- Their children are the nodes of the next depth. -/
theorem Level.below (h : Level children root k nodes) (ht : IsTree children parent root)
    (hnext : next.Perm (nodes.flatMap children)) : Level children root (k + 1) next where
  nodup := by
    rw [hnext.nodup_iff, List.nodup_flatMap]
    refine ⟨fun n hn => ht.nodup_children ((h.mem n).mp hn).reachable, ?_⟩
    refine h.nodup.imp_of_mem fun {n m} hn hm hne => List.disjoint_left.mpr fun c hcn hcm => hne ?_
    have hparent := ht.parent_child ((h.mem n).mp hn).reachable hcn
    have hparent' := ht.parent_child ((h.mem m).mp hm).reachable hcm
    rw [hparent, Option.some.injEq] at hparent'
    exact hparent'
  mem c := by
    rw [hnext.mem_iff, List.mem_flatMap]
    constructor
    · rintro ⟨n, hn, hc⟩
      exact .child ((h.mem n).mp hn) hc
    · rintro (_ | ⟨hn, hc⟩)
      exact ⟨_, (h.mem _).mpr hn, hc⟩

/-- A node is at one depth only. -/
theorem AtDepth.unique {j : ℕ} (ht : IsTree children parent root) (hj : AtDepth children root j n)
    (hk : AtDepth children root k n) : j = k := by
  induction hj generalizing k with
  | root =>
    cases hk with
    | root => rfl
    | child hp hc =>
      have hparent := ht.parent_child hp.reachable hc
      rw [ht.parent_root] at hparent
      cases hparent
  | child hp hc ih =>
    have hparent := ht.parent_child hp.reachable hc
    cases hk with
    | root =>
      rw [ht.parent_root] at hparent
      cases hparent
    | child hq hd =>
      rw [ht.parent_child hq.reachable hd, Option.some.injEq] at hparent
      subst hparent
      rw [ih hq]

/-- Above a depth with a node there is one at every depth. -/
theorem AtDepth.exists_of_le {j : ℕ} (hk : AtDepth children root k n) (hj : j ≤ k) :
    ∃ m, AtDepth children root j m := by
  induction hk with
  | root =>
    rw [Nat.le_zero.mp hj]
    exact ⟨root, .root⟩
  | @child k p c hp hc ih =>
    rcases Nat.eq_or_lt_of_le hj with rfl | hlt
    · exact ⟨c, .child hp hc⟩
    · exact ih (Nat.lt_succ_iff.mp hlt)

/-- There are no more depths than nodes. -/
theorem IsTree.depth_lt (ht : IsTree children parent root)
    (hnodes : ∀ n, Reachable children root n → n ∈ nodes)
    (hk : AtDepth children root k n) : k < nodes.length := by
  have hall : ∀ j, ∃ m, j ≤ k → AtDepth children root j m := fun j =>
    if hj : j ≤ k then (hk.exists_of_le hj).imp fun _ hm _ => hm else ⟨root, fun h => absurd h hj⟩
  choose nodeAt hat using hall
  have hle {j : ℕ} (hj : j ∈ List.range (k + 1)) : j ≤ k := Nat.lt_succ_iff.mp (List.mem_range.mp hj)
  have hnodup : ((List.range (k + 1)).map nodeAt).Nodup :=
    List.nodup_range.map_on fun i hi j hj heq => (hat i (hle hi)).unique ht (heq ▸ hat j (hle hj))
  have hsub : (List.range (k + 1)).map nodeAt ⊆ nodes := by
    intro n hn
    obtain ⟨j, hj, rfl⟩ := List.mem_map.mp hn
    exact hnodes _ (hat j (hle hj)).reachable
  have hlength := (hnodup.subperm hsub).length_le
  rwa [List.length_map, List.length_range] at hlength

/-- There is a last depth with nodes. -/
theorem IsTree.exists_depth (ht : IsTree children parent root)
    (hnodes : ∀ n, Reachable children root n → n ∈ nodes) :
    ∃ depth < nodes.length, (∀ n, ¬ AtDepth children root (depth + 1) n) ∧
      ∀ j ≤ depth, ∃ n, AtDepth children root j n := by
  have hsome : ∃ k, ∀ n, ¬ AtDepth children root (k + 1) n :=
    ⟨nodes.length, fun n hn => absurd (ht.depth_lt hnodes hn) (Nat.lt_succ_self _).not_gt⟩
  classical
  obtain ⟨m, hm⟩ : ∃ m, AtDepth children root (Nat.find hsome) m := by
    cases hfind : Nat.find hsome with
    | zero => exact ⟨root, .root⟩
    | succ k =>
      have hmin := Nat.find_min hsome (hfind.symm ▸ k.lt_succ_self : k < Nat.find hsome)
      obtain ⟨n, hn⟩ := not_forall.mp hmin
      exact ⟨n, not_not.mp hn⟩
  exact ⟨Nat.find hsome, ht.depth_lt hnodes hm, Nat.find_spec hsome, fun j hj => hm.exists_of_le hj⟩

end TreeTraversal
