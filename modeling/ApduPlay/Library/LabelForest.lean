import Mathlib.Data.List.Infix
import Mathlib.Data.Set.Basic
import Mathlib.Logic.Function.Basic
import ApduPlay.Library.WordCuts

/-!
# Forests of labelled nodes

A node carries a word and at most one parent, and spells the labels met on
the way down from its root. Grafting a leaf and subdividing an edge are the
two structural changes of a compressed prefix tree; neither changes what an
existing node spells. In a deterministic forest the children of a node start
with different letters, and then every spelled word has one node.
-/

namespace LabelForest

universe u v

variable {ι : Type u} {α : Type v}

/-- A set of nodes with parent links and labels; roots have no parent. -/
structure Forest (ι : Type u) (α : Type v) where
  /-- The node directly above, absent at a root. -/
  parent : ι → Option ι
  /-- The letters a node adds to the word of its parent. -/
  label : ι → List α

/-- The word read below `root` on the way down to a node. The label of the
root itself is not part of it. -/
inductive Spells (F : Forest ι α) (root : ι) : ι → List α → Prop
  | root : F.parent root = none → Spells F root root []
  | child {p n : ι} {w : List α} :
      Spells F root p w → F.parent n = some p → Spells F root n (w ++ F.label n)

/-- Ancestor or equal. -/
inductive Above (F : Forest ι α) (n : ι) : ι → Prop
  | refl : Above F n n
  | step {p m : ι} : Above F n p → F.parent m = some p → Above F n m

/-- No child repeats the first letter of a sibling, and no child is empty. -/
structure Deterministic (F : Forest ι α) : Prop where
  /-- Every node below a root adds at least one letter. -/
  label_ne_nil : ∀ {n p : ι}, F.parent n = some p → F.label n ≠ []
  /-- Siblings are told apart by their first letters. -/
  head_injective : ∀ {n m p : ι}, F.parent n = some p → F.parent m = some p →
    (F.label n).head? = (F.label m).head? → n = m

variable {F : Forest ι α} {r n m p q : ι} {w w' v u : List α}

/-- A node spells one word only. -/
theorem Spells.word_unique (h : Spells F r n w) (h' : Spells F r n w') : w = w' := by
  induction h generalizing w' with
  | root hr =>
    cases h' with
    | root _ => rfl
    | child _ hp => rw [hr] at hp; cases hp
  | child hs hp ih =>
    cases h' with
    | root hr => rw [hr] at hp; cases hp
    | child hs' hp' =>
      rw [hp] at hp'
      cases hp'
      rw [ih hs']

/-- A node lies under one root only. -/
theorem Spells.root_unique {s : ι} (h : Spells F r n w) (h' : Spells F s n w') : r = s := by
  induction h generalizing w' with
  | root hr =>
    cases h' with
    | root _ => rfl
    | child _ hp => rw [hr] at hp; cases hp
  | child hs hp ih =>
    cases h' with
    | root hr => rw [hr] at hp; cases hp
    | child hs' hp' =>
      rw [hp] at hp'
      cases hp'
      exact ih hs'

/-- What is spelled from a root lies below it. -/
theorem Spells.above_root (h : Spells F r n w) : Above F r n := by
  induction h with
  | root _ => exact .refl
  | child _ hp ih => exact .step ih hp

/-- The node reached first on the way from an ancestor to a proper descendant. -/
theorem Above.eq_or_child (h : Above F n m) :
    n = m ∨ ∃ c, F.parent c = some n ∧ Above F c m := by
  induction h with
  | refl => exact .inl rfl
  | step _ hp ih =>
    rcases ih with rfl | ⟨c, hc, hcp⟩
    · exact .inr ⟨_, hp, .refl⟩
    · exact .inr ⟨c, hc, .step hcp hp⟩

/-- Going down only extends the word. -/
theorem Above.word_prefix (h : Above F n m) (hn : Spells F r n w) (hm : Spells F r m w') :
    w <+: w' := by
  induction h generalizing w' with
  | refl => rw [hn.word_unique hm]
  | step _ hp ih =>
    cases hm with
    | root hr => rw [hr] at hp; cases hp
    | child hs hp' =>
      rw [hp] at hp'
      cases hp'
      exact (ih hs).trans (List.prefix_append _ _)

/-- Being above is transitive. -/
theorem Above.trans (h : Above F n m) (h' : Above F m p) : Above F n p := by
  induction h' with
  | refl => exact h
  | step _ hp ih => exact .step ih hp

/-- Below a node of a tree lie nodes of the tree. -/
theorem Above.exists_spells (h : Above F n m) (hn : Spells F r n w) : ∃ w', Spells F r m w' := by
  induction h with
  | refl => exact ⟨w, hn⟩
  | step _ hp ih =>
    obtain ⟨w', hw'⟩ := ih
    exact ⟨_, .child hw' hp⟩

/-- In a deterministic forest a proper descendant spells a longer word. -/
theorem Above.length_lt (hF : Deterministic F) (h : Above F n m) (hne : n ≠ m)
    (hn : Spells F r n w) (hm : Spells F r m w') : w.length < w'.length := by
  cases h with
  | refl => exact absurd rfl hne
  | step ha hp =>
    cases hm with
    | root hr => rw [hr] at hp; cases hp
    | child hs hp' =>
      rw [hp] at hp'
      cases hp'
      have hle := (ha.word_prefix hn hs).length_le
      have hpos := List.length_pos_of_ne_nil (hF.label_ne_nil hp)
      rw [List.length_append]
      omega

/-- No node hangs below itself. -/
theorem Spells.child_ne (hF : Deterministic F) (hp : Spells F r p w) (hn : F.parent n = some p) :
    n ≠ p := by
  rintro rfl
  have he := hp.word_unique (.child hp hn)
  rw [List.self_eq_append_right] at he
  exact hF.label_ne_nil hn he

/-- Two words part ways when they continue a common word differently. -/
def Diverge (w w' : List α) : Prop := ∃ v a b, v ++ [a] <+: w ∧ v ++ [b] <+: w' ∧ a ≠ b

/-- Words that diverge do not begin each other. -/
theorem Diverge.not_prefix (h : Diverge w w') : ¬ w <+: w' := by
  obtain ⟨v, a, b, ha, hb, hab⟩ := h
  exact fun hp => hab (WordCuts.next_letter_unique (ha.trans hp) hb)

/-- Two words part ways at one place only. -/
theorem parting_unique {a b c d : α} (ha : v ++ [a] <+: w) (hb : v ++ [b] <+: w') (hab : a ≠ b)
    (hc : u ++ [c] <+: w) (hd : u ++ [d] <+: w') (hcd : c ≠ d) : v = u := by
  have hvw := (List.prefix_append v [a]).trans ha
  have hvw' := (List.prefix_append v [b]).trans hb
  have huw := (List.prefix_append u [c]).trans hc
  have huw' := (List.prefix_append u [d]).trans hd
  rcases lt_trichotomy v.length u.length with hl | hl | hl
  · have h1 := List.prefix_of_prefix_length_le ha huw (by rw [List.length_append]; exact hl)
    have h2 := List.prefix_of_prefix_length_le hb huw' (by rw [List.length_append]; exact hl)
    exact absurd (List.prefix_refl u) (Diverge.not_prefix ⟨v, a, b, h1, h2, hab⟩)
  · exact (List.prefix_of_prefix_length_le hvw huw hl.le).eq_of_length hl
  · have h1 := List.prefix_of_prefix_length_le hc hvw (by rw [List.length_append]; exact hl)
    have h2 := List.prefix_of_prefix_length_le hd hvw' (by rw [List.length_append]; exact hl)
    exact absurd (List.prefix_refl v) (Diverge.not_prefix ⟨u, c, d, h1, h2, hcd⟩)

/-- Any two nodes under one root are comparable, or their words part ways at
a node. The induction follows the first node down from the root. -/
theorem comparable_or_part (hF : Deterministic F) (hn : Spells F r n w)
    (hm : Spells F r m w') : Above F n m ∨ Above F m n ∨
      ∃ q v a b, Spells F r q v ∧ v ++ [a] <+: w ∧ v ++ [b] <+: w' ∧ a ≠ b := by
  induction hn with
  | root _ => exact .inl hm.above_root
  | @child p n w hs hp ih =>
    rcases ih with hab | hab | hd
    · rcases hab.eq_or_child with rfl | ⟨c, hc, hcm⟩
      · exact .inr (.inl (.step .refl hp))
      · by_cases hcn : c = n
        · exact .inl (hcn ▸ hcm)
        · -- `c` and `n` are different children of `p`: their first letters differ.
          have hwc : w ++ F.label c <+: w' := hcm.word_prefix (.child hs hc) hm
          obtain ⟨a, s, ha⟩ := List.exists_cons_of_ne_nil (hF.label_ne_nil hp)
          obtain ⟨b, t, hb⟩ := List.exists_cons_of_ne_nil (hF.label_ne_nil hc)
          refine .inr (.inr ⟨p, w, a, b, hs, ?_, ?_, ?_⟩)
          · rw [ha]
            exact ⟨s, by simp⟩
          · refine List.IsPrefix.trans ?_ hwc
            rw [hb]
            exact ⟨t, by simp⟩
          · intro heq
            exact hcn (hF.head_injective hc hp (by rw [ha, hb, heq]; rfl))
    · exact .inr (.inl (.step hab hp))
    · obtain ⟨q, v, a, b, hq, ha, hb, hne⟩ := hd
      exact .inr (.inr ⟨q, v, a, b, hq, ha.trans (List.prefix_append _ _), hb, hne⟩)

/-- A word with the other as prefix belongs to a node below. -/
theorem above_of_initial (hF : Deterministic F) (hn : Spells F r n w) (hm : Spells F r m w')
    (hp : w <+: w') : Above F n m := by
  rcases comparable_or_part hF hn hm with h | h | ⟨q, v, a, b, _, ha, hb, hab⟩
  · exact h
  · by_cases hnm : m = n
    · exact hnm ▸ .refl
    · have hlt := h.length_lt hF hnm hm hn
      have hle := hp.length_le
      omega
  · exact absurd hp (Diverge.not_prefix ⟨v, a, b, ha, hb, hab⟩)

/-- Every spelled word has one node. -/
theorem spells_injective (hF : Deterministic F) (hn : Spells F r n w) (hm : Spells F r m w) :
    n = m := by
  by_contra hne
  have hlt := (above_of_initial hF hn hm (List.prefix_refl w)).length_lt hF hne hn hm
  exact lt_irrefl _ hlt

/-- No node ends strictly inside the label of another one. -/
theorem not_spells_inside (hF : Deterministic F) (hp : Spells F r p v) (hn : F.parent n = some p)
    (hvu : v <+: u) (hu : u <+: v ++ F.label n) (hne : u ≠ v) (hne' : u ≠ v ++ F.label n) :
    ¬ Spells F r q u := by
  intro hq
  have hab := above_of_initial hF hq (.child hp hn) hu
  rcases hab with _ | ⟨hqp', hn'⟩
  · exact hne' (hq.word_unique (.child hp hn))
  · rw [hn] at hn'
    cases hn'
    exact hne ((hqp'.word_prefix hq hp).eq_of_length
      (le_antisymm (hqp'.word_prefix hq hp).length_le hvu.length_le))

/-- The words spelled below a root. -/
def cuts (F : Forest ι α) (r : ι) : Set (List α) := {w | ∃ n, Spells F r n w}

/-- All prefixes of the words spelled below a root. -/
def paths (F : Forest ι α) (r : ι) : Set (List α) := {u | ∃ w ∈ cuts F r, u <+: w}

/-- Cuts are on paths. -/
theorem cuts_subset_paths : cuts F r ⊆ paths F r := fun w hw => ⟨w, hw, List.prefix_refl w⟩

/-- The beginning of a path is one. -/
theorem mem_paths_of_initial (hu : u <+: w) (hw : w ∈ paths F r) : u ∈ paths F r := by
  obtain ⟨x, hx, hwx⟩ := hw
  exact ⟨x, hx, hu.trans hwx⟩

/-- Reading past a node along a letter that none of its children starts
with leaves the forest. -/
theorem not_mem_paths_of_no_child (hF : Deterministic F) (hn : Spells F r n w) {a : α}
    (hc : ∀ c, F.parent c = some n → (F.label c).head? ≠ some a) : w ++ [a] ∉ paths F r := by
  rintro ⟨w', ⟨m, hm⟩, hp⟩
  have hab := above_of_initial hF hn hm ((List.prefix_append _ _).trans hp)
  rcases hab.eq_or_child with rfl | ⟨c, hcn, hcm⟩
  · have hle := hp.length_le
    rw [hn.word_unique hm, List.length_append, List.length_singleton] at hle
    omega
  · obtain ⟨b, t, hb⟩ := List.exists_cons_of_ne_nil (hF.label_ne_nil hcn)
    have hw' : w ++ [b] <+: w' := by
      refine List.IsPrefix.trans ?_ (hcm.word_prefix (.child hn hcn) hm)
      rw [hb]
      exact ⟨t, by simp⟩
    exact hc c hcn (by rw [hb, WordCuts.next_letter_unique hp hw']; rfl)

/-- Reading on along a letter other than the next one inside a label leaves
the forest. -/
theorem not_mem_paths_inside (hF : Deterministic F) (hp : Spells F r p v)
    (hn : F.parent n = some p) {s t : List α} {a b : α} (hl : F.label n = s ++ b :: t)
    (hs : s ≠ []) (hab : a ≠ b) : v ++ s ++ [a] ∉ paths F r := by
  rintro ⟨w', ⟨m, hm⟩, hw'⟩
  have hnw : v ++ s ++ [b] <+: v ++ F.label n := by rw [hl]; exact ⟨t, by simp⟩
  rcases comparable_or_part hF (.child hp hn) hm with h | h | ⟨q, x, c, d, hq, hc, hd, hcd⟩
  · have hd : Diverge (v ++ F.label n) w' := ⟨v ++ s, b, a, hnw, hw', hab.symm⟩
    exact hd.not_prefix (h.word_prefix (.child hp hn) hm)
  · have hd : Diverge w' (v ++ F.label n) := ⟨v ++ s, a, b, hw', hnw, hab⟩
    exact hd.not_prefix (h.word_prefix hm (.child hp hn))
  · -- The words part at a node, and they part right after `v ++ s`.
    have hx : x = v ++ s := parting_unique hc hd hcd hnw hw' hab.symm
    have hlen : (v ++ F.label n).length = v.length + (s.length + (t.length + 1)) := by
      rw [hl]; simp
    refine not_spells_inside (u := v ++ s) hF hp hn (List.prefix_append _ _)
      ((List.prefix_append _ _).trans hnw) (by simpa using hs) ?_ (hx ▸ hq)
    intro he
    rw [← he, List.length_append] at hlen
    omega

/-- A node nothing points to yet. -/
def Fresh (F : Forest ι α) (m : ι) : Prop := F.parent m = none ∧ ∀ n, F.parent n ≠ some m

/-- A fresh node is not a child. -/
theorem Fresh.ne_child (hm : Fresh F m) (hn : F.parent n = some p) : n ≠ m := by
  rintro rfl
  rw [hm.1] at hn
  cases hn

/-- Nor is it a parent. -/
theorem Fresh.ne_parent (hm : Fresh F m) (hn : F.parent n = some p) : p ≠ m :=
  fun he => hm.2 n (he ▸ hn)

/-- A fresh node spells nothing below another root. -/
theorem Fresh.ne_of_spells (hm : Fresh F m) (hr : r ≠ m) (h : Spells F r n w) : n ≠ m := by
  cases h with
  | root _ => exact hr
  | child _ hn => exact hm.ne_child hn

/-- A node continues one word only. -/
theorem setOf_spelled (h : Spells F r n v) (u : List α) :
    {w | ∃ x, Spells F r n x ∧ w = x ++ u} = {v ++ u} := by
  ext w
  constructor
  · rintro ⟨x, hx, rfl⟩
    rw [hx.word_unique h]
    rfl
  · rintro rfl
    exact ⟨v, h, rfl⟩

section Edit

variable [DecidableEq ι]

/-- Hang the new node `m` with label `s` under `p`. -/
def graft (F : Forest ι α) (m p : ι) (s : List α) : Forest ι α where
  parent := Function.update F.parent m (some p)
  label := Function.update F.label m s

/-- Cut the label of `n` after `k` letters: the new node `m` takes the first
part and the place of `n` under `p`, and `n` moves below it. -/
def subdivide (F : Forest ι α) (n m p : ι) (k : ℕ) : Forest ι α where
  parent := Function.update (Function.update F.parent m (some p)) n (some m)
  label := Function.update (Function.update F.label m ((F.label n).take k)) n
    ((F.label n).drop k)

/-- A graft changes nothing for the old nodes. -/
theorem spells_graft_old (hm : Fresh F m) (hr : r ≠ m) {s : List α} (hn : n ≠ m) :
    Spells (graft F m p s) r n w ↔ Spells F r n w := by
  constructor
  · intro h
    induction h with
    | root h0 => exact .root (by simpa [graft, Function.update_of_ne hr] using h0)
    | @child q n w _ hq ih =>
      simp only [graft, Function.update_of_ne hn] at hq ⊢
      exact .child (ih (hm.ne_parent hq)) hq
  · intro h
    induction h with
    | root h0 => exact .root (by simpa [graft, Function.update_of_ne hr] using h0)
    | @child q n w _ hq ih =>
      have hqm : q ≠ m := hm.ne_parent hq
      have hlab : F.label n = (graft F m p s).label n := by simp [graft, Function.update_of_ne hn]
      rw [hlab]
      exact .child (ih hqm) (by simpa [graft, Function.update_of_ne hn] using hq)

/-- The new node spells on from its parent. -/
theorem spells_graft_new (hm : Fresh F m) (hp : p ≠ m) (hr : r ≠ m) {s : List α} :
    Spells (graft F m p s) r m w ↔ ∃ v, Spells F r p v ∧ w = v ++ s := by
  constructor
  · intro h
    cases h with
    | root _ => exact absurd rfl hr
    | child hs hq =>
      simp only [graft, Function.update_self] at hq ⊢
      cases hq
      exact ⟨_, (spells_graft_old hm hr hp).mp hs, rfl⟩
  · rintro ⟨v, hv, rfl⟩
    have hlab : s = (graft F m p s).label m := by simp [graft]
    conv => rhs; rw [hlab]
    exact .child ((spells_graft_old hm hr hp).mpr hv) (by simp [graft])

/-- Grafting adds one word. -/
theorem cuts_graft (hm : Fresh F m) (hp : p ≠ m) (hr : r ≠ m) {s : List α} :
    cuts (graft F m p s) r = cuts F r ∪ {w | ∃ v, Spells F r p v ∧ w = v ++ s} := by
  ext w
  constructor
  · rintro ⟨n, hn⟩
    by_cases hnm : n = m
    · subst hnm
      exact .inr ((spells_graft_new hm hp hr).mp hn)
    · exact .inl ⟨n, (spells_graft_old hm hr hnm).mp hn⟩
  · rintro (⟨n, hn⟩ | hv)
    · exact ⟨n, (spells_graft_old hm hr (hm.ne_of_spells hr hn)).mpr hn⟩
    · exact ⟨m, (spells_graft_new hm hp hr).mpr hv⟩

/-- What the nodes spell after an edge was subdivided: the old ones what they
spelled before, the new one the word up to the cut. -/
theorem spells_subdivide_aux (hm : Fresh F m) (hn : F.parent n = some p) (hr : r ≠ m) {k : ℕ}
    {i : ι} (h : Spells (subdivide F n m p k) r i w) :
    (i ≠ m → Spells F r i w) ∧ (i = m → ∃ v, Spells F r p v ∧ w = v ++ (F.label n).take k) := by
  have hnm : n ≠ m := hm.ne_child hn
  have hpm : p ≠ m := hm.ne_parent hn
  induction h with
  | root h0 =>
    refine ⟨fun _ => ?_, fun he => absurd he hr⟩
    by_cases hrn : r = n
    · subst hrn
      simp [subdivide] at h0
    · exact .root (by simpa [subdivide, Function.update_of_ne hrn, Function.update_of_ne hr] using h0)
  | @child q i w _ hq ih =>
    by_cases hin : i = n
    · subst hin
      simp only [subdivide, Function.update_self, Option.some.injEq] at hq
      obtain ⟨v, hv, rfl⟩ := ih.2 hq.symm
      refine ⟨fun _ => ?_, fun he => absurd he hnm⟩
      simp only [subdivide, Function.update_self, List.append_assoc, List.take_append_drop]
      exact .child hv hn
    · by_cases him : i = m
      · subst him
        simp only [subdivide, Function.update_of_ne hin, Function.update_self, Option.some.injEq] at hq
        subst hq
        refine ⟨fun he => absurd rfl he, fun _ => ⟨w, ih.1 hpm, ?_⟩⟩
        simp [subdivide, Function.update_of_ne hin]
      · simp only [subdivide, Function.update_of_ne hin, Function.update_of_ne him] at hq
        refine ⟨fun _ => ?_, fun he => absurd he him⟩
        have hlab : (subdivide F n m p k).label i = F.label i := by
          simp [subdivide, Function.update_of_ne hin, Function.update_of_ne him]
        rw [hlab]
        exact .child (ih.1 (hm.ne_parent hq)) hq

/-- A subdivision changes nothing for the old nodes. -/
theorem spells_subdivide_old (hm : Fresh F m) (hn : F.parent n = some p) (hr : r ≠ m) {k : ℕ}
    {i : ι} (hi : i ≠ m) : Spells (subdivide F n m p k) r i w ↔ Spells F r i w := by
  have hnm : n ≠ m := hm.ne_child hn
  have hpm : p ≠ m := hm.ne_parent hn
  refine ⟨fun h => (spells_subdivide_aux hm hn hr h).1 hi, fun h => ?_⟩
  induction h with
  | root h0 =>
    have hrn : r ≠ n := by rintro rfl; rw [hn] at h0; cases h0
    exact .root (by simpa [subdivide, Function.update_of_ne hrn, Function.update_of_ne hr] using h0)
  | @child q i w _ hq ih =>
    have hqm : q ≠ m := hm.ne_parent hq
    by_cases hin : i = n
    · -- The cut node is now reached through `m`.
      subst hin
      rw [hn] at hq
      cases hq
      have h1 : Spells (subdivide F i m p k) r m (w ++ (subdivide F i m p k).label m) :=
        .child (ih hqm) (by simp [subdivide, Function.update_of_ne hnm.symm])
      have h2 := Spells.child h1 (n := i) (by simp [subdivide])
      simpa [subdivide, Function.update_of_ne hnm.symm] using h2
    · have hlab : F.label i = (subdivide F n m p k).label i := by
        simp [subdivide, Function.update_of_ne hin, Function.update_of_ne hi]
      rw [hlab]
      have hparent : (subdivide F n m p k).parent i = some q := by
        simpa [subdivide, Function.update_of_ne hin, Function.update_of_ne hi] using hq
      exact .child (ih hqm) hparent

/-- The new node spells the first part of the edge. -/
theorem spells_subdivide_new (hm : Fresh F m) (hn : F.parent n = some p) (hr : r ≠ m) {k : ℕ} :
    Spells (subdivide F n m p k) r m w ↔ ∃ v, Spells F r p v ∧ w = v ++ (F.label n).take k := by
  have hnm : n ≠ m := hm.ne_child hn
  have hpm : p ≠ m := hm.ne_parent hn
  refine ⟨fun h => (spells_subdivide_aux hm hn hr h).2 rfl, ?_⟩
  rintro ⟨v, hv, rfl⟩
  have h1 := Spells.child ((spells_subdivide_old hm hn hr (k := k) hpm).mpr hv) (n := m)
    (by simp [subdivide, Function.update_of_ne hnm.symm])
  simpa [subdivide, Function.update_of_ne hnm.symm] using h1

/-- Subdividing adds the word up to the cut. -/
theorem cuts_subdivide (hm : Fresh F m) (hn : F.parent n = some p) (hr : r ≠ m) {k : ℕ} :
    cuts (subdivide F n m p k) r =
      cuts F r ∪ {w | ∃ v, Spells F r p v ∧ w = v ++ (F.label n).take k} := by
  ext w
  constructor
  · rintro ⟨i, hi⟩
    by_cases him : i = m
    · subst him
      exact .inr ((spells_subdivide_new hm hn hr).mp hi)
    · exact .inl ⟨i, (spells_subdivide_old hm hn hr him).mp hi⟩
  · rintro (⟨i, hi⟩ | hv)
    · exact ⟨i, (spells_subdivide_old hm hn hr (hm.ne_of_spells hr hi)).mpr hi⟩
    · exact ⟨m, (spells_subdivide_new hm hn hr).mpr hv⟩

/-- The node cut in two is the only child of the new one. -/
theorem child_subdivide (hm : Fresh F m) (hn : F.parent n = some p) {k : ℕ} {c : ι}
    (hc : (subdivide F n m p k).parent c = some m) : c = n := by
  by_contra hcn
  by_cases hcm : c = m
  · subst hcm
    simp only [subdivide, Function.update_of_ne hcn, Function.update_self, Option.some.injEq] at hc
    exact hm.ne_parent hn hc
  · simp only [subdivide, Function.update_of_ne hcn, Function.update_of_ne hcm] at hc
    exact hm.2 c hc

/-- Subdivided edges stay deterministic. -/
theorem deterministic_subdivide (hF : Deterministic F) (hm : Fresh F m) (hn : F.parent n = some p)
    {k : ℕ} (hk : 0 < k) (hk' : k < (F.label n).length) :
    Deterministic (subdivide F n m p k) := by
  have hnm : n ≠ m := hm.ne_child hn
  have hpm : p ≠ m := hm.ne_parent hn
  obtain ⟨a, t, hat⟩ := List.exists_cons_of_ne_nil (List.ne_nil_of_length_pos (hk.trans hk'))
  obtain ⟨j, rfl⟩ : ∃ j, k = j + 1 := ⟨k - 1, by omega⟩
  have hhead : ∀ {i q}, i ≠ n → (subdivide F n m p (j + 1)).parent i = some q →
      ∃ i', F.parent i' = some q ∧ (F.label i').head? = ((subdivide F n m p (j + 1)).label i).head? ∧
        (i' = n ↔ i = m) := by
    intro i q hin hq
    by_cases him : i = m
    · subst him
      simp only [subdivide, Function.update_of_ne hin, Function.update_self, Option.some.injEq] at hq
      exact ⟨n, hq ▸ hn, by simp [subdivide, Function.update_of_ne hin, hat], by simp⟩
    · simp only [subdivide, Function.update_of_ne hin, Function.update_of_ne him] at hq
      exact ⟨i, hq, by simp [subdivide, Function.update_of_ne hin, Function.update_of_ne him],
        by simp [hin, him]⟩
  constructor
  · intro i q hq
    by_cases hin : i = n
    · subst hin
      simpa [subdivide] using hk'
    · obtain ⟨i', hi', hh, _⟩ := hhead hin hq
      intro he
      rw [he] at hh
      exact hF.label_ne_nil hi' (by simpa using hh)
  · intro i i' q hi hi' hh
    by_cases hin : i = n <;> by_cases hin' : i' = n
    · rw [hin, hin']
    · subst hin
      simp only [subdivide, Function.update_self, Option.some.injEq] at hi
      obtain ⟨x, hx, _⟩ := hhead hin' hi'
      exact absurd (hi ▸ hx) (hm.2 x)
    · subst hin'
      simp only [subdivide, Function.update_self, Option.some.injEq] at hi'
      obtain ⟨x, hx, _⟩ := hhead hin hi
      exact absurd (hi' ▸ hx) (hm.2 x)
    · obtain ⟨x, hx, hxh, hxm⟩ := hhead hin hi
      obtain ⟨x', hx', hxh', hxm'⟩ := hhead hin' hi'
      have hxx : x = x' := hF.head_injective hx hx' (by rw [hxh, hxh', hh])
      subst hxx
      by_cases him : i = m
      · rw [him, hxm'.mp (hxm.mpr him)]
      · have hi'm : i' ≠ m := fun he => him (hxm.mp (hxm'.mpr he))
        simp only [subdivide, Function.update_of_ne hin, Function.update_of_ne him,
          Function.update_of_ne hin', Function.update_of_ne hi'm] at hi hi' hh
        exact hF.head_injective hi hi' hh

end Edit

end LabelForest
