import Mathlib.Data.Set.Insert
import ApduPlay.Library.LabelForest
import ApduPlay.Library.WordCuts

/-!
# Inserting words into a forest

Inserting a word below a root stops inside the forest, grafts a leaf, or
subdivides an edge and grafts a leaf beside it. In all three cases the nodes
keep their words and the cut points grow as the arrival order of the words
says, so a forest grown by insertions represents its list of words.
-/

namespace LabelForest

open WordCuts

universe u v

variable {ι : Type u} {α : Type v} {F F' : Forest ι α} {old : ι → Prop} {r n m m' p leaf : ι}
  {s u v t rest : List α} {a b : α} {words : List (List α)}

/-- `F'` is `F` after the word `s` was inserted below `r`, where the insertion
ended at `leaf`; the nodes of `F` are those in `old`. -/
structure Inserted (F : Forest ι α) (old : ι → Prop) (r : ι) (s : List α) (leaf : ι)
    (F' : Forest ι α) : Prop where
  /-- Old nodes spell what they spelled. -/
  spells : ∀ {q i : ι} {w : List α}, old q → Spells F q i w → Spells F' q i w
  /-- The word adds its end and the place where it leaves the old paths. -/
  cuts_root : cuts F' r =
    cuts F r ∪ {u | s ∉ paths F r ∧ (u = s ∨ MaxPrefix (paths F r) s u)}
  /-- Nothing is spelled below another root that was not before. -/
  cuts_other : ∀ {q : ι}, old q → q ≠ r → cuts F' q = cuts F q
  /-- The last node spells the word, or goes on behind it if the word has no node at all. -/
  leaf : ∃ w, Spells F' r leaf w ∧ s <+: w ∧ (w = s ↔ s ∈ cuts F' r)

/-- The words that were inserted below a root, in their order. -/
structure Represents (F : Forest ι α) (r : ι) (words : List (List α)) : Prop where
  /-- Nodes end at the cut points. -/
  cuts_eq : cuts F r = cutsOf words
  /-- The words lie on the paths. -/
  paths_eq : paths F r = pathsOf words

theorem maxPrefix_unique {P : Set (List α)} (hP : ∀ {x y}, x <+: y → y ∈ P → x ∈ P)
    (hu : MaxPrefix P s u) (hv : MaxPrefix P s v) : u = v := by
  have hle : ∀ {x y}, MaxPrefix P s x → MaxPrefix P s y → ¬ x.length < y.length := by
    rintro x y ⟨hxs, _, hmax⟩ ⟨hys, hy, _⟩ hlt
    have hxy := List.prefix_of_prefix_length_le hxs hys hlt.le
    obtain ⟨c, hc⟩ := exists_next hxy fun he => absurd hlt (he ▸ lt_irrefl _)
    exact hmax c (hc.trans hys) (hP hc hy)
  have h1 := hle hu hv
  have h2 := hle hv hu
  exact (List.prefix_of_prefix_length_le hu.1 hv.1 (by omega)).eq_of_length (by omega)

/-- A word that leaves the paths right after `u` adds itself and `u`. -/
theorem setOf_leaving (hu : u ∈ paths F r) (hout : u ++ [b] ∉ paths F r) :
    {x | u ++ b :: rest ∉ paths F r ∧
      (x = u ++ b :: rest ∨ MaxPrefix (paths F r) (u ++ b :: rest) x)} = {u ++ b :: rest, u} := by
  have hpre : u ++ [b] <+: u ++ b :: rest := ⟨rest, by simp⟩
  have hmax : MaxPrefix (paths F r) (u ++ b :: rest) u := by
    refine ⟨List.prefix_append _ _, hu, fun a ha => ?_⟩
    rwa [next_letter_unique ha hpre]
  ext x
  constructor
  · rintro ⟨_, rfl | hx⟩
    · exact .inl rfl
    · exact .inr (maxPrefix_unique mem_paths_of_initial hx hmax)
  · rintro (rfl | rfl)
    · exact ⟨fun h => hout (mem_paths_of_initial hpre h), .inl rfl⟩
    · exact ⟨fun h => hout (mem_paths_of_initial hpre h), .inr hmax⟩

/-- A word that ends inside a label or with it changes nothing. -/
theorem inserted_stop (hF : Deterministic F) (hp : Spells F r p v) (hn : F.parent n = some p)
    (ht : t <+: F.label n) (hne : t ≠ []) : Inserted F old r (v ++ t) n F where
  spells _ h := h
  cuts_root := by
    have hmem : v ++ t ∈ paths F r :=
      ⟨_, ⟨n, .child hp hn⟩, (List.prefix_append_right_inj v).mpr ht⟩
    ext x
    simp [hmem]
  cuts_other _ _ := rfl
  leaf := by
    refine ⟨_, .child hp hn, (List.prefix_append_right_inj v).mpr ht, fun he => he ▸ ⟨n, .child hp hn⟩, ?_⟩
    rintro ⟨q, hq⟩
    by_contra hend
    exact not_spells_inside hF hp hn (List.prefix_append v t)
      ((List.prefix_append_right_inj v).mpr ht) (by simpa using hne) (Ne.symm hend) hq

section Edit

variable [DecidableEq ι]

/-- A word that goes on past a node along a letter of no child becomes a leaf. -/
theorem inserted_graft (rest : List α) (hF : Deterministic F) (hm : Fresh F m) (hold : ∀ {q}, old q → q ≠ m)
    (hr : r ≠ m) (hp : Spells F r p v) (hpm : p ≠ m)
    (hc : ∀ c, F.parent c = some p → (F.label c).head? ≠ some b) :
    Inserted F old r (v ++ b :: rest) m (graft F m p (b :: rest)) where
  spells hq h := (spells_graft_old hm (hold hq) (hm.ne_of_spells (hold hq) h)).mpr h
  cuts_root := by
    rw [cuts_graft hm hpm hr, setOf_spelled hp,
      setOf_leaving ⟨v, ⟨p, hp⟩, List.prefix_refl v⟩ (not_mem_paths_of_no_child hF hp hc)]
    have hv : v ∈ cuts F r := ⟨p, hp⟩
    ext x
    simp only [Set.mem_union, Set.mem_singleton_iff, Set.mem_insert_iff]
    constructor
    · rintro (h | h)
      · exact .inl h
      · exact .inr (.inl h)
    · rintro (h | h | rfl)
      · exact .inl h
      · exact .inr h
      · exact .inl hv
  cuts_other hq hne := by
    rw [cuts_graft hm hpm (hold hq), Set.union_eq_left]
    rintro w ⟨x, hx, _⟩
    exact absurd (hx.root_unique hp) hne
  leaf := by
    have hs := (spells_graft_new (s := b :: rest) hm hpm hr).mpr ⟨v, hp, rfl⟩
    exact ⟨_, hs, List.prefix_refl _, fun _ => ⟨m, hs⟩, fun _ => rfl⟩

/-- A word that parts from a label inside it cuts the label there. -/
theorem inserted_split (hF : Deterministic F) (hm : Fresh F m) (hold : ∀ {q}, old q → q ≠ m)
    (hm' : Fresh (subdivide F n m p u.length) m') (hold' : ∀ {q}, old q → q ≠ m') (hmm : m ≠ m')
    (hr : old r) (hp : Spells F r p v) (hn : F.parent n = some p) (hl : F.label n = u ++ a :: t)
    (hu : u ≠ []) (hba : b ≠ a) :
    Inserted F old r (v ++ u ++ b :: rest) m'
      (graft (subdivide F n m p u.length) m' m (b :: rest)) := by
  have hpos := List.length_pos_of_ne_nil hu
  have hlen : u.length < (F.label n).length := by rw [hl]; simp
  have htake : (F.label n).take u.length = u := by rw [hl]; simp
  have hdrop : (F.label n).drop u.length = a :: t := by rw [hl]; simp
  have hdet := deterministic_subdivide hF hm hn hpos hlen
  have hnew : Spells (subdivide F n m p u.length) r m (v ++ u) :=
    (spells_subdivide_new hm hn (hold hr)).mpr ⟨v, hp, by rw [htake]⟩
  have hc : ∀ c, (subdivide F n m p u.length).parent c = some m →
      ((subdivide F n m p u.length).label c).head? ≠ some b := by
    intro c hcm
    rw [child_subdivide hm hn hcm]
    simpa [subdivide, hdrop] using hba.symm
  have hg := inserted_graft rest hdet hm' hold' (hold' hr) hnew hmm hc
  have hout : v ++ u ++ [b] ∉ paths F r := not_mem_paths_inside hF hp hn hl hu hba
  have hcuts : cuts (subdivide F n m p u.length) r = cuts F r ∪ {v ++ u} := by
    rw [cuts_subdivide hm hn (hold hr), htake, setOf_spelled hp]
  have hout' : v ++ u ++ [b] ∉ paths (subdivide F n m p u.length) r :=
    not_mem_paths_of_no_child hdet hnew hc
  have hmem : v ++ u ∈ paths F r := ⟨_, ⟨n, .child hp hn⟩, by rw [hl]; exact ⟨a :: t, by simp⟩⟩
  constructor
  · intro q i w hq h
    exact hg.spells hq ((spells_subdivide_old hm hn (hold hq) (hm.ne_of_spells (hold hq) h)).mpr h)
  · rw [hg.cuts_root, setOf_leaving ⟨_, ⟨m, hnew⟩, List.prefix_refl _⟩ hout', hcuts,
      setOf_leaving hmem hout]
    ext x
    simp only [Set.mem_union, Set.mem_singleton_iff, Set.mem_insert_iff]
    constructor
    · rintro ((h | h) | h | h)
      · exact .inl h
      · exact .inr (.inr h)
      · exact .inr (.inl h)
      · exact .inr (.inr h)
    · rintro (h | h | h)
      · exact .inl (.inl h)
      · exact .inr (.inl h)
      · exact .inl (.inr h)
  · intro q hq hne
    rw [hg.cuts_other hq hne, cuts_subdivide hm hn (hold hq), Set.union_eq_left]
    rintro w ⟨x, hx, _⟩
    exact absurd (hx.root_unique hp) hne
  · exact hg.leaf

end Edit

/-- An insertion appends its word to the words represented. -/
theorem Inserted.represents (h : Inserted F old r s leaf F') (hw : Represents F r words) :
    Represents F' r (words ++ [s]) := by
  constructor
  · rw [h.cuts_root, hw.cuts_eq, hw.paths_eq, cutsOf_append_singleton]
  · rw [pathsOf_append_singleton, ← hw.paths_eq]
    ext x
    constructor
    · rintro ⟨w, hw', hx⟩
      rw [h.cuts_root] at hw'
      rcases hw' with hw' | ⟨_, rfl | hmax⟩
      · exact .inl ⟨w, hw', hx⟩
      · exact .inr hx
      · exact .inr (hx.trans hmax.1)
    · rintro (⟨w, hw', hx⟩ | hx)
      · exact ⟨w, by rw [h.cuts_root]; exact .inl hw', hx⟩
      · by_cases hs : s ∈ paths F r
        · obtain ⟨w, hw', hsw⟩ := hs
          exact ⟨w, by rw [h.cuts_root]; exact .inl hw', hx.trans hsw⟩
        · exact ⟨s, by rw [h.cuts_root]; exact .inr ⟨hs, .inl rfl⟩, hx⟩

/-- Insertions elsewhere do not change the words represented. -/
theorem Inserted.represents_other {q : ι} (h : Inserted F old r s leaf F') (hq : old q)
    (hne : q ≠ r) (hw : Represents F q words) : Represents F' q words := by
  constructor
  · rw [h.cuts_other hq hne, hw.cuts_eq]
  · rw [← hw.paths_eq]
    simp only [paths, h.cuts_other hq hne]

/-- A lone root represents the empty list. -/
theorem represents_root (hr : F.parent r = none) (hc : ∀ n, F.parent n ≠ some r) :
    Represents F r [] := by
  have hcuts : cuts F r = {[]} := by
    ext w
    constructor
    · rintro ⟨n, hn⟩
      rcases hn.above_root.eq_or_child with rfl | ⟨c, hcr, _⟩
      · exact hn.word_unique (.root hr)
      · exact absurd hcr (hc c)
    · rintro rfl
      exact ⟨r, .root hr⟩
  constructor
  · rw [hcuts]
    ext w
    constructor
    · rintro rfl
      exact .inl rfl
    · rintro (h | ⟨before, after, hw, _⟩ | ⟨x, hx, _⟩)
      · exact h
      · simp at hw
      · cases hx
  · ext w
    simp [paths, pathsOf, hcuts]

end LabelForest
