import ApduPlay.SimplifiedTrees
import ApduPlay.TalliedNodes

/-!
# The words of a simplified tree

After simplification every beginning of a stream is spelled by one node, which has
the last byte of it and counts its tally. So the nodes of a depth stand for the
beginnings of that length.
-/

namespace ApduPlay.SpelledTallies

open LabelForest WordCuts TreeTraversal PacketNode PacketTree LinkedTrees SimplifiedTrees TreeRuns
  TalliedNodes

variable {h h' : Heap} {r n p i j : NodeId} {x z : Node} {w u : List UInt8} {b : UInt8}
  {sent : List (List UInt8)} {k : ℕ} {nodes : List NodeId}

/-- A tree whose nodes stand for the beginnings of the streams. -/
structure SpellsTallies (h : Heap) (r : NodeId) (sent : List (List UInt8)) : Prop where
  /-- There is a tree. -/
  linked : Linked h r
  /-- A node has the last byte of what it spells and counts the tally. -/
  node : ∀ {i : NodeId} {w : List UInt8}, Reachable (childIds h) r i → Spells (forest h) r i w → i ≠ r →
    ∃ x u b, h[i]? = some x ∧ x.data = [b] ∧ w = u ++ [b] ∧ x.count = ((tally w sent.reverse : ℕ) : JavaInt)
  /-- It spells the beginning of a stream. -/
  spelled : ∀ {i : NodeId} {w : List UInt8}, Reachable (childIds h) r i → Spells (forest h) r i w →
    w ∈ pathsOf sent
  /-- Every beginning is spelled. -/
  exists_node : ∀ {w : List UInt8}, w ∈ pathsOf sent → ∃ i, Reachable (childIds h) r i ∧
    Spells (forest h) r i w

/-- What a node spells ends with its only byte. -/
theorem spells_concat (hx : h[i]? = some x) (hp : x.parent = some p) (hb : x.data = [b])
    (hs : Spells (forest h) r i w) : ∃ u, w = u ++ [b] ∧ Spells (forest h) r p u := by
  cases hs with
  | root hr =>
    rw [forest_parent hx, hp] at hr
    cases hr
  | @child q _ u hq hparent =>
    rw [forest_parent hx, hp, Option.some.injEq] at hparent
    exact ⟨u, by rw [forest_label hx, hb], hparent ▸ hq⟩

/-- What a node of a simplified tree spells are first bytes of an old node, whose
count it has. -/
theorem exists_old (hl : Linked h r) (hs : Simplified h h' r) (hi : Reachable (childIds h') r i)
    (hw : Spells (forest h') r i w) (hne : i ≠ r) (hx : h'[i]? = some x) :
    ∃ n z p v d, Reachable (childIds h) r n ∧ h[n]? = some z ∧ z.parent = some p ∧ Spells (forest h) r p v ∧
      d <+: z.data ∧ d ≠ [] ∧ w = v ++ d ∧ x.count = z.count := by
  rcases hs.nodes hi with hold | ⟨-, n, z, z', v, j, hpiece⟩
  · obtain ⟨z, p, b, hz, hp, hb, hpr, -⟩ := hl.exists_parent hold hne
    obtain ⟨v, hv⟩ := hl.exists_spells hpr
    have hword := hs.spells hold (.child hv (by rw [forest_parent hz, hp]))
    have hcount := hs.count hold
    rw [hx, hz, Option.map_some, Option.map_some, Option.some.injEq] at hcount
    refine ⟨i, z, p, v, z.data, hold, hz, hp, hv, List.prefix_refl z.data, fun hnil => ?_, ?_, hcount⟩
    · rw [hnil] at hb
      cases hb
    · rw [hw.word_unique hword, forest_label hz]
  · obtain ⟨p, hp, hv⟩ := hpiece.above
    have hnew := hpiece.new
    rw [hx, Option.some.injEq] at hnew
    refine ⟨n, z, p, v, z.data.take j, hpiece.reachable, hpiece.old,
      hp, hv, List.take_prefix j z.data, fun hnil => ?_,
      hw.word_unique hpiece.spells, by rw [hnew, hpiece.count]⟩
    have hlength := congrArg List.length hnil
    rw [List.length_take, List.length_nil] at hlength
    have hinside := hpiece.inside
    omega

/-- On the way down to a node all beginnings of what it spells are spelled. -/
theorem exists_beginning (hs : Simplified h h' r) (hi : Reachable (childIds h') r i)
    (hw : Spells (forest h') r i w) (hu : u <+: w) :
    ∃ i, Reachable (childIds h') r i ∧ Spells (forest h') r i u := by
  induction hw with
  | root hr =>
    obtain rfl := List.prefix_nil.mp hu
    exact ⟨r, .root, .root hr⟩
  | @child p n w hw hparent ih =>
    obtain ⟨x, hx, hp⟩ := exists_of_parent hparent
    obtain ⟨y, hy, hone⟩ := hs.single hi (hs.linked.ne_of_parent hx hp)
    rw [hx, Option.some.injEq] at hy
    obtain ⟨b, hb⟩ := List.length_eq_one_iff.mp (hy ▸ hone)
    rw [forest_label hx, hb] at hu
    rcases List.prefix_concat_iff.mp hu with rfl | hu
    · refine ⟨n, hi, ?_⟩
      have hs := Spells.child hw hparent
      rwa [forest_label hx, hb] at hs
    · exact ih (hs.linked.reachable_parent hi hx hp).1 hu

/-- A simplified tree of streams none of which is a proper beginning of another. -/
theorem spellsTallies_of_simplified (hs : Simplified h h' r) (hw : WellFormed h) (hl : Linked h r)
    (hrep : Represents (forest h) r sent) (ht : Tallied h r sent) (hends : ∀ e ∈ sent, e ∈ cutsOf sent) :
    SpellsTallies h' r sent where
  linked := hs.linked
  node {i w} hi hword hne := by
    obtain ⟨x, p, a, hx, hp, -⟩ := hs.linked.exists_parent hi hne
    obtain ⟨y, hy, hone⟩ := hs.single hi hne
    rw [hx, Option.some.injEq] at hy
    obtain ⟨b, hb⟩ := List.length_eq_one_iff.mp (hy ▸ hone)
    obtain ⟨u, hu, -⟩ := spells_concat hx hp hb hword
    obtain ⟨n, z, q, v, d, -, hz, hq, hv, hd, hdne, hvd, hcount⟩ := exists_old hl hs hi hword hne hx
    exact ⟨x, u, b, hx, hb, hu, by rw [hcount, ht hz hq hv hd hdne, hvd]⟩
  spelled {i w} hi hword := by
    by_cases hne : i = r
    · subst hne
      exact Or.inl (hword.word_unique hs.linked.spells_root)
    · obtain ⟨x, hx⟩ := hs.linked.exists_node hi
      obtain ⟨n, z, q, v, d, -, hz, hq, hv, hd, -, hvd, -⟩ := exists_old hl hs hi hword hne hx
      have hcut := Spells.child (n := n) hv (by rw [forest_parent hz, hq])
      rw [forest_label hz] at hcut
      rw [← hrep.paths_eq, hvd]
      exact ⟨_, ⟨n, hcut⟩, (List.prefix_append_right_inj v).mpr hd⟩
  exists_node {w} hword := by
    rcases hword with rfl | ⟨e, he, hwe⟩
    · exact ⟨r, .root, hs.linked.spells_root⟩
    · have hcut := hends e he
      rw [← hrep.cuts_eq] at hcut
      obtain ⟨n, hn⟩ := hcut
      have hreach := reachable_of_spells hw hn
      exact exists_beginning hs (hs.reachable hreach) (hs.spells hreach hn) hwe

/-- A node that spells bytes is below one that spells all but the last. -/
theorem SpellsTallies.exists_parent (ht : SpellsTallies h r sent) (hi : Reachable (childIds h) r i)
    (hw : Spells (forest h) r i (w ++ [b])) :
    ∃ x p, h[i]? = some x ∧ x.data = [b] ∧ x.count = ((tally (w ++ [b]) sent.reverse : ℕ) : JavaInt) ∧
      Reachable (childIds h) r p ∧ Spells (forest h) r p w ∧ i ∈ childIds h p := by
  have hne : i ≠ r := by
    rintro rfl
    have hnil := hw.word_unique ht.linked.spells_root
    simp at hnil
  obtain ⟨x, u, d, hx, hd, huw, hcount⟩ := ht.node hi hw hne
  obtain ⟨rfl, hbd⟩ := List.append_inj' huw rfl
  obtain rfl : b = d := by simpa using hbd
  obtain ⟨y, p, -, hy, hp, -, hpr, hip⟩ := ht.linked.exists_parent hi hne
  rw [hx, Option.some.injEq] at hy
  subst hy
  obtain ⟨u', hu', hpu⟩ := spells_concat hx hp hd hw
  obtain ⟨rfl, -⟩ := List.append_inj' hu' rfl
  exact ⟨x, p, hx, hd, hcount, hpr, hpu, hip⟩

/-- A word is spelled by one node. -/
theorem SpellsTallies.node_unique (ht : SpellsTallies h r sent) (hi : Reachable (childIds h) r i)
    (hj : Reachable (childIds h) r j) (hiw : Spells (forest h) r i w) (hjw : Spells (forest h) r j w) :
    i = j := by
  induction w using List.reverseRecOn generalizing i j with
  | nil =>
    have hroot {i : NodeId} (hi : Reachable (childIds h) r i) (hiw : Spells (forest h) r i []) : i = r := by
      by_contra hne
      obtain ⟨-, u, b, -, -, hnil, -⟩ := ht.node hi hiw hne
      simp at hnil
    exact (hroot hi hiw).trans (hroot hj hjw).symm
  | append_singleton w b ih =>
    obtain ⟨x, p, hx, hb, -, hp, hpw, hip⟩ := ht.exists_parent hi hiw
    obtain ⟨y, q, hy, hb', -, hq, hqw, hjq⟩ := ht.exists_parent hj hjw
    obtain rfl := ih hp hq hpw hqw
    exact ht.linked.siblings hp hip hjq hx hy (by rw [hb, hb'])

/-- A node is as deep as it spells bytes. -/
theorem SpellsTallies.atDepth_iff (ht : SpellsTallies h r sent) :
    AtDepth (childIds h) r k i ↔ Reachable (childIds h) r i ∧ ∃ w, Spells (forest h) r i w ∧
      w.length = k := by
  constructor
  · intro hi
    refine ⟨hi.reachable, ?_⟩
    induction hi with
    | root => exact ⟨[], ht.linked.spells_root, rfl⟩
    | @child k n c hn hc ih =>
      obtain ⟨w, hw, hlength⟩ := ih
      obtain ⟨x, -, -, hx, -, hp, -⟩ := ht.linked.child hn.reachable hc
      have hparent : (forest h).parent c = some n := by rw [forest_parent hx, hp]
      obtain ⟨y, u, b, hy, hb, -⟩ := ht.node (.child hn.reachable hc) (.child hw hparent)
        (ht.linked.ne_of_parent hx hp)
      exact ⟨_, .child hw hparent, by rw [forest_label hy, hb, List.length_append, hlength]; rfl⟩
  · rintro ⟨hi, w, hw, rfl⟩
    induction w using List.reverseRecOn generalizing i with
    | nil =>
      rw [ht.node_unique hi .root hw ht.linked.spells_root]
      exact .root
    | append_singleton w b ih =>
      obtain ⟨x, p, hx, -, -, hp, hpw, hip⟩ := ht.exists_parent hi hw
      rw [List.length_append]
      exact .child (ih hp hpw) hip

/-- The nodes of a depth spell the beginnings of a length, each of them once. -/
theorem SpellsTallies.exists_words (ht : SpellsTallies h r sent) (hlevel : Level (childIds h) r k nodes) :
    ∃ words : List (List UInt8), words.Nodup ∧ (∀ w, w ∈ words ↔ w.length = k ∧ w ∈ pathsOf sent) ∧
      List.Forall₂ (fun i w => Reachable (childIds h) r i ∧ Spells (forest h) r i w ∧ w.length = k)
        nodes words := by
  have hspelled : ∀ i : NodeId, ∃ w, Reachable (childIds h) r i → Spells (forest h) r i w := by
    intro i
    by_cases hi : Reachable (childIds h) r i
    · obtain ⟨w, hw⟩ := ht.linked.exists_spells hi
      exact ⟨w, fun _ => hw⟩
    · exact ⟨[], fun h => absurd h hi⟩
  choose word hword using hspelled
  have hreach {i : NodeId} (hi : i ∈ nodes) : Reachable (childIds h) r i := ((hlevel.mem i).mp hi).reachable
  have hlength {i : NodeId} (hi : i ∈ nodes) : (word i).length = k := by
    obtain ⟨-, w, hw, hwk⟩ := ht.atDepth_iff.mp ((hlevel.mem i).mp hi)
    rw [(hword i (hreach hi)).word_unique hw, hwk]
  refine ⟨nodes.map word, ?_, fun w => ?_, ?_⟩
  · refine hlevel.nodup.map_on fun i hi j hj heq => ?_
    exact ht.node_unique (hreach hi) (hreach hj) (hword i (hreach hi)) (heq ▸ hword j (hreach hj))
  · rw [List.mem_map]
    constructor
    · rintro ⟨i, hi, rfl⟩
      exact ⟨hlength hi, ht.spelled (hreach hi) (hword i (hreach hi))⟩
    · rintro ⟨rfl, hw⟩
      obtain ⟨i, hi, hiw⟩ := ht.exists_node hw
      exact ⟨i, (hlevel.mem i).mpr (ht.atDepth_iff.mpr ⟨hi, w, hiw, rfl⟩), (hword i hi).word_unique hiw⟩
  · rw [List.forall₂_map_right_iff, List.forall₂_same]
    exact fun i hi => ⟨hreach hi, hword i (hreach hi), hlength hi⟩

end ApduPlay.SpelledTallies
