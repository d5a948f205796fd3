import ApduPlay.EnteredNodes
import ApduPlay.Library.WordTallies
import ApduPlay.NodeCounts

/-!
# The tallies of the nodes

The count of a node is the tally of the bytes that are spelled with any of its
own bytes. This holds after every history of streams none of which is a proper
beginning of another.
-/

namespace ApduPlay.TalliedNodes

open LabelForest WordCuts PacketNode PacketTree PacketMerge TreeRuns NodeCounts EnteredNodes

variable {h h' : Heap} {r n p i leaf : NodeId} {x z : Node} {s v w : List UInt8} {sent : List (List UInt8)}

/-- Every node counts the tally of its bytes. -/
def Tallied (h : Heap) (r : NodeId) (sent : List (List UInt8)) : Prop :=
  ∀ {i p : NodeId} {z : Node} {v d : List UInt8}, h[i]? = some z → z.parent = some p →
    Spells (forest h) r p v → d <+: z.data → d ≠ [] → z.count = ((tally (v ++ d) sent.reverse : ℕ) : JavaInt)

/-- What is below a root is a node. -/
theorem lt_of_spells (hr : r < h.length) (hs : Spells (forest h) r i w) : i < h.length := by
  cases hs with
  | root => exact hr
  | child _ hp =>
    obtain ⟨y, hy, -⟩ := exists_of_parent hp
    exact lt_length hy

/-- What was there before was below the root if it is there now. -/
theorem spelled_before (hw : WellFormed h) (hx : h[r]? = some x) (hp : x.parent = none)
    (hm : Merged h r s leaf h')
    (hs : Spells (forest h') r i w) (hi : i < h.length) : Spells (forest h) r i w := by
  have hold : ∃ u, Spells (forest h) r i u := by
    induction hs with
    | root => exact ⟨[], .root (by rw [forest_parent hx, hp])⟩
    | @child p n w _ hnp ih =>
      by_contra hnone
      have hsame := hm.frame n hi fun u hu => hnone ⟨u, hu⟩
      obtain ⟨y, hy, hyp⟩ := exists_of_parent hnp
      rw [hsame] at hy
      obtain ⟨q, _, hq, -⟩ := hw.parents hy hyp
      obtain ⟨u, hu⟩ := ih (lt_length hq)
      exact hnone ⟨_, .child hu (by rw [forest_parent hy, hyp])⟩
  obtain ⟨u, hu⟩ := hold
  rw [hs.word_unique (hm.inserted.spells (lt_length hx) hu)]
  exact hu

/-- Between the two ends of a node there is no cut. -/
theorem eq_of_cut_inside (hw : WellFormed h) (hrep : Represents (forest h) r sent)
    (hv : Spells (forest h) r p v)
    (hp : (forest h).parent i = some p) {u : List UInt8} (hu : v <+: u) (hne : u ≠ v) :
    ∀ y ∈ cutsOf sent, u <+: y → y <+: v ++ (forest h).label i → y = v ++ (forest h).label i := by
  intro y hy huy hyw
  by_contra hend
  rw [← hrep.cuts_eq] at hy
  obtain ⟨q, hq⟩ := hy
  refine not_spells_inside hw.deterministic hv hp (hu.trans huy) hyw (fun heq => hne ?_) hend hq
  exact (heq ▸ huy : u <+: v).eq_of_length_le hu.length_le

/-- A node that spells letters has one above it. -/
theorem exists_above (hz : h[i]? = some z) (hi : Spells (forest h) r i w) (hne : w ≠ []) :
    ∃ p v, z.parent = some p ∧ Spells (forest h) r p v ∧ w = v ++ z.data := by
  cases hi with
  | root => exact absurd rfl hne
  | @child p _ v hv hp =>
    rw [forest_parent hz] at hp
    exact ⟨p, v, hp, hv, by rw [forest_label hz]⟩

/-- A node that was there before, which may have been split. -/
theorem Tallied.merge_old (ht : Tallied h r sent) (hw : WellFormed h) (hx : h[r]? = some x)
    (hrep : Represents (forest h) r sent) (hm : Merged h r s leaf h') (hcounts : CountsEntered h r r s h')
    (hnp : NoProperPrefix (sent ++ [s])) (hz : h[i]? = some z) (hi : Spells (forest h) r i w)
    (hv : Spells (forest h') r p v) (hp : (forest h').parent i = some p)
    (hword : v ++ (forest h').label i = w) {d : List UInt8} (hd : d ≠ []) (hpre : v ++ d <+: w)
    (hgap : ∀ y ∈ cutsOf (sent ++ [s]), v ++ d <+: y → y <+: w → y = w) :
    ∃ z', h'[i]? = some z' ∧ z'.count = ((tally (v ++ d) (s :: sent.reverse) : ℕ) : JavaInt) := by
  have hwne : w ≠ [] := fun hnil => hd (List.append_eq_nil_iff.mp (List.prefix_nil.mp (hnil ▸ hpre))).2
  obtain ⟨q, u, hzq, hu, huw⟩ := exists_above hz hi hwne
  have hparent : (forest h).parent i = some q := by rw [forest_parent hz, hzq]
  have hlabel : (forest h).label i = z.data := forest_label hz
  have hzne : z.data ≠ [] := hlabel ▸ hw.deterministic.label_ne_nil hparent
  obtain ⟨b, rest, hbrest⟩ := List.exists_cons_of_ne_nil hzne
  have hub : u ++ [b] <+: w := ⟨rest, by rw [huw, hbrest]; simp⟩
  have huv : u.length ≤ v.length := by
    by_contra hlt
    have hvu : v <+: u :=
      List.prefix_of_prefix_length_le ⟨_, hword⟩ (huw ▸ List.prefix_append u z.data) (by omega)
    refine not_spells_inside hm.wellFormed.deterministic hv hp hvu ?_ (fun heq => hlt (heq ▸ le_rfl)) ?_
      (hm.inserted.spells (lt_length hx) hu)
    · rw [hword, huw]
      exact List.prefix_append u z.data
    · rw [hword, huw]
      exact fun heq => hzne (List.append_right_eq_self.mp heq.symm)
  have hubd : u ++ [b] <+: v ++ d := by
    refine List.prefix_of_prefix_length_le hub hpre ?_
    have hpos := List.length_pos_of_ne_nil hd
    rw [List.length_append, List.length_append, List.length_singleton]
    omega
  obtain ⟨tail, htail⟩ := hubd
  have hdata : b :: tail <+: z.data := by
    rw [← List.prefix_append_right_inj u, ← huw]
    refine (Eq.trans ?_ htail : u ++ b :: tail = v ++ d) ▸ hpre
    simp
  have hcount := ht hz hzq hu hdata (List.cons_ne_nil b tail)
  have hsame : u ++ b :: tail = v ++ d := by rw [← htail]; simp
  rw [hsame] at hcount
  obtain ⟨z', hz', hcount'⟩ := hcounts hi.above_root hz hzq hu (by rw [hbrest]; rfl)
  refine ⟨z', hz', ?_⟩
  have hubd : u ++ [b] <+: v ++ d := ⟨tail, htail⟩
  by_cases hin : u ++ [b] <+: s
  · have hcut : w ∈ cutsOf sent := by
      rw [← hrep.cuts_eq]
      exact ⟨i, hi⟩
    have hgap' := eq_of_cut_inside hw hrep hu hparent (List.prefix_append u [b]) (by simp)
    rw [hlabel, ← huw] at hgap'
    rw [hcount', if_pos hin, hcount, tally_entered hnp hcut hpre hgap hubd (by simp) hin hgap', Nat.cast_succ]
  · have hcut : u ∈ cutsOf sent := by
      rw [← hrep.cuts_eq]
      exact ⟨q, hu⟩
    rw [hcount', if_neg hin, hcount, tally_outside hcut hubd hin]

/-- One more stream. -/
theorem Tallied.merge (ht : Tallied h r sent) (hw : WellFormed h) (hx : h[r]? = some x) (hp : x.parent = none)
    (hrep : Represents (forest h) r sent) (hm : Merged h r s leaf h') (hcounts : CountsEntered h r r s h')
    (hmade : CountsMade h h') (hnp : NoProperPrefix (sent ++ [s])) : Tallied h' r (sent ++ [s]) := by
  intro i p z v d hz hzp hv hd hne
  have hparent : (forest h').parent i = some p := by rw [forest_parent hz, hzp]
  have hlabel : (forest h').label i = z.data := forest_label hz
  have hrep' := hm.inserted.represents hrep
  have hi : Spells (forest h') r i (v ++ z.data) := hlabel ▸ .child hv hparent
  have hpre : v ++ d <+: v ++ z.data := (List.prefix_append_right_inj v).mpr hd
  have hvd : v ++ d ≠ v := fun heq => hne (List.append_right_eq_self.mp heq)
  have hgap := eq_of_cut_inside hm.wellFormed hrep' hv hparent (List.prefix_append v d) hvd
  rw [hlabel] at hgap
  rw [List.reverse_append, List.reverse_singleton, List.singleton_append]
  rcases Nat.lt_or_ge i h.length with hlt | hge
  · have hold := spelled_before hw hx hp hm hi hlt
    obtain ⟨z', hz', hcount⟩ :=
      ht.merge_old hw hx hrep hm hcounts hnp (List.getElem?_eq_getElem hlt) hold hv hparent
      (by rw [hlabel]) hne hpre hgap
    rw [hz, Option.some.injEq] at hz'
    rw [hz', hcount]
  · have hcut : v ++ z.data ∈ cutsOf (sent ++ [s]) := by
      rw [← hrep'.cuts_eq]
      exact ⟨i, hi⟩
    have hnew : v ++ z.data ∉ cutsOf sent := by
      intro hmem
      rw [← hrep.cuts_eq] at hmem
      obtain ⟨n, hn⟩ := hmem
      have hni := spells_injective hm.wellFormed.deterministic (hm.inserted.spells (lt_length hx) hn) hi
      exact absurd (hni ▸ lt_of_spells (lt_length hx) hn) (not_lt.mpr hge)
    rw [hmade hge hz, tally_made hnp hcut hnew hpre hgap, Nat.cast_one]

/-- Streams merged below another root leave the tree alone. -/
theorem spelled_other {q : NodeId} (hr : r < h.length) (hne : r ≠ q) (hm : Merged h q s leaf h')
    (hs : Spells (forest h') r i w) : Spells (forest h) r i w ∧ h'[i]? = h[i]? := by
  have hmem : w ∈ cuts (forest h) r := by
    rw [← hm.inserted.cuts_other hr hne]
    exact ⟨i, hs⟩
  obtain ⟨n, hn⟩ := hmem
  obtain rfl := spells_injective hm.wellFormed.deterministic (hm.inserted.spells hr hn) hs
  exact ⟨hn, hm.frame n (lt_of_spells hr hn) fun u hu => hne (hn.root_unique hu)⟩

theorem Tallied.merge_other {q : NodeId} (ht : Tallied h r sent) (hr : r < h.length) (hne : r ≠ q)
    (hm : Merged h q s leaf h') : Tallied h' r sent := by
  intro i p z v d hz hzp hv hd hdne
  have hi := Spells.child (n := i) hv (by rw [forest_parent hz, hzp])
  rw [(spelled_other hr hne hm hi).2] at hz
  exact ht hz hzp (spelled_other hr hne hm hv).1 hd hdne

/-- The only node of a tree that was just created. -/
theorem tallied_newTree {t : Tree} {header first : List UInt8} {received : List (List UInt8)}
    (hg : Grown h t header [first] received) (hleaf : h[leaf]? = some ⟨first, ∅, some t.root, 1⟩) :
    Tallied h t.root [first] := by
  intro i p z v d hz hzp hv hd hdne
  have hparent : (forest h).parent i = some p := by rw [forest_parent hz, hzp]
  have hlabel : (forest h).label i = z.data := forest_label hz
  have hi : Spells (forest h) t.root i (v ++ z.data) := hlabel ▸ .child hv hparent
  have hne : v ++ z.data ≠ [] := fun hnil =>
    hdne (List.prefix_nil.mp ((List.append_eq_nil_iff.mp hnil).2 ▸ hd))
  have hrep : Represents (forest h) t.root ([] ++ [first]) := hg.holdsSent.represents
  have hcut : v ++ z.data ∈ cutsOf ([] ++ [first]) := by
    rw [← hrep.cuts_eq]
    exact ⟨i, hi⟩
  have hnew : v ++ z.data ∉ cutsOf ([] : List (List UInt8)) := by
    rintro (hnil | ⟨before, after, hnone, -⟩ | ⟨e, he, -⟩)
    · exact hne hnil
    · exact absurd hnone (by simp)
    · exact absurd he List.not_mem_nil
  have hpre : v ++ d <+: v ++ z.data := (List.prefix_append_right_inj v).mpr hd
  have hvd : v ++ d ≠ v := fun heq => hdne (List.append_right_eq_self.mp heq)
  have hgap := eq_of_cut_inside hg.wellFormed hrep hv hparent (List.prefix_append v d) hvd
  rw [hlabel] at hgap
  have hone : tally (v ++ d) [first] = 1 := tally_made (by simp) hcut hnew hpre hgap
  have hword : v ++ z.data = first := by
    rw [cutsOf_append_singleton] at hcut
    rcases hcut.resolve_left hnew with ⟨-, heq | ⟨-, hnil | ⟨e, he, -⟩, -⟩⟩
    · exact heq
    · exact absurd hnil hne
    · exact absurd he List.not_mem_nil
  have hroot := hg.holdsSent.spells_root
  have hleafword := Spells.child (n := leaf) hroot (by rw [forest_parent hleaf])
  rw [List.nil_append, forest_label hleaf, ← hword] at hleafword
  rw [spells_injective hg.wellFormed.deterministic hi hleafword, hleaf, Option.some.injEq] at hz
  rw [List.reverse_singleton, hone, ← hz, Nat.cast_one]

/-- After every history the counts are the tallies. -/
theorem tallied_treeRun {first : List UInt8} {calls : List TreeCall} (header : List UInt8) (hw : WellFormed h)
    (hfirst : first ≠ []) (hcalls : ∀ c ∈ calls, c.data ≠ [])
    (hnp : NoProperPrefix (first :: calls.flatMap TreeCall.transmitted)) :
    ∃ t h', treeRun header first calls h = .ok t h' ∧
      Grown h' t header (first :: calls.flatMap TreeCall.transmitted) (calls.flatMap TreeCall.received) ∧
      Tallied h' t.root (first :: calls.flatMap TreeCall.transmitted) := by
  induction calls using List.reverseRecOn with
  | nil =>
    obtain ⟨leaf, t, h', hrun, hg, -, -, hleaf⟩ := grown_newTree hw header hfirst
    exact ⟨t, h', bind_ok hrun, hg, tallied_newTree hg hleaf⟩
  | append_singleton calls c ih =>
    simp only [List.flatMap_append, List.flatMap_singleton, ← List.cons_append] at hnp ⊢
    obtain ⟨t, h₁, hrun, hg, ht⟩ := ih (fun c' hc' => hcalls c' (List.mem_append_left _ hc'))
      fun e he e' he' => hnp e (List.mem_append_left _ he) e' (List.mem_append_left _ he')
    have hc := hcalls c (by simp)
    rw [treeRun_append]
    cases c with
    | merge s =>
      obtain ⟨x, hx, hp, -⟩ := hg.holdsSent.header
      obtain ⟨leaf, t', h₂, hstep, hnode, hm, hg', hroot, -⟩ := hg.merge hc
      obtain ⟨hcounts, hmade⟩ := mergeNode_counts hg.wellFormed hx hp hc hnode
      refine ⟨t', h₂, (bind_ok hrun).trans hstep, ?_, ?_⟩
      · simpa only [TreeCall.transmitted, TreeCall.received, TreeCall.data, List.append_nil] using hg'
      · rw [hroot]
        exact ht.merge hg.wellFormed hx hp hg.holdsSent.represents hm hcounts hmade hnp
    | addReceivedData s =>
      obtain ⟨leaf, t', h₂, hstep, -, hm, hg', hroot, -⟩ := hg.addReceivedData hc
      refine ⟨t', h₂, (bind_ok hrun).trans hstep, ?_, ?_⟩
      · simpa only [TreeCall.transmitted, TreeCall.received, TreeCall.data, List.append_nil] using hg'
      · rw [hroot, TreeCall.transmitted, List.append_nil]
        exact ht.merge_other hg.holdsSent.lt_length hg.roots_ne hm

end ApduPlay.TalliedNodes
