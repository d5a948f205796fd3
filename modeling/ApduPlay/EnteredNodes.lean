import ApduPlay.PacketMerge

/-!
# The nodes a stream enters

A stream enters a node when it goes through the node above and on with the first
byte of the node. Merging the stream adds one to the counts of the nodes that
were there before and that it enters, also of one that is split; nodes that are
made count one.
-/

namespace ApduPlay.EnteredNodes

open LabelForest WordCuts PacketNode PacketTree PacketMerge

variable {h h' : Heap} {r n p cur i c : NodeId} {x y z : Node} {a b d : UInt8} {last : Option NodeId}
  {s t u v w rest : List UInt8} {st : MergeState}

/-- Counts of the nodes at and below `cur` after a stream was merged. -/
def CountsEntered (h : Heap) (r cur : NodeId) (s : List UInt8) (h' : Heap) : Prop :=
  ∀ {i p : NodeId} {z : Node} {v : List UInt8} {b : UInt8}, Above (forest h) cur i → h[i]? = some z →
    z.parent = some p → Spells (forest h) r p v → z.data.head? = some b →
    ∃ z', h'[i]? = some z' ∧ z'.count = if v ++ [b] <+: s then z.count + 1 else z.count

/-- Nodes that were made count one. -/
def CountsMade (h h' : Heap) : Prop :=
  ∀ {i : NodeId} {z : Node}, h.length ≤ i → h'[i]? = some z → z.count = 1

/-- What enters a node below `c` begins like what enters `c`. -/
theorem head_of_above {F : Forest NodeId UInt8} (hF : Deterministic F) (hc : F.parent c = some cur)
    (hw : Spells F r cur w) (ha : Above F c i) (hp : F.parent i = some p) (hv : Spells F r p v)
    (hb : (F.label i).head? = some b) : ∃ d, (F.label c).head? = some d ∧ w ++ [d] <+: v ++ [b] := by
  cases ha with
  | refl =>
    rw [hc, Option.some.injEq] at hp
    subst hp
    exact ⟨b, hb, by rw [hw.word_unique hv]⟩
  | @step q _ ha hq =>
    rw [hq, Option.some.injEq] at hp
    subst hp
    obtain ⟨d, label, hlabel⟩ := List.exists_cons_of_ne_nil (hF.label_ne_nil hc)
    have hword := ha.word_prefix (.child hw hc) hv
    rw [hlabel] at hword
    refine ⟨d, by rw [hlabel]; rfl, ?_⟩
    have hfirst : w ++ [d] <+: w ++ d :: label := ⟨label, by simp⟩
    exact (hfirst.trans hword).trans (List.prefix_append v [b])

/-- A stream that does not enter a child does not enter what is below it. -/
theorem not_entered_of_child (hw : WellFormed h) (hc : (forest h).parent c = some cur)
    (hs : Spells (forest h) r cur w) (hout : ∀ d, ((forest h).label c).head? = some d → ¬ w ++ [d] <+: s)
    (ha : Above (forest h) c i) (hz : h[i]? = some z) (hp : z.parent = some p)
    (hv : Spells (forest h) r p v) (hb : z.data.head? = some b) : ¬ v ++ [b] <+: s := by
  intro hin
  obtain ⟨d, hd, hpre⟩ := head_of_above hw.deterministic hc hs ha (by rw [forest_parent hz, hp]) hv
    (by rw [forest_label hz, hb])
  exact hout d hd (hpre.trans hin)

/-- The next byte after a word is determined. -/
theorem next_unique (h : w ++ [d] <+: w ++ b :: rest) : d = b :=
  next_letter_unique h ⟨rest, by simp⟩

/-- What is below a child is not the node itself. -/
theorem ne_of_above_child (hw : WellFormed h) (hs : Spells (forest h) r cur w)
    (hc : (forest h).parent c = some cur) (ha : Above (forest h) c i) : cur ≠ i := by
  rintro rfl
  have hlt := ha.length_lt hw.deterministic (hs.child_ne hw.deterministic hc) (.child hs hc) hs
  rw [List.length_append] at hlt
  omega

/-- One more is counted at a node. -/
theorem count_counted
    (hkeep : ∀ {i : NodeId} {z : Node}, h[i]? = some z → ∃ z', h'[i]? = some z' ∧ z'.count = z.count)
    (hz : h[i]? = some z) :
    ∃ z', (counted h' cur)[i]? = some z' ∧ z'.count = if cur = i then z.count + 1 else z.count := by
  obtain ⟨z', hz', hcount⟩ := hkeep hz
  by_cases hi : cur = i
  · subst hi
    exact ⟨_, counted_self hz', by rw [if_pos rfl, hcount]⟩
  · exact ⟨z', by rw [counted_of_ne hi, hz'], by rw [if_neg hi, hcount]⟩

/-- The stream enters this node. -/
def Enters (h : Heap) (r : NodeId) (x : Node) (s : List UInt8) : Prop :=
  ∀ ⦃p : NodeId⦄ ⦃v : List UInt8⦄ ⦃b : UInt8⦄, x.parent = some p → Spells (forest h) r p v →
    x.data.head? = some b → v ++ [b] <+: s

/-- The node where a stream ends is counted; the children of this node were not
entered. -/
theorem countsEntered_end (hw : WellFormed h) (hx : h[cur]? = some x) (hs : Spells (forest h) r cur w)
    (henter : Enters h r x s)
    (hout : ∀ c d, (forest h).parent c = some cur → ((forest h).label c).head? = some d → ¬ w ++ [d] <+: s)
    (hkeep : ∀ {i : NodeId} {z : Node}, h[i]? = some z →
      ∃ z', h'[i]? = some z' ∧ z'.count = if cur = i then z.count + 1 else z.count) :
    CountsEntered h r cur s h' := by
  intro i p z v b ha hz hp hv hb
  obtain ⟨z', hz', hcount⟩ := hkeep hz
  refine ⟨z', hz', ?_⟩
  rcases ha.eq_or_child with rfl | ⟨c, hc, hci⟩
  · rw [hx, Option.some.injEq] at hz
    subst hz
    rw [hcount, if_pos rfl, if_pos (henter hp hv hb)]
  · have hnot := not_entered_of_child hw hc hs (fun d hd => hout c d hc hd) hci hz hp hv hb
    rw [hcount, if_neg (ne_of_above_child hw hs hc hci), if_neg hnot]

/-- Going down to a child counts the node that is left; the other children were
not entered. -/
theorem countsEntered_descend (hw : WellFormed h) (hx : h[cur]? = some x) (hs : Spells (forest h) r cur w)
    (henter : Enters h r x s) (hn : (forest h).parent n = some cur) (hb : ((forest h).label n).head? = some b)
    (hstream : s = w ++ b :: rest) (hm : MergedBelow (counted h cur) r n s st h')
    (hbelow : CountsEntered (counted h cur) r n s (counted h' st.currentNode)) :
    CountsEntered h r cur s (counted h' st.currentNode) := by
  have hcn := hm.current
  rw [forest_counted] at hcn
  have hleave {i : NodeId} {z : Node} (hz : (counted h cur)[i]? = some z) (hna : ¬ Above (forest h) n i) :
      ∃ z', (counted h' st.currentNode)[i]? = some z' ∧ z'.count = z.count := by
    obtain ⟨z', hz', -, -, hcount⟩ := hm.steady hz (by rwa [forest_counted])
    have hne : st.currentNode ≠ i := fun heq => hna (heq ▸ hcn)
    exact ⟨z', by rw [counted_of_ne hne, hz'], hcount⟩
  intro i p z v a ha hz hp hv hhead
  by_cases hni : Above (forest h) n i
  · have hne := ne_of_above_child hw hs hn hni
    exact hbelow (by rwa [forest_counted]) (by rw [counted_of_ne hne, hz]) hp (by rwa [forest_counted]) hhead
  rcases ha.eq_or_child with rfl | ⟨c, hc, hci⟩
  · rw [hx, Option.some.injEq] at hz
    subst hz
    obtain ⟨z', hz', hcount⟩ := hleave (counted_self hx) hni
    refine ⟨z', hz', ?_⟩
    rw [if_pos (henter hp hv hhead), hcount]
  · have hne := ne_of_above_child hw hs hc hci
    obtain ⟨z', hz', hcount⟩ := hleave (by rw [counted_of_ne hne, hz]) hni
    have hout : ∀ d, ((forest h).label c).head? = some d → ¬ w ++ [d] <+: s := by
      intro d hd hin
      rw [hstream] at hin
      rw [next_unique hin, ← hb] at hd
      exact hni (hw.deterministic.head_injective hc hn hd ▸ hci)
    refine ⟨z', hz', ?_⟩
    rw [if_neg (not_entered_of_child hw hc hs hout hci hz hp hv hhead), hcount]

theorem countsMade_counted (hm : CountsMade h h') (hlt : cur < h.length) : CountsMade h (counted h' cur) := by
  intro i z hi hz
  rw [counted_of_ne (hlt.trans_le hi).ne] at hz
  exact hm hi hz

/-- A leaf is added. -/
theorem countsMade_addLeaf (hp : p < h.length) (s : List UInt8) (b : UInt8) :
    CountsMade h (addLeaf h p s b) := by
  intro i z hi hz
  have hlt := lt_length hz
  rw [length_addLeaf] at hlt
  obtain rfl : i = h.length := Nat.le_antisymm (Nat.lt_succ_iff.mp hlt) hi
  rw [getElem?_addLeaf_new hp s] at hz
  cases hz
  rfl

/-- A node is split and a leaf is added. -/
theorem countsMade_split (hn : n < h.length) (hp : p < h.length) (data : List UInt8) (k : ℕ) (a d : UInt8)
    (s : List UInt8) (b : UInt8) : CountsMade h (addLeaf (splitNode h n p data k a d) h.length s b) := by
  intro i z hi hz
  have hsplit := length_splitNode h n p data k a d
  rcases Nat.lt_or_ge i (splitNode h n p data k a d).length with hlt | hge
  · obtain rfl : i = h.length := Nat.le_antisymm (Nat.lt_succ_iff.mp (hlt.trans_eq hsplit)) hi
    rw [getElem?_addLeaf_old _ hlt s, getElem?_splitNode_new data hn hp] at hz
    cases hz
    rfl
  · exact countsMade_addLeaf (by rw [hsplit]; exact Nat.lt_succ_self _) s b hge hz

/-- A new leaf leaves the counts alone. -/
theorem count_addLeaf (hz : h[i]? = some z) (p : NodeId) (s : List UInt8) (b : UInt8) :
    ∃ z', (addLeaf h p s b)[i]? = some z' ∧ z'.count = z.count := by
  have hget := getElem?_addLeaf_old (p := p) (b := b) i (lt_length hz) s
  rw [hz, Option.map_some] at hget
  exact ⟨_, hget, rfl⟩

/-- Splitting a node does so as well. -/
theorem count_splitNode (hz : h[i]? = some z) (n p : NodeId) (data : List UInt8) (k : ℕ) (a d : UInt8) :
    ∃ z', (splitNode h n p data k a d)[i]? = some z' ∧ z'.count = z.count := by
  have hget := getElem?_splitNode_old (n := n) (p := p) (k := k) (b := a) (c := d) data i (lt_length hz)
  rw [hz, Option.map_some] at hget
  exact ⟨_, hget, rfl⟩

/-- The stream ends inside the node. -/
theorem counts_exhausted (hw : WellFormed h) (hx : h[cur]? = some x) (hs : Spells (forest h) r cur w)
    (henter : Enters h r x s) (hle : s.length ≤ w.length) :
    CountsEntered h r cur s (counted h cur) ∧ CountsMade h (counted h cur) := by
  refine ⟨countsEntered_end hw hx hs henter (fun c d _ _ hin => ?_) (count_counted fun hz => ⟨_, hz, rfl⟩),
    countsMade_counted (fun hi hz => absurd (lt_length hz) (not_lt.mpr hi)) (lt_length hx)⟩
  have hlong := hin.length_le
  rw [List.length_append, List.length_singleton] at hlong
  omega

/-- The stream goes on behind the node along a byte of no child. -/
theorem counts_newChild (hw : WellFormed h) (hx : h[cur]? = some x) (hl : x.childNodes.lookup b = none)
    (hs : Spells (forest h) r cur w) (henter : Enters h r x (w ++ b :: rest)) :
    CountsEntered h r cur (w ++ b :: rest) (counted (addLeaf h cur (b :: rest) b) cur) ∧
      CountsMade h (counted (addLeaf h cur (b :: rest) b) cur) := by
  refine ⟨countsEntered_end hw hx hs henter (fun c d hc hd hin => ?_)
      (count_counted fun hz => count_addLeaf hz cur (b :: rest) b),
    countsMade_counted (countsMade_addLeaf (lt_length hx) (b :: rest) b) (lt_length hx)⟩
  rw [next_unique hin] at hd
  exact no_child_of_lookup hw hx hl c hc hd

/-- The stream leaves the node before its end, and the node is split there. -/
theorem counts_split {s' t' : List UInt8} (hw : WellFormed h) (hx : h[cur]? = some x) (hp : p < h.length)
    (hs : Spells (forest h) r cur (v ++ x.data)) (hd : x.data = u ++ d :: s') (hbd : b ≠ d)
    (henter : Enters h r x (v ++ (u ++ b :: t'))) (c : UInt8) :
    let h' := addLeaf (splitNode h cur p x.data u.length c d) h.length (b :: t') b
    CountsEntered h r cur (v ++ (u ++ b :: t')) (counted h' cur) ∧ CountsMade h (counted h' cur) := by
  refine ⟨countsEntered_end hw hx hs henter (fun c' e _ _ hin => ?_) (count_counted fun {i z} hz => ?_),
    countsMade_counted (countsMade_split (lt_length hx) hp x.data u.length c d (b :: t') b) (lt_length hx)⟩
  · have hinside : v ++ u ++ [d] <+: v ++ u ++ b :: t' := by
      rw [List.append_assoc v u (b :: t')]
      refine List.IsPrefix.trans ⟨s' ++ [e], ?_⟩ hin
      rw [hd]
      simp
    exact hbd (next_unique hinside).symm
  · obtain ⟨z', hz', hcount⟩ := count_splitNode hz cur p x.data u.length c d
    obtain ⟨z'', hz'', hcount'⟩ := count_addLeaf hz' h.length (b :: t') b
    exact ⟨z'', hz'', hcount'.trans hcount⟩

/-- What goes through the node above and on with the first byte enters a node. -/
theorem enters_of_head (hp : x.parent = some p) (hs : Spells (forest h) r p v) (ht : t.head? = x.data.head?) :
    Enters h r x (v ++ t) := by
  intro p' v' b hp' hv' hb
  rw [hp, Option.some.injEq] at hp'
  subst hp'
  rw [hs.word_unique hv', List.prefix_append_right_inj]
  obtain ⟨tail, rfl⟩ := List.head?_eq_some_iff.mp (ht.trans hb)
  exact ⟨tail, rfl⟩

/-- The loop counts the nodes the stream enters. The induction is on the length of
what is left of the stream. -/
theorem mergeLoop_counts (hw : WellFormed h) (hx : h[cur]? = some x) (hp : x.parent = some p)
    (hs : Spells (forest h) r p v) (hr : r < h.length) (ht : t.head? = x.data.head?)
    (hlast : last.getD cur = cur)
    (hrun : mergeLoop t ⟨0, last, cur, x.data⟩ h = .ok st h') :
    CountsEntered h r cur (v ++ t) (counted h' st.currentNode) ∧
      CountsMade h (counted h' st.currentNode) := by
  induction hk : t.length using Nat.strong_induction_on generalizing h cur x p v t last with
  | _ k ih =>
    subst hk
    have hpar : (forest h).parent cur = some p := by rw [forest_parent hx, hp]
    have hcur : Spells (forest h) r cur (v ++ x.data) := forest_label hx ▸ Spells.child hs hpar
    have henter := enters_of_head hp hs ht
    have hxne : x.data ≠ [] := forest_label hx ▸ hw.deterministic.label_ne_nil hpar
    rcases prefix_or_extend_or_part t x.data with hpre | ⟨b, rest, rfl⟩ | ⟨u, d, b, s', t', hd, rfl, hbd⟩
    · rw [mergeLoop_exhausted hpre] at hrun
      cases hrun
      refine counts_exhausted hw hx hcur henter ?_
      rw [List.length_append, List.length_append]
      exact Nat.add_le_add_left hpre.length_le v.length
    · cases hl : x.childNodes.lookup b with
      | none =>
        rw [mergeLoop_newChild hx hl] at hrun
        cases hrun
        rw [← List.append_assoc] at henter ⊢
        exact counts_newChild hw hx hl hcur henter
      | some n =>
        obtain ⟨y, hy, hyp, hyb⟩ := hw.children hx hl
        have hn : (forest h).parent n = some cur := by rw [forest_parent hy, hyp]
        have hget : (counted h cur)[n]? = some y := by
          rw [counted_of_ne (hcur.child_ne hw.deterministic hn).symm, hy]
        have hyne : y.data ≠ [] := forest_label hy ▸ hw.deterministic.label_ne_nil hn
        rw [mergeLoop_descend hx hl hget hyne] at hrun
        have hshorter : (b :: rest).length < (x.data ++ b :: rest).length := by
          have hpos := List.length_pos_of_ne_nil hxne
          rw [List.length_append]
          omega
        obtain ⟨hbelow, hmade⟩ := ih (b :: rest).length hshorter (t := b :: rest) (hw.counted cur) hget hyp
          (by rwa [forest_counted]) (by rwa [length_counted]) hyb.symm rfl hrun rfl
        obtain ⟨st', h₁, hrun', hm⟩ :=
          mergeLoop_spec (some n) (r := r) (t := b :: rest) (hw.counted cur) hget hyp
          (by rwa [forest_counted]) (by rwa [length_counted]) hyb.symm rfl
        cases hrun'.symm.trans hrun
        rw [← List.append_assoc] at henter ⊢
        refine ⟨countsEntered_descend hw hx hcur henter hn (by rw [forest_label hy, hyb]) rfl hm hbelow, ?_⟩
        intro i z hi hz
        exact hmade (by rwa [length_counted]) hz
    · obtain ⟨y, _, hy, _⟩ := hw.parents hx hp
      obtain ⟨c, hu⟩ : ∃ c, u.head? = some c := by
        cases u with
        | nil =>
          rw [hd] at ht
          simp only [List.nil_append, List.head?_cons, Option.some.injEq] at ht
          exact absurd ht hbd
        | cons c u => exact ⟨c, rfl⟩
      rw [mergeLoop_split hx hp hy hd hu hbd] at hrun
      cases hrun
      exact counts_split hw hx (lt_length hy) hcur hd hbd henter c

/-- Merging a stream counts the nodes it enters. -/
theorem mergeNode_counts {leaf : NodeId} (hw : WellFormed h) (hx : h[r]? = some x) (hp : x.parent = none)
    (hne : s ≠ []) (hrun : mergeNode r s h = .ok leaf h') : CountsEntered h r r s h' ∧ CountsMade h h' := by
  obtain ⟨b, rest, rfl⟩ := List.exists_cons_of_ne_nil hne
  have hroot : Spells (forest h) r r [] := .root (by rw [forest_parent hx, hp])
  have henter : Enters h r x (b :: rest) := by
    intro p v d hparent
    rw [hp] at hparent
    cases hparent
  cases hl : x.childNodes.lookup b with
  | none =>
    rw [mergeNode_new hx hl] at hrun
    cases hrun
    refine ⟨countsEntered_end hw hx hroot henter (fun c d hc hd hin => ?_) fun {i z} hz => ?_, ?_⟩
    · rw [next_unique hin] at hd
      exact no_child_of_lookup hw hx hl c hc hd
    · obtain ⟨z', hz', hcount⟩ : ∃ z', (counted h r)[i]? = some z' ∧
          z'.count = if r = i then z.count + 1 else z.count :=
        count_counted (fun {i z} hz => ⟨z, hz, rfl⟩) hz
      obtain ⟨z'', hz'', hcount'⟩ := count_addLeaf hz' r (b :: rest) b
      exact ⟨z'', hz'', hcount'.trans hcount⟩
    · intro i z hi hz
      exact countsMade_addLeaf (by rw [length_counted]; exact lt_length hx) _ _ (by rwa [length_counted]) hz
  | some n =>
    obtain ⟨y, hy, hyp, hyb⟩ := hw.children hx hl
    obtain ⟨st, h₁, hloop, hm, hrun'⟩ := mergeNode_enter rest hw hx hp hl hy hyp hyb
    cases hrun'.symm.trans hrun
    have hn : (forest h).parent n = some r := by rw [forest_parent hy, hyp]
    have hy₁ : (counted h r)[n]? = some y := by
      rw [counted_of_ne (hroot.child_ne hw.deterministic hn).symm, hy]
    obtain ⟨hbelow, hmade⟩ := mergeLoop_counts (r := r) (t := b :: rest) (hw.counted r) hy₁ hyp
      (by rwa [forest_counted]) (by rw [length_counted]; exact lt_length hx) hyb.symm rfl hloop
    refine ⟨countsEntered_descend hw hx hroot henter hn (by rw [forest_label hy, hyb]) rfl hm hbelow, ?_⟩
    intro i z hi hz
    exact hmade (by rwa [length_counted]) hz

end ApduPlay.EnteredNodes
