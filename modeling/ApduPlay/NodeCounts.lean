import ApduPlay.TreeRuns

/-!
# How often a node was passed

The count of a node should be the number of streams that begin with the bytes
it spells. The children of the root show where this breaks: a split hands the
count of the old child to the lower half and starts the upper half at one, and
from then on the upper half only falls short.
-/

namespace ApduPlay.NodeCounts

open LabelForest WordCuts PacketNode PacketTree PacketMerge TreeRuns

variable {h h' : Heap} {r n c cur : NodeId} {x y : Node} {b b' d : UInt8}
    {s w header first u rest e : List UInt8}
  {calls : List TreeCall} {t t' : Tree} {sent received : List (List UInt8)} {k : JavaInt}

/-- `c` is the child of `r` under the byte `b`. -/
structure IsTop (h : Heap) (r : NodeId) (b : UInt8) (c : NodeId) (data : List UInt8) (count : JavaInt) :
    Prop where
  /-- The child with its data and count. -/
  node : ∃ y, h[c]? = some y ∧ y.parent = some r ∧ y.data = data ∧ y.count = count
  /-- Its data begin with the byte. -/
  head : data.head? = some b

/-- The top node of a byte is a child of the root. -/
theorem IsTop.parent (ht : IsTop h r b c s k) : (forest h).parent c = some r := by
  obtain ⟨⟨y, hy, hp, _⟩, _⟩ := ht
  rw [forest_parent hy, hp]

/-- Its label. -/
theorem IsTop.label (ht : IsTop h r b c s k) : (forest h).label c = s := by
  obtain ⟨⟨y, hy, _, hd, _⟩, _⟩ := ht
  rw [forest_label hy, hd]

/-- It spells its label. -/
theorem IsTop.spells (ht : IsTop h r b c s k) (hr : Spells (forest h) r r []) :
    Spells (forest h) r c s := by
  have hs := Spells.child hr ht.parent
  rwa [ht.label] at hs

/-- There is one child under each byte. -/
theorem IsTop.unique {data : List UInt8} {count : JavaInt} (hw : WellFormed h) (ht : IsTop h r b c s k)
    (ht' : IsTop h r b n data count) : c = n ∧ s = data ∧ k = count := by
  have hcn : c = n := by
    refine hw.deterministic.head_injective ht.parent ht'.parent ?_
    rw [ht.label, ht'.label, ht.head, ht'.head]
  subst hcn
  obtain ⟨⟨y, hy, _, hd, hk⟩, _⟩ := ht
  obtain ⟨⟨z, hz, _, hd', hk'⟩, _⟩ := ht'
  rw [hy, Option.some.injEq] at hz
  subst hz
  exact ⟨rfl, hd.symm.trans hd', hk.symm.trans hk'⟩

/-- Nodes that keep all but their children keep their place under a root. -/
theorem IsTop.steady (ht : IsTop h r b c s k)
    (hkeep : ∀ z, h[c]? = some z →
      ∃ z', h'[c]? = some z' ∧ z'.parent = z.parent ∧ z'.data = z.data ∧ z'.count = z.count) :
    IsTop h' r b c s k := by
  obtain ⟨⟨y, hy, hp, hd, hk⟩, hb⟩ := ht
  obtain ⟨z', hz', hp', hd', hk'⟩ := hkeep y hy
  exact ⟨⟨z', hz', hp'.trans hp, hd'.trans hd, hk'.trans hk⟩, hb⟩

/-- A child of a root is found through its first byte. -/
theorem IsTop.lookup (hw : WellFormed h) (ht : IsTop h r b c s k) (hx : h[r]? = some x) :
    x.childNodes.lookup b = some c := by
  obtain ⟨⟨y, hy, hp, hd, _⟩, hb⟩ := ht
  obtain ⟨z, a, hz, ha, hl⟩ := hw.parents hy hp
  rw [hx, Option.some.injEq] at hz
  subst hz
  rw [hd, hb, Option.some.injEq] at ha
  rwa [ha]

/-- Children under other bytes are left alone. -/
theorem top_other (hw : WellFormed h) (hx : h[r]? = some x) (hp : x.parent = none)
    (hrun : mergeNode r (b :: rest) h = .ok n h') (ht : IsTop h r b' c s k) (hne : b' ≠ b) :
    IsTop h' r b' c s k := by
  have hroot : Spells (forest h) r r [] := .root (by rw [forest_parent hx, hp])
  have hrc := (hroot.child_ne hw.deterministic ht.parent).symm
  refine ht.steady fun z hz => ?_
  have hz1 : (counted h r)[c]? = some z := by rw [counted_of_ne hrc, hz]
  cases hl : x.childNodes.lookup b with
  | none =>
    rw [mergeNode_new hx hl] at hrun
    cases hrun
    have hget := getElem?_addLeaf_old (h := counted h r) (p := r) (b := b) c (lt_length hz1) (b :: rest)
    rw [hz1, Option.map_some] at hget
    exact ⟨_, hget, rfl, rfl, rfl⟩
  | some m =>
    obtain ⟨y, hy, hyp, hyb⟩ := hw.children hx hl
    obtain ⟨st, h2, _, hm, hrun'⟩ := mergeNode_enter rest hw hx hp hl hy hyp hyb
    rw [hrun'] at hrun
    cases hrun
    have hcm : c ≠ m := by
      rintro rfl
      have hhead := ht.head
      rw [← ht.label, forest_label hy, hyb, Option.some.injEq] at hhead
      exact hne hhead.symm
    have hna : ¬ Above (forest (counted h r)) m c := by
      rw [forest_counted]
      rintro (_ | ⟨ha, hpar⟩)
      · exact hcm rfl
      · rw [ht.parent, Option.some.injEq] at hpar
        subst hpar
        exact not_above_root hw hroot (by rw [forest_parent hy, hyp]) ha
    obtain ⟨z', hz', hkeep⟩ := hm.steady hz1 hna
    have hcur : st.currentNode ≠ c := fun he => hna (he ▸ hm.current)
    exact ⟨z', by rw [counted_of_ne hcur, hz'], hkeep⟩

/-- The first stream with its byte becomes a child of the root. -/
theorem top_new (hw : WellFormed h) (hx : h[r]? = some x)
    (hrun : mergeNode r (b :: rest) h = .ok n h') (hnone : ∀ c s k, ¬ IsTop h r b c s k) :
    ∃ c, IsTop h' r b c (b :: rest) 1 := by
  cases hl : x.childNodes.lookup b with
  | none =>
    rw [mergeNode_new hx hl] at hrun
    cases hrun
    have hget := getElem?_addLeaf_new (h := counted h r) (p := r) (b := b)
      (by rw [length_counted]; exact lt_length hx) (b :: rest)
    exact ⟨_, ⟨_, hget, rfl, rfl, rfl⟩, rfl⟩
  | some m =>
    obtain ⟨y, hy, hyp, hyb⟩ := hw.children hx hl
    exact absurd ⟨⟨y, hy, hyp, rfl, rfl⟩, hyb⟩ (hnone m y.data y.count)

/-- A stream that goes on from a node to a child of it is counted at the node
once: from the child on the loop stays below. -/
theorem passed_below {m : NodeId} {last : Option NodeId} {st : MergeState} (hw : WellFormed h)
    (hy : h[c]? = some y) (hs : Spells (forest h) r c y.data) (hr : r < h.length)
    (hl : y.childNodes.lookup b = some m)
    (hloop : mergeLoop (y.data ++ b :: rest) ⟨0, last, c, y.data⟩ h = .ok st h') :
    ∃ z, (counted h' st.currentNode)[c]? = some z ∧ z.parent = y.parent ∧ z.data = y.data ∧
      z.count = y.count + 1 := by
  obtain ⟨z, hz, hzp, hzb⟩ := hw.children hy hl
  have hmc : (forest h).parent m = some c := by rw [forest_parent hz, hzp]
  have hcm := (hs.child_ne hw.deterministic hmc).symm
  have hz' : (counted h c)[m]? = some z := by rw [counted_of_ne hcm, hz]
  have hzne : z.data ≠ [] := by
    intro he
    rw [he] at hzb
    cases hzb
  rw [mergeLoop_descend hy hl hz' hzne] at hloop
  obtain ⟨st', h2, hloop', hm⟩ := mergeLoop_spec (some m) (r := r) (t := b :: rest) (hw.counted c) hz' hzp
    (by rw [forest_counted]; exact hs) (by rw [length_counted]; exact hr) hzb.symm rfl
  rw [hloop'] at hloop
  cases hloop
  have hna : ¬ Above (forest (counted h c)) m c := by
    rw [forest_counted]
    intro ha
    have hlt := ha.length_lt hw.deterministic hcm.symm (.child hs hmc) hs
    rw [List.length_append] at hlt
    omega
  obtain ⟨y', hy', hyp, hyd, hyk⟩ := hm.steady (counted_self hy) hna
  have hcur : st.currentNode ≠ c := fun he => hna (he ▸ hm.current)
  exact ⟨y', by rw [counted_of_ne hcur, hy'], hyp, hyd, hyk⟩

/-- A stream that goes through the whole child is counted there once. -/
theorem top_passed (hw : WellFormed h) (hx : h[r]? = some x) (hp : x.parent = none)
    (hrun : mergeNode r (b :: rest) h = .ok n h') (ht : IsTop h r b c s k) (hs : s <+: b :: rest) :
    IsTop h' r b c s (k + 1) := by
  have hroot : Spells (forest h) r r [] := .root (by rw [forest_parent hx, hp])
  have hpar := ht.parent
  have hrc := (hroot.child_ne hw.deterministic hpar).symm
  have hl := ht.lookup hw hx
  obtain ⟨⟨y, hy, hyp, rfl, rfl⟩, hyb⟩ := ht
  obtain ⟨st, h2, hloop, hm, hrun'⟩ := mergeNode_enter rest hw hx hp hl hy hyp hyb
  rw [hrun'] at hrun
  cases hrun
  have hy1 : (counted h r)[c]? = some y := by rw [counted_of_ne hrc, hy]
  obtain ⟨tail, htail⟩ := hs
  rw [← htail] at hloop
  cases tail with
  | nil =>
    rw [List.append_nil, mergeLoop_exhausted (List.prefix_refl _)] at hloop
    cases hloop
    exact ⟨⟨_, counted_self hy1, hyp, rfl, rfl⟩, hyb⟩
  | cons a tail =>
    cases hla : y.childNodes.lookup a with
    | none =>
      rw [mergeLoop_newChild hy1 hla] at hloop
      cases hloop
      have hget := getElem?_addLeaf_old (h := counted h r) (p := c) (b := a) c (lt_length hy1) (a :: tail)
      rw [hy1, Option.map_some] at hget
      exact ⟨⟨_, counted_self hget, hyp, rfl, rfl⟩, hyb⟩
    | some m =>
      have hcs : Spells (forest (counted h r)) r c y.data := by
        rw [forest_counted]
        have hsp := Spells.child hroot hpar
        rwa [forest_label hy] at hsp
      obtain ⟨z, hz, hzp, hzd, hzk⟩ := passed_below (hw.counted r) hy1 hcs
        (by rw [length_counted]; exact lt_length hx) hla hloop
      exact ⟨⟨z, hz, hzp.trans hyp, hzd, hzk⟩, hyb⟩

/-- A stream that leaves the child inside it starts a new child with count one. -/
theorem top_split {t : List UInt8} (hw : WellFormed h) (hx : h[r]? = some x) (hp : x.parent = none)
    (hrun : mergeNode r (b :: rest) h = .ok n h') (ht : IsTop h r b c (u ++ d :: t) k)
    (hs : b :: rest = u ++ b' :: s) (hne : b' ≠ d) : ∃ c', IsTop h' r b c' u 1 := by
  have hroot : Spells (forest h) r r [] := .root (by rw [forest_parent hx, hp])
  have hrc := (hroot.child_ne hw.deterministic ht.parent).symm
  have hl := ht.lookup hw hx
  obtain ⟨⟨y, hy, hyp, hyd, rfl⟩, hyb⟩ := ht
  rw [← hyd] at hyb
  obtain ⟨st, h2, hloop, hm, hrun'⟩ := mergeNode_enter rest hw hx hp hl hy hyp hyb
  rw [hrun'] at hrun
  cases hrun
  have hy1 : (counted h r)[c]? = some y := by rw [counted_of_ne hrc, hy]
  have hu : u.head? = some b := by
    cases u with
    | nil =>
      rw [List.nil_append, List.cons.injEq] at hs
      rw [hyd, List.nil_append, List.head?_cons, Option.some.injEq] at hyb
      exact absurd (hs.1.symm.trans hyb.symm) hne
    | cons a u =>
      rw [List.cons_append, List.cons.injEq] at hs
      rw [hs.1]
      rfl
  rw [hs, mergeLoop_split hy1 hyp (counted_self hx) hyd hu hne] at hloop
  cases hloop
  have hnew := getElem?_splitNode_new y.data (b := b) (c := d) (k := u.length) (lt_length hy1)
    (lt_length (counted_self hx))
  have hget := getElem?_addLeaf_old (p := (counted h r).length) (b := b') (counted h r).length
    (lt_length hnew) (b' :: s)
  rw [hnew, Option.map_some] at hget
  refine ⟨_, ⟨_, (counted_of_ne (lt_length hy1).ne).trans hget, rfl, ?_, rfl⟩, hu⟩
  rw [hyd, List.take_left]

/-- The streams that begin with a byte. -/
def ofByte (b : UInt8) (streams : List (List UInt8)) : List (List UInt8) :=
  streams.filter fun e => e.head? = some b

/-- All streams of the list are the same. -/
def Uniform (streams : List (List UInt8)) : Prop := ∀ e ∈ streams, ∀ e' ∈ streams, e = e'

/-- No stream is a proper beginning of another one. -/
def NoProperPrefix (streams : List (List UInt8)) : Prop :=
  ∀ e ∈ streams, ∀ e' ∈ streams, e <+: e' → e = e'

/-- The child under `b` against the streams that begin with `b`: it lies on all
of them, and it counts all of them while they are the same stream. As soon as
two of them differ it falls short for good. -/
def TopCounts (h : Heap) (r : NodeId) (b : UInt8) (streams : List (List UInt8)) : Prop :=
  ∃ c s, ∃ k : ℕ, IsTop h r b c s k ∧ (∀ e ∈ ofByte b streams, s <+: e) ∧
    (s ∈ streams ∧ Uniform (ofByte b streams) ∧ k = (ofByte b streams).length ∨
      ¬ Uniform (ofByte b streams) ∧ k < (ofByte b streams).length)

/-- The streams that begin with a byte. -/
theorem mem_ofByte {streams : List (List UInt8)} :
    e ∈ ofByte b streams ↔ e ∈ streams ∧ e.head? = some b := by simp [ofByte]

theorem head?_of_prefix (hu : u <+: e) (hb : u.head? = some b) : e.head? = some b := by
  obtain ⟨t, rfl⟩ := hu
  rw [List.head?_append, hb]
  rfl

/-- A child of the root lies on some stream. -/
theorem IsTop.exists_stream (ht : IsTop h r b c s k) (hr : Spells (forest h) r r [])
    (hrep : Represents (forest h) r sent) : ∃ e ∈ ofByte b sent, s <+: e := by
  have hmem : s ∈ paths (forest h) r := cuts_subset_paths ⟨c, ht.spells hr⟩
  rw [hrep.paths_eq] at hmem
  rcases hmem with rfl | ⟨e, he, hse⟩
  · cases ht.head
  · exact ⟨e, mem_ofByte.mpr ⟨he, head?_of_prefix hse ht.head⟩, hse⟩

theorem ofByte_append_of_ne (hb : s.head? ≠ some b) : ofByte b (sent ++ [s]) = ofByte b sent := by
  simp [ofByte, List.filter_append, hb]

theorem ofByte_append_of_eq (hb : s.head? = some b) :
    ofByte b (sent ++ [s]) = ofByte b sent ++ [s] := by
  simp [ofByte, List.filter_append, hb]

theorem Uniform.of_append {more : List (List UInt8)} (hu : Uniform (sent ++ more)) : Uniform sent :=
  fun e he e' he' => hu e (List.mem_append_left _ he) e' (List.mem_append_left _ he')

/-- The stream goes through the whole child, which counts it. -/
theorem topCounts_passed {k : ℕ} (hnp : NoProperPrefix (sent ++ [b :: rest]))
    (htop : IsTop h' r b c s (k + 1))
    (hpre : ∀ e ∈ ofByte b sent, s <+: e) (hs : s <+: b :: rest)
    (halt : s ∈ sent ∧ Uniform (ofByte b sent) ∧ k = (ofByte b sent).length ∨
      ¬ Uniform (ofByte b sent) ∧ k < (ofByte b sent).length) :
    TopCounts h' r b (sent ++ [b :: rest]) := by
  have hof : ofByte b (sent ++ [b :: rest]) = ofByte b sent ++ [b :: rest] := ofByte_append_of_eq rfl
  rw [TopCounts, hof]
  refine ⟨c, s, k + 1, Nat.cast_succ (R := JavaInt) k ▸ htop, ?_, ?_⟩
  · exact List.forall_mem_append.mpr ⟨hpre, List.forall_mem_singleton.mpr hs⟩
  · rw [List.length_append, List.length_singleton]
    rcases halt with ⟨hmem, huni, hk⟩ | ⟨huni, hk⟩
    · have hsame : s = b :: rest := hnp s (List.mem_append_left _ hmem) _ (by simp) hs
      have hold : ∀ e ∈ ofByte b sent, e = b :: rest := by
        intro e he
        rw [← hsame]
        exact huni e he s (mem_ofByte.mpr ⟨hmem, htop.head⟩)
      have hall : ∀ e ∈ ofByte b sent ++ [b :: rest], e = b :: rest :=
        List.forall_mem_append.mpr ⟨hold, List.forall_mem_singleton.mpr rfl⟩
      exact .inl ⟨List.mem_append_left _ hmem,
        fun e1 h1 e2 h2 => (hall e1 h1).trans (hall e2 h2).symm, by rw [hk]⟩
    · exact .inr ⟨fun hu => huni hu.of_append, by omega⟩

/-- One more stream with the byte `b`. -/
theorem TopCounts.merge_self (hw : WellFormed h) (hx : h[r]? = some x) (hp : x.parent = none)
    (hrun : mergeNode r (b :: rest) h = .ok n h') (hnp : NoProperPrefix (sent ++ [b :: rest]))
    (hne : ofByte b sent ≠ []) (ht : TopCounts h r b sent) :
    TopCounts h' r b (sent ++ [b :: rest]) := by
  obtain ⟨c, s, k, htop, hpre, halt⟩ := ht
  obtain ⟨e, he⟩ := List.exists_mem_of_ne_nil _ hne
  have hpassed (hs : s <+: b :: rest) : TopCounts h' r b (sent ++ [b :: rest]) :=
    topCounts_passed hnp (top_passed hw hx hp hrun htop hs) hpre hs halt
  rcases prefix_or_extend_or_part (b :: rest) s with hs | ⟨a, t, hs⟩ | ⟨u, d, b', s', t, rfl, hs, hbd⟩
  · -- The stream would be a beginning of the old one `e`, so it is `e` itself.
    have hsent := (mem_ofByte.mp he).1
    have hse := hnp _ (by simp) e (List.mem_append_left _ hsent) (hs.trans (hpre e he))
    exact hpassed (hse ▸ hpre e he)
  · exact hpassed (hs ▸ List.prefix_append _ _)
  · obtain ⟨c', htop'⟩ := top_split hw hx hp hrun htop hs hbd
    have hof : ofByte b (sent ++ [b :: rest]) = ofByte b sent ++ [b :: rest] := ofByte_append_of_eq rfl
    rw [TopCounts, hof]
    refine ⟨c', u, 1, htop', ?_, .inr ⟨fun huni => ?_, ?_⟩⟩
    · refine List.forall_mem_append.mpr ⟨fun e' he' => ?_, List.forall_mem_singleton.mpr ?_⟩
      · exact (List.prefix_append u _).trans (hpre e' he')
      · rw [hs]
        exact List.prefix_append _ _
    · have hse := huni e (List.mem_append_left _ he) (b :: rest) (by simp)
      have hdiv : Diverge (u ++ d :: s') (b :: rest) := by
        refine ⟨u, d, b', ⟨s', by simp⟩, ⟨t, by simp [hs]⟩, hbd.symm⟩
      exact hdiv.not_prefix (hse ▸ hpre e he)
    · have hpos := List.length_pos_of_ne_nil hne
      rw [List.length_append, List.length_singleton]
      omega

/-- One more transmitted stream, for every byte. -/
theorem topCounts_merge (hw : WellFormed h) (hx : h[r]? = some x) (hp : x.parent = none)
    (hrep : Represents (forest h) r sent) (hs : s ≠ []) (hrun : mergeNode r s h = .ok n h')
    (hnp : NoProperPrefix (sent ++ [s])) (hall : ∀ b, ofByte b sent ≠ [] → TopCounts h r b sent)
    (hne : ofByte b (sent ++ [s]) ≠ []) : TopCounts h' r b (sent ++ [s]) := by
  obtain ⟨a, rest, rfl⟩ := List.exists_cons_of_ne_nil hs
  have hroot : Spells (forest h) r r [] := .root (by rw [forest_parent hx, hp])
  by_cases hb : b = a
  · subst hb
    by_cases hnone : ofByte b sent = []
    · have hno : ∀ c s k, ¬ IsTop h r b c s k := by
        intro c s k htop
        obtain ⟨e, he, _⟩ := htop.exists_stream hroot hrep
        rw [hnone] at he
        cases he
      obtain ⟨c, htop⟩ := top_new hw hx hrun hno
      refine ⟨c, b :: rest, 1, htop, ?_⟩
      rw [ofByte_append_of_eq rfl, hnone]
      exact ⟨by simp, .inl ⟨by simp, fun e he e' he' => by simp_all, rfl⟩⟩
    · exact TopCounts.merge_self hw hx hp hrun hnp hnone (hall b hnone)
  · have hof : ofByte b (sent ++ [a :: rest]) = ofByte b sent :=
      ofByte_append_of_ne (by simpa using Ne.symm hb)
    rw [hof] at hne
    obtain ⟨c, s, k, htop, hpre, halt⟩ := hall b hne
    rw [TopCounts, hof]
    refine ⟨c, s, k, top_other hw hx hp hrun htop hb, hpre, ?_⟩
    exact halt.imp (fun ⟨hmem, hrest⟩ => ⟨List.mem_append_left _ hmem, hrest⟩) id

/-- Every history keeps the counts of the children of the root as described. -/
theorem topCounts_treeRun (header : List UInt8) (hw : WellFormed h) (hfirst : first ≠ [])
    (hcalls : ∀ c ∈ calls, c.data ≠ [])
    (hnp : NoProperPrefix (first :: calls.flatMap TreeCall.transmitted)) :
    ∃ t h', treeRun header first calls h = .ok t h' ∧
      Grown h' t header (first :: calls.flatMap TreeCall.transmitted)
        (calls.flatMap TreeCall.received) ∧
      ∀ b, ofByte b (first :: calls.flatMap TreeCall.transmitted) ≠ [] →
        TopCounts h' t.root b (first :: calls.flatMap TreeCall.transmitted) := by
  induction calls using List.reverseRecOn with
  | nil =>
    obtain ⟨leaf, t, h', hrun, hg, _, _, hleaf⟩ := grown_newTree hw header hfirst
    refine ⟨t, h', bind_ok hrun, hg, fun b hb => ?_⟩
    have hhead : first.head? = some b := by
      obtain ⟨e, he⟩ := List.exists_mem_of_ne_nil _ hb
      have hmem := mem_ofByte.mp he
      simp only [List.flatMap_nil, List.mem_singleton] at hmem
      exact hmem.1 ▸ hmem.2
    have hof : ofByte b (first :: [].flatMap TreeCall.transmitted) = [first] := by
      simp [ofByte, hhead]
    rw [TopCounts, hof]
    exact ⟨leaf, first, 1, ⟨⟨_, hleaf, rfl, rfl, rfl⟩, hhead⟩, by simp,
      .inl ⟨by simp, fun e he e' he' => by simp_all, rfl⟩⟩
  | append_singleton calls c ih =>
    simp only [List.flatMap_append, List.flatMap_singleton, ← List.cons_append] at hnp ⊢
    obtain ⟨t, h1, hrun, hg, htops⟩ := ih (fun c' hc' => hcalls c' (List.mem_append_left _ hc'))
      fun e he e' he' => hnp e (List.mem_append_left _ he) e' (List.mem_append_left _ he')
    have hc := hcalls c (by simp)
    rw [treeRun_append]
    cases c with
    | merge s =>
      obtain ⟨x, hx, hp, _⟩ := hg.holdsSent.header
      obtain ⟨leaf, t', h2, hstep, hnode, _, hg', hroot, _⟩ := hg.merge hc
      refine ⟨t', h2, (bind_ok hrun).trans hstep, ?_, fun b hb => ?_⟩
      · simpa only [TreeCall.transmitted, TreeCall.received, TreeCall.data, List.append_nil] using hg'
      rw [hroot]
      exact topCounts_merge hg.wellFormed hx hp hg.holdsSent.represents hc hnode hnp htops hb
    | addReceivedData s =>
      obtain ⟨leaf, t', h2, hstep, _, hm, hg', hroot, _⟩ := hg.addReceivedData hc
      refine ⟨t', h2, (bind_ok hrun).trans hstep, ?_, fun b hb => ?_⟩
      · simpa only [TreeCall.transmitted, TreeCall.received, TreeCall.data, List.append_nil] using hg'
      simp only [TreeCall.transmitted, List.append_nil] at hb ⊢
      obtain ⟨c, u, k, htop, hrest⟩ := htops b hb
      have hsame {z : Node} (hz : h1[c]? = some z) : h2[c]? = some z := by
        refine (hm.frame c (lt_length hz) fun w hs => ?_).trans hz
        exact hg.roots_ne ((htop.spells hg.holdsSent.spells_root).root_unique hs)
      rw [hroot]
      exact ⟨c, u, k, htop.steady fun z hz => ⟨z, hsame hz, rfl, rfl, rfl⟩, hrest⟩

/-- Every node of the transmitted half counts the streams that begin with the
bytes it spells, and the root counts all packets. -/
structure CountsStreams (h : Heap) (t : Tree) (sent : List (List UInt8)) : Prop where
  /-- The count of a node. -/
  nodes : ∀ n y w, h[n]? = some y → Spells (forest h) t.root n w →
    y.count.toInt = ((sent.countP fun e => w <+: e : ℕ) : ℤ)
  /-- The count of the root. -/
  root : ∃ x, h[t.root]? = some x ∧ x.count = t.packetsCount

/-- Where the counts are right, the one of the root has not reached its limit. -/
theorem CountsStreams.length_lt (hc : CountsStreams h t sent) (hg : Grown h t header sent received) :
    sent.length < 2 ^ 31 := by
  obtain ⟨x, hx, hcount⟩ := hg.rootCount
  have hroot := hc.nodes t.root x [] hx hg.holdsSent.spells_root
  rw [hcount] at hroot
  simp only [List.nil_prefix, decide_true, List.countP_true] at hroot
  exact JavaInt.toInt_natCast_eq_iff.mp hroot

/-- Where the counts are right, streams with one first byte are the same. -/
theorem CountsStreams.uniform (hc : CountsStreams h t sent) (hg : Grown h t header sent received)
    (htop : TopCounts h t.root b sent) : Uniform (ofByte b sent) := by
  obtain ⟨c, s, k, ⟨⟨y, hy, hp, hd, hk⟩, hb⟩, hpre, halt⟩ := htop
  rcases halt with ⟨_, huni, _⟩ | ⟨_, hlt⟩
  · exact huni
  · have hcount := hc.nodes c y s hy (IsTop.spells ⟨⟨y, hy, hp, hd, hk⟩, hb⟩ hg.holdsSent.spells_root)
    have hle : (ofByte b sent).length ≤ sent.countP fun e => s <+: e := by
      rw [ofByte, ← List.countP_eq_length_filter]
      refine List.countP_mono_left fun e he hhead => ?_
      simpa using hpre e (mem_ofByte.mpr ⟨he, by simpa using hhead⟩)
    have hsmall : (ofByte b sent).length ≤ sent.length := List.length_filter_le _ _
    have htotal := hc.length_lt hg
    rw [hk, JavaInt.toInt_natCast_eq_iff.mpr (by omega)] at hcount
    omega

/-- Where streams with one first byte are the same, the tree is flat. -/
theorem countsStreams_of_uniform (hg : Grown h t header sent received) (hne : [] ∉ sent)
    (hlength : sent.length < 2 ^ 31)
    (htops : ∀ b, ofByte b sent ≠ [] → TopCounts h t.root b sent)
    (huni : ∀ b, Uniform (ofByte b sent)) : CountsStreams h t sent := by
  obtain ⟨x, hx, hcount⟩ := hg.rootCount
  refine ⟨fun n y w hy hs => ?_, ⟨x, hx, hcount.trans hg.packetsCount.symm⟩⟩
  cases w with
  | nil =>
    have hn : n = t.root := spells_injective hg.wellFormed.deterministic hs hg.holdsSent.spells_root
    subst hn
    rw [hx, Option.some.injEq] at hy
    subst hy
    rw [hcount, JavaInt.toInt_natCast_eq_iff.mpr hlength]
    simp
  | cons b w =>
    have hmem : b :: w ∈ cutsOf sent := by
      rw [← hg.holdsSent.represents.cuts_eq]
      exact ⟨n, hs⟩
    have hword : b :: w ∈ sent := by
      rcases hmem with hnil | ⟨before, after, rfl, _⟩ | ⟨e, he, e', he', a, a', ha, ha', haa⟩
      · cases hnil
      · simp
      · have hhead {z : List UInt8} {a : UInt8} (hz : (b :: w) ++ [a] <+: z) : z.head? = some b :=
          head?_of_prefix hz rfl
        have hee := huni b e (mem_ofByte.mpr ⟨he, hhead ha⟩) e' (mem_ofByte.mpr ⟨he', hhead ha'⟩)
        subst hee
        exact absurd (List.prefix_refl e) (Diverge.not_prefix ⟨_, a, a', ha, ha', haa⟩)
    have hof : b :: w ∈ ofByte b sent := mem_ofByte.mpr ⟨hword, rfl⟩
    obtain ⟨c, s, k, htop, hpre, halt⟩ := htops b (List.ne_nil_of_mem hof)
    rcases halt with ⟨hs', _, hk⟩ | ⟨hnot, _⟩
    · have hsw : s = b :: w := huni b s (mem_ofByte.mpr ⟨hs', htop.head⟩) _ hof
      subst hsw
      have hcn : c = n := spells_injective hg.wellFormed.deterministic
        (htop.spells hg.holdsSent.spells_root) hs
      subst hcn
      obtain ⟨z, hz, _, _, hzk⟩ := htop.node
      rw [hy, Option.some.injEq] at hz
      subst hz
      have hsmall : k ≤ sent.length := hk ▸ List.length_filter_le _ _
      rw [hzk, JavaInt.toInt_natCast_eq_iff.mpr (by omega), hk, ofByte, ← List.countP_eq_length_filter]
      refine congrArg Nat.cast ?_
      refine List.countP_congr fun e he => ?_
      simp only [decide_eq_true_eq]
      constructor
      · exact fun hhead => hpre e (mem_ofByte.mpr ⟨he, hhead⟩)
      · exact fun hp => head?_of_prefix hp rfl
    · exact absurd (huni b) hnot

/-- Of streams none of which is a proper beginning of another, the counts are
right if and only if streams with the same first byte are equal and the streams
are no more than an `int` counts. -/
theorem countsStreams_iff (hw : WellFormed h) (hfirst : first ≠ []) (hcalls : ∀ c ∈ calls, c.data ≠ [])
    (hnp : NoProperPrefix (first :: calls.flatMap TreeCall.transmitted)) :
    (∃ t h', treeRun header first calls h = .ok t h' ∧
        CountsStreams h' t (first :: calls.flatMap TreeCall.transmitted)) ↔
      (∀ e ∈ first :: calls.flatMap TreeCall.transmitted,
        ∀ e' ∈ first :: calls.flatMap TreeCall.transmitted, e.head? = e'.head? → e = e') ∧
        (first :: calls.flatMap TreeCall.transmitted).length < 2 ^ 31 := by
  obtain ⟨t, h', hrun, hg, htops⟩ := topCounts_treeRun header hw hfirst hcalls hnp
  have hne : [] ∉ first :: calls.flatMap TreeCall.transmitted := by
    rw [List.mem_cons, List.mem_flatMap]
    rintro (hnil | ⟨c, hc, hnil⟩)
    · exact hfirst hnil.symm
    · cases c with
      | merge s => exact hcalls _ hc (List.mem_singleton.mp hnil).symm
      | addReceivedData s => cases hnil
  constructor
  · rintro ⟨t', h'', hrun', hcounts⟩
    rw [hrun] at hrun'
    cases hrun'
    refine ⟨fun e he e' he' hhead => ?_, hcounts.length_lt hg⟩
    cases hb : e.head? with
    | none => exact absurd (List.head?_eq_none_iff.mp hb ▸ he) hne
    | some b =>
      have hof := mem_ofByte.mpr ⟨he, hb⟩
      exact hcounts.uniform hg (htops b (List.ne_nil_of_mem hof)) e hof e'
        (mem_ofByte.mpr ⟨he', hhead ▸ hb⟩)
  · rintro ⟨huni, hlength⟩
    refine ⟨t, h', hrun, countsStreams_of_uniform hg hne hlength htops fun b e he e' he' => ?_⟩
    obtain ⟨he, hb⟩ := mem_ofByte.mp he
    obtain ⟨he', hb'⟩ := mem_ofByte.mp he'
    exact huni e he e' he' (hb.trans hb'.symm)

/-- A repeated stream beside a different one. -/
theorem countsStreams_flat : ∃ t h', treeRun [0x00] [1, 2] [.merge [3, 4], .merge [1, 2]] [] = .ok t h' ∧
    CountsStreams h' t [[1, 2], [3, 4], [1, 2]] :=
  (countsStreams_iff WellFormed.nil (by decide) (by decide)
    (by unfold NoProperPrefix; decide)).mpr (by decide)

/-- Data, parent and count of a node, if the run ended without an exception. -/
def nodeAfter (n : NodeId) :
    EStateM.Result JavaException Heap Tree → Option (List UInt8 × Option NodeId × JavaInt)
  | .ok _ h => h[n]?.map fun x => (x.data, x.parent, x.count)
  | .error _ _ => none

/-- After two streams part, their common node counts one of them. -/
theorem not_countsStreams_parting : NoProperPrefix [[1, 2], [1, 3]] ∧
    ¬ ∃ t h', treeRun [0x00] [1, 2] [.merge [1, 3]] [] = .ok t h' ∧
      CountsStreams h' t [[1, 2], [1, 3]] := by
  refine ⟨by unfold NoProperPrefix; decide, ?_⟩
  rintro ⟨t, h', hrun, hcounts⟩
  have hupper : nodeAfter 3 (treeRun [0x00] [1, 2] [.merge [1, 3]] []) = some ([1], some 0, 1) := by
    decide
  have hroot : nodeAfter 0 (treeRun [0x00] [1, 2] [.merge [1, 3]] []) = some ([0x00], none, 2) := by
    decide
  rw [hrun, nodeAfter, Option.map_eq_some_iff] at hupper hroot
  obtain ⟨y, hy, hyp⟩ := hupper
  obtain ⟨x, hx, hxp⟩ := hroot
  simp only [Prod.mk.injEq] at hyp hxp
  have hspells : Spells (forest h') 0 3 ([] ++ (forest h').label 3) :=
    .child (.root (by rw [forest_parent hx, hxp.2.1])) (by rw [forest_parent hy, hyp.2.1])
  rw [forest_label hy, hyp.1] at hspells
  have htree : t.root = 0 := by
    have hget : (match treeRun [0x00] [1, 2] [.merge [1, 3]] [] with
      | .ok t _ => t.root
      | .error _ _ => 1) = 0 := by decide
    rwa [hrun] at hget
  have hcount := hcounts.nodes 3 y _ hy (htree ▸ hspells)
  rw [hyp.2.2] at hcount
  revert hcount
  decide

end ApduPlay.NodeCounts
