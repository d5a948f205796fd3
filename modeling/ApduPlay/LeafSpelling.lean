import ApduPlay.LinkedTrees
import ApduPlay.TreeRuns

/-!
# What the leaves of the packets spell

The writers rebuild the bytes of every exchange from the leaf its packet
points to. A call history of one tree is compared with the exchanges it
stands for: the leaves are right in every state exactly as long as each
stream ends at a cut point when it is merged. A stream that is a beginning of
an earlier one without ending at a cut gets the longer node instead.
-/

namespace ApduPlay.LeafSpelling

open LabelForest WordCuts PacketNode PacketTree PacketMerge TreeRuns LinkedTrees

/-- One exchange of the log: what was sent, and the response added last. -/
abbrev Exchange := List UInt8 × Option (List UInt8)

/-- The exchanges after one more call; a response belongs to the last one. -/
def callLog (log : List Exchange) : TreeCall → List Exchange
  | .merge stream => log ++ [(stream, none)]
  | .addReceivedData data => log.modify (log.length - 1) fun e => (e.1, some data)

/-- The exchanges a call history stands for. -/
def exchanges (first : List UInt8) (calls : List TreeCall) : List Exchange :=
  calls.foldl callLog [(first, none)]

/-- The packet is rebuilt as the exchange, with the header in front. -/
structure SpellsExchange (h : Heap) (header : List UInt8) (packet : Packet) (e : Exchange) :
    Prop where
  /-- The transmitted leaf spells the stream. -/
  transmitted : getDataFromLeafNode h (some packet.transmittedLeafNode) = some (header ++ e.1)
  /-- The received leaf, if any, spells the response. -/
  received : packet.receivedLeafNode.map (fun n => getDataFromLeafNode h (some n)) =
    e.2.map fun data => some (header ++ data)

/-- Every stream ends at a cut point at the time it arrives: the first stream
so far that begins with it is itself, or two streams continue it differently. -/
def EndsAtCuts (streams : List (List UInt8)) : Prop :=
  ∀ before s after, streams = before ++ s :: after → s ∈ cutsOf (before ++ [s])

variable {h h' : Heap} {r n root : NodeId} {x : Node} {w s header first : List UInt8}
  {calls : List TreeCall} {t t' : Tree} {sent received : List (List UInt8)} {log : List Exchange}

/-- A leaf is rebuilt as the data of its root and the word it spells. -/
theorem getDataFromLeafNode_spells (hw : WellFormed h) (hx : h[r]? = some x)
    (hp : x.parent = none) (hs : Spells (forest h) r n w) :
    getDataFromLeafNode h (some n) = some (x.data ++ w) :=
  (linked_of_wellFormed hw hx hp).getDataFromLeafNode hx (reachable_of_spells hw hs) hs

/-- The state of heap and tree while every leaf is still right. -/
structure Faithful (h : Heap) (t : Tree) (header : List UInt8) (sent received : List (List UInt8))
    (log : List Exchange) : Prop extends Grown h t header sent received where
  /-- The last packet is the one at the end of the list. -/
  lastPacket : t.lastPacket = some (log.length - 1)
  /-- There is an exchange, the one of the constructor. -/
  log_ne_nil : log ≠ []
  /-- The leaves spell the exchanges below their roots. -/
  packets : List.Forall₂ (fun p e => Spells (forest h) t.root p.transmittedLeafNode e.1 ∧
    Option.Rel (Spells (forest h) t.receivedRoot) p.receivedLeafNode e.2) t.streamPackets log

/-- What a node spells is found behind the header. -/
theorem holdsStreams_spelled (hh : HoldsStreams h root header sent) (hw : WellFormed h)
    (hs : Spells (forest h) root n w) : getDataFromLeafNode h (some n) = some (header ++ w) := by
  obtain ⟨x, hx, hp, rfl⟩ := hh.header
  exact getDataFromLeafNode_spells hw hx hp hs

/-- Leaves spell the exchanges of a faithful tree. -/
theorem Faithful.spells (hf : Faithful h t header sent received log) :
    List.Forall₂ (SpellsExchange h header) t.streamPackets log := by
  refine hf.packets.imp ?_
  rintro ⟨leaf, answer, time, ac⟩ ⟨stream, response⟩ ⟨ht, hr⟩
  refine ⟨holdsStreams_spelled hf.holdsSent hf.wellFormed ht, ?_⟩
  cases hr with
  | none => rfl
  | some hs => simp [holdsStreams_spelled hf.holdsReceived hf.wellFormed hs]

/-- The leaf of a merged stream is right if and only if the stream ends at a
cut point. -/
theorem leaf_spelled_iff (hh : HoldsStreams h root header sent) {leaf : NodeId}
    (hm : Merged h root s leaf h') :
    getDataFromLeafNode h' (some leaf) = some (header ++ s) ↔ s ∈ cutsOf (sent ++ [s]) := by
  have hh' := hh.merged hm
  obtain ⟨w, hw, -, hiff⟩ := hm.inserted.leaf
  rw [hh'.represents.cuts_eq] at hiff
  rw [holdsStreams_spelled hh' hm.wellFormed hw, ← hiff, Option.some.injEq, List.append_cancel_left_eq]

/-- Where the stream ends at a cut point the leaf spells it. -/
theorem leaf_spells (hh : HoldsStreams h root header sent) {leaf : NodeId}
    (hm : Merged h root s leaf h') (hs : s ∈ cutsOf (sent ++ [s])) :
    Spells (forest h') root leaf s := by
  obtain ⟨w, hw, -, hiff⟩ := hm.inserted.leaf
  rw [(hh.merged hm).represents.cuts_eq] at hiff
  rwa [← hiff.mpr hs]

theorem forall₂_modify {α β : Type} {R : α → β → Prop} {f : α → α} {g : β → β} {l : List α}
    {l' : List β} (hl : List.Forall₂ R l l') (hfg : ∀ a b, R a b → R (f a) (g b)) (i : ℕ) :
    List.Forall₂ R (l.modify i f) (l'.modify i g) := by
  induction hl generalizing i with
  | nil => simp
  | cons hab hl ih =>
    cases i with
    | zero => simpa [List.modify_zero_cons] using ⟨hfg _ _ hab, hl⟩
    | succ i => simpa [List.modify_succ_cons] using ⟨hab, ih i⟩

/-- Older leaves keep their exchanges through any merge. -/
theorem Faithful.packets_merged (hf : Faithful h t header sent received log) {leaf : NodeId}
    (hm : Merged h r s leaf h') :
    List.Forall₂ (fun p e => Spells (forest h') t.root p.transmittedLeafNode e.1 ∧
      Option.Rel (Spells (forest h') t.receivedRoot) p.receivedLeafNode e.2) t.streamPackets log := by
  refine hf.packets.imp ?_
  rintro ⟨sentLeaf, answer, time, ac⟩ ⟨stream, response⟩ ⟨ht, hr⟩
  refine ⟨hm.inserted.spells hf.holdsSent.lt_length ht, ?_⟩
  cases hr with
  | none => exact .none
  | some hs => exact .some (hm.inserted.spells hf.holdsReceived.lt_length hs)

/-- Merging one more stream: the packets are right afterwards only if the
stream ends at a cut point, and then the state is faithful again. -/
theorem Faithful.merge (hf : Faithful h t header sent received log) (hs : s ≠ []) :
    ∃ t' h', PacketTree.merge t s h = .ok t' h' ∧
      (List.Forall₂ (SpellsExchange h' header) t'.streamPackets (log ++ [(s, none)]) →
        s ∈ cutsOf (sent ++ [s])) ∧
      (s ∈ cutsOf (sent ++ [s]) →
        Faithful h' t' header (sent ++ [s]) received (log ++ [(s, none)])) := by
  obtain ⟨leaf, t', h', hrun, _, hm, hg, hroot, hrec, hlast, hpackets⟩ := hf.toGrown.merge hs
  have hlen := hf.packets.length_eq
  refine ⟨t', h', hrun, fun hspell => ?_, fun hcut => ⟨hg, ?_, by simp, ?_⟩⟩
  · have htail := List.forall₂_drop_append _ _ _ hspell
    rw [hpackets, ← hlen, List.drop_left] at htail
    cases htail with
    | cons h1 _ => exact (leaf_spelled_iff hf.holdsSent hm).mp h1.transmitted
  · simp [hlast, hlen]
  · rw [hpackets, hroot, hrec]
    exact List.rel_append (hf.packets_merged hm) (.cons ⟨leaf_spells hf.holdsSent hm hcut, .none⟩ .nil)

/-- Merging a response: the packets are right afterwards only if the response
ends at a cut point, and then the state is faithful again. -/
theorem Faithful.addReceivedData (hf : Faithful h t header sent received log) (hs : s ≠ []) :
    ∃ t' h', PacketTree.addReceivedData t s h = .ok t' h' ∧
      (List.Forall₂ (SpellsExchange h' header) t'.streamPackets
          (log.modify (log.length - 1) fun e => (e.1, some s)) → s ∈ cutsOf (received ++ [s])) ∧
      (s ∈ cutsOf (received ++ [s]) → Faithful h' t' header sent (received ++ [s])
        (log.modify (log.length - 1) fun e => (e.1, some s))) := by
  obtain ⟨leaf, t', h', hrun, _, hm, hg, hroot, hrec, hlast, hpackets⟩ := hf.toGrown.addReceivedData hs
  have hlen := hf.packets.length_eq
  have hpos := List.length_pos_of_ne_nil hf.log_ne_nil
  have hanswered := hpackets _ hf.lastPacket
  refine ⟨t', h', hrun, fun hspell => ?_, fun hcut => ⟨hg, ?_, ?_, ?_⟩⟩
  · rw [hanswered] at hspell
    have hget := hspell.get (i := log.length - 1) (by simp; omega) (by simp; omega)
    simp only [List.get_eq_getElem, List.getElem_modify_eq] at hget
    have hres := hget.received
    simp only [Option.map_some, Option.some.injEq] at hres
    exact (leaf_spelled_iff hf.holdsReceived hm).mp hres
  · simp [hlast, hf.lastPacket]
  · exact List.ne_nil_of_length_pos (by simpa using hpos)
  · rw [hanswered, hroot, hrec]
    refine forall₂_modify (hf.packets_merged hm) (fun p e hpe => ?_) _
    exact ⟨hpe.1, .some (leaf_spells hf.holdsReceived hm hcut)⟩

/-- The constructor leaves a faithful state. -/
theorem faithful_newTree (hw : WellFormed h) (header : List UInt8) (hs : first ≠ []) :
    ∃ t h', newTree header first h = .ok t h' ∧
      Faithful h' t header [first] [] [(first, none)] := by
  obtain ⟨leaf, t, h', hrun, hg, hlast, hpackets, hleaf⟩ := grown_newTree hw header hs
  refine ⟨t, h', hrun, hg, hlast, by simp, ?_⟩
  rw [hpackets]
  refine .cons ⟨?_, .none⟩ .nil
  have hs := Spells.child hg.holdsSent.spells_root (n := leaf) (by rw [forest_parent hleaf])
  rwa [forest_label hleaf] at hs

/-- Streams end at cuts exactly if all before the last do, and the last does. -/
theorem endsAtCuts_append_singleton :
    EndsAtCuts (sent ++ [s]) ↔ EndsAtCuts sent ∧ s ∈ cutsOf (sent ++ [s]) := by
  constructor
  · intro hall
    refine ⟨fun before u after he => hall before u (after ++ [s]) (by simp [he]), hall sent s [] rfl⟩
  · rintro ⟨hall, hs⟩ before u after he
    rcases List.eq_nil_or_concat after with rfl | ⟨after', z, rfl⟩
    · obtain ⟨rfl, hz⟩ := List.append_inj' he rfl
      simp only [List.cons.injEq, and_true] at hz
      subst hz
      exact hs
    · have he' : sent ++ [s] = (before ++ u :: after') ++ [z] := by simpa using he
      obtain ⟨rfl, _⟩ := List.append_inj' he' rfl
      exact hall before u after' rfl

theorem exchanges_append (first : List UInt8) (calls : List TreeCall) (c : TreeCall) :
    exchanges first (calls ++ [c]) = callLog (exchanges first calls) c := by
  simp [exchanges, List.foldl_append]

/-- One call in a faithful state: the packets are right afterwards only if its
stream ends at a cut point, and then the state is faithful again. -/
theorem Faithful.run (hf : Faithful h t header sent received log) (hsent : EndsAtCuts sent)
    (hreceived : EndsAtCuts received) {c : TreeCall} (hc : c.data ≠ []) :
    ∃ t' h', c.run t h = .ok t' h' ∧
      (List.Forall₂ (SpellsExchange h' header) t'.streamPackets (callLog log c) →
        EndsAtCuts (sent ++ c.transmitted) ∧ EndsAtCuts (received ++ c.received)) ∧
      (EndsAtCuts (sent ++ c.transmitted) → EndsAtCuts (received ++ c.received) →
        Faithful h' t' header (sent ++ c.transmitted) (received ++ c.received) (callLog log c)) := by
  cases c with
  | merge s =>
    obtain ⟨t', h', hrun, hcut, hnext⟩ := hf.merge hc
    simp only [TreeCall.transmitted, TreeCall.received, List.append_nil, endsAtCuts_append_singleton]
    exact ⟨t', h', hrun, fun hspell => ⟨⟨hsent, hcut hspell⟩, hreceived⟩, fun hs _ => hnext hs.2⟩
  | addReceivedData s =>
    obtain ⟨t', h', hrun, hcut, hnext⟩ := hf.addReceivedData hc
    simp only [TreeCall.transmitted, TreeCall.received, List.append_nil, endsAtCuts_append_singleton]
    exact ⟨t', h', hrun, fun hspell => ⟨hsent, hreceived, hcut hspell⟩, fun _ hs => hnext hs.2⟩

theorem EndsAtCuts.of_append {more : List (List UInt8)} (hall : EndsAtCuts (sent ++ more)) :
    EndsAtCuts sent :=
  fun before s after he => hall before s (after ++ more) (by simp [he])

theorem endsAtCuts_nil : EndsAtCuts [] := by
  intro before s after he
  simp at he

theorem endsAtCuts_singleton : EndsAtCuts [s] := by
  refine endsAtCuts_append_singleton.mpr ⟨endsAtCuts_nil, .inr (.inl ⟨[], [], rfl, by simp⟩)⟩

/-- As long as every stream ends at a cut point the state stays faithful. -/
theorem faithful_treeRun (header : List UInt8) (hw : WellFormed h) (hfirst : first ≠ [])
    (hcalls : ∀ c ∈ calls, c.data ≠ [])
    (hsent : EndsAtCuts (first :: calls.flatMap TreeCall.transmitted))
    (hreceived : EndsAtCuts (calls.flatMap TreeCall.received)) :
    ∃ t h', treeRun header first calls h = .ok t h' ∧
      Faithful h' t header (first :: calls.flatMap TreeCall.transmitted)
        (calls.flatMap TreeCall.received) (exchanges first calls) := by
  induction calls using List.reverseRecOn with
  | nil =>
    obtain ⟨t, h', hrun, hf⟩ := faithful_newTree hw header hfirst
    exact ⟨t, h', bind_ok hrun, hf⟩
  | append_singleton calls c ih =>
    simp only [List.flatMap_append, List.flatMap_singleton, ← List.cons_append] at hsent hreceived ⊢
    obtain ⟨t, h1, hrun, hf⟩ := ih (fun c' hc' => hcalls c' (List.mem_append_left _ hc'))
      hsent.of_append hreceived.of_append
    obtain ⟨t', h2, hstep, _, hnext⟩ := hf.run hsent.of_append hreceived.of_append
      (hcalls c (by simp))
    rw [treeRun_append, exchanges_append]
    exact ⟨t', h2, (bind_ok hrun).trans hstep, hnext hsent hreceived⟩

/-- After every call all packets are rebuilt as the exchanges so far. -/
def LeavesSpellExchanges (h : Heap) (header first : List UInt8) (calls : List TreeCall) : Prop :=
  ∀ k, ∃ t h', treeRun header first (calls.take k) h = .ok t h' ∧
    List.Forall₂ (SpellsExchange h' header) t.streamPackets (exchanges first (calls.take k))

theorem LeavesSpellExchanges.of_append {more : List TreeCall}
    (hall : LeavesSpellExchanges h header first (calls ++ more)) :
    LeavesSpellExchanges h header first calls := by
  intro k
  have hk := hall (min k calls.length)
  rwa [List.take_append_of_le_length (Nat.min_le_right _ _), ← List.take_eq_take_min] at hk

/-- The packets are right after every call if and only if every stream and
every response ends at a cut point when it arrives. -/
theorem leavesSpellExchanges_iff (hw : WellFormed h) (hfirst : first ≠ [])
    (hcalls : ∀ c ∈ calls, c.data ≠ []) :
    LeavesSpellExchanges h header first calls ↔
      EndsAtCuts (first :: calls.flatMap TreeCall.transmitted) ∧
        EndsAtCuts (calls.flatMap TreeCall.received) := by
  constructor
  · intro hall
    induction calls using List.reverseRecOn with
    | nil => exact ⟨endsAtCuts_singleton, endsAtCuts_nil⟩
    | append_singleton calls c ih =>
      have hold := fun c' hc' => hcalls c' (List.mem_append_left _ hc')
      obtain ⟨hsent, hreceived⟩ := ih hold hall.of_append
      obtain ⟨t, h1, hrun, hf⟩ := faithful_treeRun header hw hfirst hold hsent hreceived
      obtain ⟨t', h2, hstep, hcut, _⟩ := hf.run hsent hreceived (hcalls c (by simp))
      obtain ⟨t'', h3, hrun', hspell⟩ := hall (calls ++ [c]).length
      rw [List.take_length, treeRun_append, (bind_ok hrun).trans hstep] at hrun'
      cases hrun'
      rw [List.take_length, exchanges_append] at hspell
      simpa only [List.flatMap_append, List.flatMap_singleton, ← List.cons_append] using hcut hspell
  · rintro ⟨hsent, hreceived⟩ k
    rw [← List.take_append_drop k calls, List.flatMap_append] at hsent hreceived
    obtain ⟨t, h', hrun, hf⟩ := faithful_treeRun header hw hfirst
      (fun c hc => hcalls c (List.mem_of_mem_take hc)) hsent.of_append hreceived.of_append
    exact ⟨t, h', hrun, hf.spells⟩

/-- Two streams that part, and one sent twice. -/
theorem leavesSpellExchanges_parting :
    LeavesSpellExchanges [] [0x00, 0xA4] [1, 2] [.merge [1, 3], .merge [1, 2]] := by
  refine (leavesSpellExchanges_iff WellFormed.nil (by decide) (by decide)).mpr ⟨?_, endsAtCuts_nil⟩
  have h2 : EndsAtCuts [[1, 2], [1, 3]] :=
    endsAtCuts_append_singleton.mpr ⟨endsAtCuts_singleton, .inr (.inl ⟨[[1, 2]], [], rfl, by decide⟩)⟩
  exact endsAtCuts_append_singleton.mpr
    ⟨h2, .inr (.inl ⟨[], [[1, 3], [1, 2]], rfl, by simp⟩)⟩

/-- The bytes the writers rebuild for the transmitted half of every packet. -/
def transmittedBytes : EStateM.Result JavaException Heap Tree → List (Option (List UInt8))
  | .ok t h => t.streamPackets.map fun p => getDataFromLeafNode h (some p.transmittedLeafNode)
  | .error _ _ => []

/-- The bytes that were sent are found if the leaves spell them. -/
theorem transmittedBytes_eq (hrun : treeRun header first calls h = .ok t h')
    (hspell : List.Forall₂ (SpellsExchange h' header) t.streamPackets log) :
    transmittedBytes (treeRun header first calls h) = log.map fun e => some (header ++ e.1) := by
  rw [hrun]
  simp only [transmittedBytes]
  generalize t.streamPackets = packets at hspell
  induction hspell with
  | nil => rfl
  | cons he _ ih => rw [List.map_cons, List.map_cons, ih, he.transmitted]

/-- A stream that is a beginning of an earlier one is rebuilt as that one. -/
theorem not_leavesSpellExchanges_prefix : ¬ LeavesSpellExchanges [] [0x00] [1, 2] [.merge [1]] := by
  intro hall
  obtain ⟨t, h', hrun, hspell⟩ := hall 1
  have hbytes : transmittedBytes (treeRun [0x00] [1, 2] [.merge [1]] []) =
      [some [0x00, 1, 2], some [0x00, 1, 2]] := by decide
  have hclaimed := (transmittedBytes_eq hrun hspell).symm.trans hbytes
  revert hclaimed
  decide

end ApduPlay.LeafSpelling
