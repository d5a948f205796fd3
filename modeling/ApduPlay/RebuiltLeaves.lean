import ApduPlay.LeafSpelling
import ApduPlay.ParserSteps

/-!
# Leaves after any log

Whatever a log contains, the packets of every tree point to nodes below its
roots. An exception ends the parse and can leave a node without data behind,
but no tree has it.
-/

namespace ApduPlay.RebuiltLeaves

open LabelForest PacketNode PacketTree PacketMerge TreeRuns LeafSpelling LogParser ParserSteps

/-- A root with the bytes of a header. -/
def HasHeader (headerLength : ℕ) (h : Heap) (r : NodeId) : Prop :=
  ∃ x : Node, h[r]? = some x ∧ x.parent = none ∧ x.data.length = headerLength

/-- The packets of a tree point to nodes below its roots. -/
structure Leafed (headerLength : ℕ) (h : Heap) (t : Tree) : Prop where
  /-- The root of the transmitted data. -/
  root : HasHeader headerLength h t.root
  /-- The root of the responses. -/
  receivedRoot : HasHeader headerLength h t.receivedRoot
  /-- The transmitted leaves. -/
  transmitted : ∀ p ∈ t.streamPackets, ∃ w, Spells (forest h) t.root p.transmittedLeafNode w
  /-- The received leaves. -/
  received : ∀ p ∈ t.streamPackets, ∀ n ∈ p.receivedLeafNode, ∃ w, Spells (forest h) t.receivedRoot n w

/-- Between two lines of a log. -/
structure Sound (headerLength : ℕ) (s : Heap × Parser) : Prop where
  /-- The heap is well formed. -/
  wellFormed : WellFormed s.1
  /-- The trees. -/
  leafed : ∀ {header : String} {t : Tree}, s.2.packets.lookup header = some t → Leafed headerLength s.1 t

/-- A leaf from which the writers rebuild a header and what follows it. -/
def Rebuilt (headerLength : ℕ) (h : Heap) (n : NodeId) : Prop :=
  ∃ bytes, getDataFromLeafNode h (some n) = some bytes ∧ headerLength ≤ bytes.length

/-- A tree whose leaves are all rebuilt. -/
structure AllRebuilt (headerLength : ℕ) (h : Heap) (t : Tree) : Prop where
  /-- The root is a node. -/
  root : t.root < h.length
  /-- The transmitted leaves. -/
  transmitted : ∀ p ∈ t.streamPackets, Rebuilt headerLength h p.transmittedLeafNode
  /-- The received leaves. -/
  received : ∀ p ∈ t.streamPackets, ∀ n ∈ p.receivedLeafNode, Rebuilt headerLength h n

/-- What happens to the trees when nodes are added. -/
structure Keeps (headerLength : ℕ) (h h' : Heap) : Prop where
  /-- Roots stay roots. -/
  root : ∀ {r : NodeId}, HasHeader headerLength h r → HasHeader headerLength h' r
  /-- What is below them stays there. -/
  below : ∀ {r n : NodeId} {w : List UInt8}, HasHeader headerLength h r → Spells (forest h) r n w →
    Spells (forest h') r n w

/-- A line is read and leaves a sound state, or it ends the parse and leaves the
trees as they were. -/
def LineRead (headerLength : ℕ) (s : Heap × Parser) :
    EStateM.Result JavaException (Heap × Parser) Unit → Prop
  | .ok _ s' => Sound headerLength s'
  | .error _ s' => Steady s.1 s'.1 ∧ s'.2.packets = s.2.packets

variable {headerLength : ℕ} {h h' : Heap} {s s' : Heap × Parser} {t t' : Tree} {r n leaf : NodeId}
  {w data header : List UInt8}

/-- A root that has the header has no parent. -/
theorem HasHeader.parentless (hr : HasHeader headerLength h r) : Parentless h r := by
  obtain ⟨x, hx, hp, -⟩ := hr
  exact ⟨x, hx, hp⟩

/-- Steady heaps keep the header. -/
theorem hasHeader_steady (hst : Steady h h') (hr : HasHeader headerLength h r) :
    HasHeader headerLength h' r := by
  obtain ⟨x, hx, hp, hd⟩ := hr
  obtain ⟨y, hy, hyp, hyd⟩ := hst r x hx
  exact ⟨y, hy, hyp.trans hp, by rw [hyd, hd]⟩

/-- They keep what is spelled below it. -/
theorem spells_steady (hst : Steady h h') (hr : HasHeader headerLength h r) (hs : Spells (forest h) r n w) :
    Spells (forest h') r n w := by
  induction hs with
  | root _ =>
    obtain ⟨y, hy, hp, -⟩ := hasHeader_steady hst hr
    exact .root (by rw [forest_parent hy, hp])
  | @child p n w _ hn ih =>
    obtain ⟨x, hx, hp⟩ := exists_of_parent hn
    obtain ⟨y, hy, hyp, hyd⟩ := hst n x hx
    have hlabel : (forest h).label n = (forest h').label n := by
      rw [forest_label hx, forest_label hy, hyd]
    rw [hlabel]
    exact .child ih (by rw [forest_parent hy, hyp, hp])

/-- So they keep all of it. -/
theorem keeps_steady (hst : Steady h h') : Keeps headerLength h h' :=
  ⟨hasHeader_steady hst, spells_steady hst⟩

/-- Merging a stream keeps it as well. -/
theorem keeps_merged {q : NodeId} (hm : Merged h q data leaf h') : Keeps headerLength h h' := by
  constructor
  · rintro r ⟨x, hx, hp, hd⟩
    obtain ⟨y, hy, hyp, hyd⟩ := merged_root hm hx hp
    exact ⟨y, hy, hyp, by rw [hyd, hd]⟩
  · rintro r n w ⟨x, hx, -⟩ hs
    exact hm.inserted.spells (lt_length hx) hs

/-- The leaves of a tree stay. -/
theorem Leafed.mono (ht : Leafed headerLength h t) (hk : Keeps headerLength h h') :
    Leafed headerLength h' t := by
  refine ⟨hk.root ht.root, hk.root ht.receivedRoot, fun p hp => ?_, fun p hp n hn => ?_⟩
  · obtain ⟨w, hw⟩ := ht.transmitted p hp
    exact ⟨w, hk.below ht.root hw⟩
  · obtain ⟨w, hw⟩ := ht.received p hp n hn
    exact ⟨w, hk.below ht.receivedRoot hw⟩

/-- The constructor leaves a tree with one leaf. -/
theorem newTree_leafed (hw : WellFormed h) (hlen : header.length = headerLength) (hd : data ≠ []) :
    ∃ t h', newTree header data h = .ok t h' ∧ WellFormed h' ∧ Leafed headerLength h' t ∧
      Keeps headerLength h h' := by
  obtain ⟨leaf, t, h', hrun, hg, -, hpackets, hleaf⟩ := grown_newTree hw header hd
  obtain ⟨x, hx, hp, hxd⟩ := hg.holdsSent.header
  obtain ⟨y, hy, hyp, hyd⟩ := hg.holdsReceived.header
  have hspells := Spells.child hg.holdsSent.spells_root (n := leaf) (by rw [forest_parent hleaf])
  refine ⟨t, h', hrun, hg.wellFormed, ⟨⟨x, hx, hp, by rw [hxd, hlen]⟩, ⟨y, hy, hyp, by rw [hyd, hlen]⟩,
    fun p hp => ?_, fun p hp n hn => ?_⟩, keeps_steady fun i x hi => ⟨x, ?_, rfl, rfl⟩⟩
  · rw [hpackets, List.mem_singleton] at hp
    rw [hp]
    exact ⟨_, hspells⟩
  · rw [hpackets, List.mem_singleton] at hp
    rw [hp] at hn
    cases hn
  · obtain ⟨b, rest, rfl⟩ := List.exists_cons_of_ne_nil hd
    rw [newTree_ok] at hrun
    cases hrun
    exact (getElem?_planted_old (lt_length hi) _ _ _).trans hi

/-- A merged stream ends at one more leaf. -/
theorem merge_leafed (hw : WellFormed h) (ht : Leafed headerLength h t) (hd : data ≠ []) :
    ∃ t' h', merge t data h = .ok t' h' ∧ WellFormed h' ∧ Leafed headerLength h' t' ∧
      Keeps headerLength h h' := by
  obtain ⟨leaf, h', hrun, hm⟩ := exists_mergeNode hw ht.root.parentless hd
  obtain ⟨w, hleaf, -⟩ := hm.inserted.leaf
  have hkeep : Keeps headerLength h h' := keeps_merged hm
  have hold := ht.mono hkeep
  refine ⟨_, h', bind_ok hrun, hm.wellFormed, ⟨hold.root, hold.receivedRoot, fun p hp => ?_,
    fun p hp n hn => ?_⟩, hkeep⟩
  · rcases List.mem_append.mp hp with hp | hp
    · exact hold.transmitted p hp
    · rw [List.mem_singleton.mp hp]
      exact ⟨w, hleaf⟩
  · rcases List.mem_append.mp hp with hp | hp
    · exact hold.received p hp n hn
    · rw [List.mem_singleton.mp hp] at hn
      cases hn

/-- Storing data gives the packet a leaf. -/
theorem storeData_leafed {existing : Option Tree} (hw : WellFormed h)
    (hold : ∀ t ∈ existing, Leafed headerLength h t) (hlen : header.length = headerLength) (hd : data ≠ []) :
    ∃ t h', storeData existing header data h = .ok t h' ∧ WellFormed h' ∧ Leafed headerLength h' t ∧
      Keeps headerLength h h' := by
  cases existing with
  | none => exact newTree_leafed hw hlen hd
  | some t => exact merge_leafed hw (hold t rfl) hd

/-- A tree is stored under its header. -/
theorem Sound.put (hs : Sound headerLength s) (hw : WellFormed h') (hk : Keeps headerLength s.1 h')
    (ht : Leafed headerLength h' t) {key : String} {p : Parser} (hp : p.packets = s.2.packets.insert key t) :
    Sound headerLength (h', p) := by
  refine ⟨hw, fun {header t1} ht1 => ?_⟩
  dsimp only at ht1
  rw [hp] at ht1
  rcases eq_or_ne header key with rfl | hne
  · rw [AList.lookup_insert, Option.some.injEq] at ht1
    exact ht1 ▸ ht
  · rw [AList.lookup_insert_ne hne] at ht1
    exact (hs.leafed ht1).mono hk

/-- Transmitted bytes that do not even have a header. -/
theorem handleTransmittedData_short (hlen : data.length < headerLength) :
    handleTransmittedData headerLength data s = .error .illegalArgument s := by
  have htail : copyOfRange data headerLength data.length s.1 = .error .illegalArgument s.1 := by
    rw [copyOfRange, if_pos hlen]
    rfl
  have hhead : ∃ bytes, copyOfRange data 0 headerLength s.1 = .ok bytes s.1 := by
    rw [copyOfRange, if_neg (Nat.not_lt_zero _), if_neg (Nat.not_lt_zero _)]
    exact ⟨_, rfl⟩
  obtain ⟨bytes, hhead⟩ := hhead
  exact (bind_ok (lift_ok hhead s.2)).trans (bind_error (lift_error htail s.2))

/-- A line of data that was sent leaves the trees sound. -/
theorem handleTransmittedData_read (hs : Sound headerLength s) (data : List UInt8) :
    LineRead headerLength s (handleTransmittedData headerLength data s) := by
  rcases Nat.lt_trichotomy data.length headerLength with hlen | hlen | hlen
  · rw [handleTransmittedData_short hlen]
    exact ⟨fun i x hx => ⟨x, hx, rfl, rfl⟩, rfl⟩
  · obtain ⟨err, h', hrun, hsteady⟩ :=
      handleTransmittedData_error (fun t ht => (hs.leafed ht).root.parentless) hlen
    rw [hrun]
    exact ⟨hsteady, rfl⟩
  · have hne : data.drop headerLength ≠ [] := by
      rw [ne_eq, List.drop_eq_nil_iff]
      omega
    have htake : (data.take headerLength).length = headerLength := by
      rw [List.length_take]
      omega
    obtain ⟨t, h', hrun, hw, ht, hk⟩ := storeData_leafed hs.wellFormed (fun t0 ht0 => hs.leafed ht0) htake hne
    rw [handleTransmittedData_run hlen hrun]
    exact hs.put hw hk ht rfl

/-- A property that a change keeps holds of all items afterwards. -/
theorem forall_mem_modify {α : Type} {P : α → Prop} {l : List α} {f : α → α} (hl : ∀ a ∈ l, P a)
    (hf : ∀ a, P a → P (f a)) (i : ℕ) : ∀ a ∈ l.modify i f, P a := by
  intro a ha
  obtain ⟨j, hj⟩ := List.getElem?_of_mem ha
  rw [List.getElem?_modify, Option.map_eq_map, Option.map_eq_some_iff] at hj
  obtain ⟨b, hb, rfl⟩ := hj
  have hPb := hl b (List.mem_of_getElem? hb)
  split_ifs
  · exact hf b hPb
  · exact hPb

/-- A response is merged below the other root. -/
theorem addReceivedData_leafed (hw : WellFormed h) (ht : Leafed headerLength h t) (hd : data ≠ []) :
    ∃ t' h', addReceivedData t data h = .ok t' h' ∧ WellFormed h' ∧ Leafed headerLength h' t' ∧
      Keeps headerLength h h' := by
  obtain ⟨leaf, h', hrun, hm⟩ := exists_mergeNode hw ht.receivedRoot.parentless hd
  obtain ⟨w, hleaf, -⟩ := hm.inserted.leaf
  have hkeep : Keeps headerLength h h' := keeps_merged hm
  have hold := ht.mono hkeep
  cases hlast : t.lastPacket with
  | none =>
    refine ⟨t, h', (bind_ok hrun).trans ?_, hm.wellFormed, hold, hkeep⟩
    rw [hlast]
    rfl
  | some i =>
    refine ⟨{ t with streamPackets := t.streamPackets.modify i fun p =>
        { p with receivedLeafNode := some leaf } }, h', (bind_ok hrun).trans ?_, hm.wellFormed,
      ⟨hold.root, hold.receivedRoot, forall_mem_modify hold.transmitted ?_ i, ?_⟩, hkeep⟩
    · rw [hlast]
      rfl
    · exact fun _ hp => hp
    · refine forall_mem_modify hold.received (fun p _ n hn => ?_) i
      cases hn
      exact ⟨w, hleaf⟩

/-- Empty data are not merged. -/
theorem addReceivedData_nil (hr : Parentless h t.receivedRoot) :
    addReceivedData t [] h = .error .arrayIndexOutOfBounds (counted h t.receivedRoot) := by
  obtain ⟨x, hx, -⟩ := hr
  have herr : mergeNode t.receivedRoot [] h = .error .arrayIndexOutOfBounds (counted h t.receivedRoot) :=
    bind_ok (incrementCount_ok hx)
  exact bind_error herr

/-- The last tree is one of the parser, if there is one. -/
theorem lastTree_cases (s : Heap × Parser) :
    lastTree s = .ok none s ∨
      ∃ key t, lastTree s = .ok (some (key, t)) s ∧ s.2.packets.lookup key = some t := by
  have hrun : lastTree s = .ok (s.2.lastProcessedPacket.bind fun header =>
      (s.2.packets.lookup header).map fun tree => (header, tree)) s := rfl
  rw [hrun]
  cases s.2.lastProcessedPacket with
  | none => exact Or.inl rfl
  | some key =>
    cases hlookup : s.2.packets.lookup key with
    | none => exact Or.inl (by simp [hlookup])
    | some t => exact Or.inr ⟨key, t, by simp [hlookup], hlookup⟩

/-- Messages change nothing. -/
theorem Sound.of_packets (hs : Sound headerLength s) {p : Parser} (hp : p.packets = s.2.packets) :
    Sound headerLength (s.1, p) :=
  ⟨hs.wellFormed, fun ht => hs.leafed (by rwa [← hp])⟩

/-- A line of an answer leaves the trees sound. -/
theorem handleReceivedData_read (hs : Sound headerLength s) (data : List UInt8) :
    LineRead headerLength s (handleReceivedData data s) := by
  obtain hnone | ⟨key, t, hsome, hlookup⟩ := lastTree_cases s
  · have hrun : handleReceivedData data s = .ok () (s.1, { s.2 with
        errors := s.2.errors ++ ["Packet \"" ++ printHexBinary data ++ "\" not found as parsed tree"] }) :=
      bind_ok hnone
    rw [hrun]
    exact hs.of_packets rfl
  · have ht := hs.leafed hlookup
    rcases eq_or_ne data [] with rfl | hd
    · have hrun : handleReceivedData [] s = .error .arrayIndexOutOfBounds (counted s.1 t.receivedRoot, s.2) :=
        (bind_ok hsome).trans (bind_error (lift_error (addReceivedData_nil ht.receivedRoot.parentless) s.2))
      rw [hrun]
      exact ⟨steady_counted _ _, rfl⟩
    · obtain ⟨t', h', hrun, hw, ht', hk⟩ := addReceivedData_leafed hs.wellFormed ht hd
      have hread : handleReceivedData data s =
          .ok () (h', { s.2 with packets := s.2.packets.insert key t' }) :=
        (bind_ok hsome).trans (bind_ok (lift_ok hrun s.2))
      rw [hread]
      exact hs.put hw hk ht' rfl

/-- Times and numbers do not matter to leaves. -/
theorem setAdditionalInfo_leafed (ht : Leafed headerLength h t) (responseTime ac : ℤ) :
    Leafed headerLength h (setAdditionalInfoForLastPacket t responseTime ac) := by
  unfold setAdditionalInfoForLastPacket
  cases t.lastPacket with
  | none => exact ht
  | some i =>
    refine ⟨ht.root, ht.receivedRoot, forall_mem_modify ht.transmitted ?_ i,
      forall_mem_modify ht.received ?_ i⟩
    · exact fun _ hp => hp
    · exact fun _ hp => hp

/-- A line of a response time leaves the trees sound. -/
theorem handleResponseTime_read (hs : Sound headerLength s) (time : JavaString) :
    LineRead headerLength s (handleResponseTime time s) := by
  have hsame : Steady s.1 s.1 := fun i x hx => ⟨x, hx, rfl, rfl⟩
  obtain ⟨found, hfound⟩ : ∃ found, lastTree s = .ok found s := ⟨_, rfl⟩
  cases htime : intOfDigits (time.filter Char.isDigit) with
  | none =>
    have hparse : parseInt (time.filter Char.isDigit) s = .error .illegalArgument s := by
      rw [parseInt, htime]
      rfl
    have hrun : handleResponseTime time s = .error .illegalArgument s :=
      (bind_ok hfound).trans (bind_error hparse)
    rw [hrun]
    exact ⟨hsame, rfl⟩
  | some n =>
    have hparse : parseInt (time.filter Char.isDigit) s = .ok n s := by
      rw [parseInt, htime]
      rfl
    obtain hnone | ⟨key, t, hsome, hlookup⟩ := lastTree_cases s
    · have hrun : handleResponseTime time s =
          .error .nullPointer (s.1, { s.2 with ac := (s.2.ac + 1).bmod (2 ^ 32) }) :=
        (bind_ok hnone).trans (bind_ok hparse)
      rw [hrun]
      exact ⟨hsame, rfl⟩
    · have hrun : handleResponseTime time s = .ok () (s.1, { s.2 with
          ac := (s.2.ac + 1).bmod (2 ^ 32)
          packets := s.2.packets.insert key (setAdditionalInfoForLastPacket t n s.2.ac) }) :=
        (bind_ok hsome).trans (bind_ok hparse)
      rw [hrun]
      exact hs.put hs.wellFormed (keeps_steady hsame)
        (setAdditionalInfo_leafed (hs.leafed hlookup) n s.2.ac) rfl

/-- The bytes of a line are read before anything changes. -/
theorem parseHexBinary_read {text : JavaString} {handle : List UInt8 → ParserM Unit}
    (hhandle : ∀ bytes, LineRead headerLength s (handle bytes s)) :
    LineRead headerLength s ((parseHexBinary text >>= handle) s) := by
  unfold parseHexBinary
  cases hexBinary text with
  | none => exact ⟨fun i x hx => ⟨x, hx, rfl, rfl⟩, rfl⟩
  | some bytes => exact hhandle bytes

/-- Every line is read or ends the parse. -/
theorem parseLine_read (hs : Sound headerLength s) (line : JavaString) :
    LineRead headerLength s (parseLine headerLength line s) := by
  unfold parseLine handleABDULine
  cases processLine line with
  | none => exact hs
  | some pair =>
    dsimp only
    split_ifs
    · exact parseHexBinary_read (handleTransmittedData_read hs)
    · exact parseHexBinary_read (handleReceivedData_read hs)
    · exact handleResponseTime_read hs pair.2
    · exact hs

/-- A leaf below a root is rebuilt. -/
theorem rebuilt_of_spells (hw : WellFormed h) (hr : HasHeader headerLength h r)
    (hs : Spells (forest h) r n w) :
    Rebuilt headerLength h n := by
  obtain ⟨x, hx, hp, hlen⟩ := hr
  refine ⟨x.data ++ w, getDataFromLeafNode_spells hw hx hp hs, ?_⟩
  rw [List.length_append, hlen]
  exact Nat.le_add_right _ _

/-- The bytes above all leaves can be found. -/
theorem Leafed.allRebuilt (ht : Leafed headerLength h t) (hw : WellFormed h) :
    AllRebuilt headerLength h t := by
  obtain ⟨x, hx, -⟩ := ht.root
  refine ⟨lt_length hx, fun p hp => ?_, fun p hp n hn => ?_⟩
  · obtain ⟨w, hs⟩ := ht.transmitted p hp
    exact rebuilt_of_spells hw ht.root hs
  · obtain ⟨w, hs⟩ := ht.received p hp n hn
    exact rebuilt_of_spells hw ht.receivedRoot hs

/-- Steady heaps do not become shorter. -/
theorem length_le_of_steady (hst : Steady h h') : h.length ≤ h'.length := by
  by_contra hlt
  obtain ⟨x, hx⟩ : ∃ x, h[h'.length]? = some x := ⟨_, List.getElem?_eq_getElem (Nat.lt_of_not_le hlt)⟩
  obtain ⟨y, hy, -⟩ := hst _ x hx
  exact Nat.lt_irrefl _ (lt_length hy)

/-- The way up from a node stays the same. -/
theorem leafData_steady (hst : Steady h h') {fuel fuel' : ℕ} (hfuel : fuel ≤ fuel') {node : Option NodeId}
    {bytes : List (List UInt8)} (hrun : leafData h fuel node = some bytes) :
    leafData h' fuel' node = some bytes := by
  induction fuel generalizing fuel' node bytes with
  | zero =>
    cases node with
    | none =>
      rw [leafData] at hrun ⊢
      exact hrun
    | some n => cases hrun
  | succ fuel ih =>
    cases node with
    | none =>
      rw [leafData] at hrun ⊢
      exact hrun
    | some n =>
      obtain ⟨k, rfl⟩ : ∃ k, fuel' = k + 1 := ⟨fuel' - 1, by omega⟩
      rw [leafData] at hrun ⊢
      obtain ⟨x, hx, hrest⟩ := Option.bind_eq_some_iff.mp hrun
      obtain ⟨above, habove, hbytes⟩ := Option.bind_eq_some_iff.mp hrest
      obtain ⟨y, hy, hp, hd⟩ := hst n x hx
      have habove' := ih (Nat.le_of_succ_le_succ hfuel) habove
      simp only [hy, hp, hd, habove', Option.bind_eq_bind, Option.bind_some]
      exact hbytes

/-- A leaf is rebuilt from the same bytes later on. -/
theorem getDataFromLeafNode_steady (hst : Steady h h') {node : Option NodeId} {bytes : List UInt8}
    (hrun : getDataFromLeafNode h node = some bytes) : getDataFromLeafNode h' node = some bytes := by
  obtain ⟨data, hdata, rfl⟩ := Option.map_eq_some_iff.mp hrun
  rw [getDataFromLeafNode, leafData_steady hst (length_le_of_steady hst) hdata, Option.map_some]

/-- They keep the bytes. -/
theorem AllRebuilt.steady (ht : AllRebuilt headerLength h t) (hst : Steady h h') :
    AllRebuilt headerLength h' t := by
  have hkeep {n : NodeId} (hn : Rebuilt headerLength h n) : Rebuilt headerLength h' n := by
    obtain ⟨bytes, hrun, hlen⟩ := hn
    exact ⟨bytes, getDataFromLeafNode_steady hst hrun, hlen⟩
  exact ⟨ht.root.trans_le (length_le_of_steady hst), fun p hp => hkeep (ht.transmitted p hp),
    fun p hp n hn => hkeep (ht.received p hp n hn)⟩

/-- After any lines all leaves are rebuilt. -/
theorem allRebuilt_parseLines (lines : List JavaString) (hs : Sound headerLength s) {key : String}
    (ht : (parseLines headerLength lines s).2.packets.lookup key = some t) :
    AllRebuilt headerLength (parseLines headerLength lines s).1 t := by
  induction lines generalizing s with
  | nil => exact (hs.leafed ht).allRebuilt hs.wellFormed
  | cons line rest ih =>
    have hread := parseLine_read hs line
    cases hrun : parseLine headerLength line s with
    | ok u s' =>
      rw [hrun] at hread
      have hrest : parseLines headerLength (line :: rest) s = parseLines headerLength rest s' := by
        rw [parseLines, List.forM_cons, bind_ok hrun, parseLines]
      rw [hrest] at ht ⊢
      exact ih hread ht
    | error err s' =>
      rw [hrun] at hread
      have hend : parseLines headerLength (line :: rest) s = s' := by
        rw [parseLines, List.forM_cons, bind_error hrun, finalState]
      rw [hend] at ht ⊢
      rw [hread.2] at ht
      exact ((hs.leafed ht).allRebuilt hs.wellFormed).steady hread.1

/-- After any log all leaves are rebuilt. -/
theorem allRebuilt_parseFile (text : JavaString) {key : String}
    (ht : (parseFile headerLength text ([], newParser)).2.packets.lookup key = some t) :
    AllRebuilt headerLength (parseFile headerLength text ([], newParser)).1 t := by
  refine allRebuilt_parseLines _ ⟨WellFormed.nil, fun {header t1} ht1 => ?_⟩ ht
  cases ht1

end ApduPlay.RebuiltLeaves
