import Mathlib.Algebra.BigOperators.Ring.Finset
import Mathlib.Algebra.Field.Rat
import Mathlib.Algebra.Order.Field.Basic
import Mathlib.Data.List.Rotate
import ApduPlay.Library.WordColumns
import ApduPlay.PrintedFlow
import ApduPlay.SpelledTallies

/-!
# The frequencies of the flow

The flow of a simplified tree of streams with one length shows, for every depth, a
byte whose tallies add up to most, in the arithmetic of an `int`. This is a most
frequent byte with the number of its streams as long as the tallies of the byte on top
lost as much as they gained and the `int` is wide enough.
-/

namespace ApduPlay.FlowFrequencies

open LabelForest WordCuts KeyedLists TreeTraversal LogParser PacketGraph PacketNode PacketTree LinkedTrees
open SimplifiedTrees TreeRuns NodeCounts TalliedNodes SpelledTallies PrintedFlow WrappedText

variable {h : Heap} {r i : NodeId} {x : Node} {w : List UInt8} {b : UInt8} {sent : List (List UInt8)}
  {k depth : ℕ} {cfg : PrintSettings} {hash entryHash : HashOrder} {value : JavaString} {n : JavaInt}

/-- What a beginning is counted with: its last byte and its tally. -/
def wordEntry (sent : List (List UInt8)) (w : List UInt8) : JavaString × JavaInt :=
  ((w.getLast?.map hexByte).getD [], (tally w sent.reverse : ℕ))

theorem hexBinaryString_single (bytesSeparator : Option JavaString) (b : UInt8) :
    hexBinaryString bytesSeparator [b] = hexByte b :=
  hexBinaryString_concat bytesSeparator [] b

/-- A node is counted with what it spells. -/
theorem entryOf_word (ht : SpellsTallies h r sent) (hi : Reachable (childIds h) r i)
    (hw : Spells (forest h) r i w) (hne : w ≠ []) : entryOf cfg h i = wordEntry sent w := by
  obtain ⟨u, b, rfl⟩ := List.eq_nil_or_concat'  w |>.resolve_left hne
  obtain ⟨x, p, hx, hb, hcount, -⟩ := ht.exists_parent hi hw
  rw [entryOf_eq hx, hb, hcount, hexBinaryString_single, wordEntry, List.getLast?_concat]
  rfl

/-- The nodes of a depth are counted with the beginnings of this length. -/
theorem entries_perm (cfg : PrintSettings) (ht : SpellsTallies h r sent) (hk : 1 ≤ k)
    (hlong : ∀ e ∈ sent, k ≤ e.length)
    {nodes : List NodeId} (hlevel : Level (childIds h) r k nodes) :
    (nodes.map (entryOf cfg h)).Perm ((beginnings sent k).map (wordEntry sent)) := by
  obtain ⟨words, hnodup, hmem, hspelled⟩ := ht.exists_words hlevel
  have hwords : words.Perm (beginnings sent k) := by
    refine (List.perm_ext_iff_of_nodup hnodup (List.nodup_dedup _)).mpr fun w => ?_
    rw [hmem]
    exact (mem_beginnings hk hlong).symm
  have hentries : nodes.map (entryOf cfg h) = words.map (wordEntry sent) := by
    rw [← List.forall₂_eq_eq_eq, List.forall₂_map_left_iff, List.forall₂_map_right_iff]
    refine hspelled.imp fun i w ⟨hi, hw, hlength⟩ => entryOf_word ht hi hw fun hnil => ?_
    rw [hnil, List.length_nil] at hlength
    omega
  rw [hentries]
  exact hwords.map _

/-- The tallies of one text are those of the beginnings that end with its byte. -/
theorem sumOf_wordEntry (hk : 1 ≤ k) (hlong : ∀ e ∈ sent, k ≤ e.length) (b : UInt8) :
    sumOf (hexByte b) ((beginnings sent k).map (wordEntry sent)) = ((talliedAt sent k b : ℕ) : JavaInt) := by
  rw [sumOf, List.filter_map, List.map_map, talliedAt, total, Nat.cast_list_sum, List.map_map]
  refine congrArg List.sum ?_
  have hfilter : (beginnings sent k).filter ((fun e => decide (e.1 = hexByte b)) ∘ wordEntry sent) =
      (beginnings sent k).filter fun w => w.getLast? = some b := by
    refine List.filter_congr fun w hw => decide_eq_decide.mpr ?_
    obtain ⟨u, d, rfl⟩ := exists_letter hk hlong hw
    rw [wordEntry, List.getLast?_concat, Option.some.injEq]
    exact hexByte_injective.eq_iff
  rw [hfilter]
  rfl

/-- The sums that are counted at a depth. -/
theorem mem_levelSums (cfg : PrintSettings) (hash : HashOrder) (ht : SpellsTallies h r sent) (hk : 1 ≤ k)
    (hlong : ∀ e ∈ sent, k ≤ e.length) :
    (value, n) ∈ levelSums cfg h (levelNodes hash h r k) ↔
      ∃ b ∈ lettersAt sent k, value = hexByte b ∧ n = ((talliedAt sent k b : ℕ) : JavaInt) := by
  have hperm := entries_perm cfg ht hk hlong (level_levelNodes hash ht.linked k)
  have hkeys : value ∈ ((levelNodes hash h r k).map (entryOf cfg h)).map Prod.fst ↔
      ∃ b ∈ lettersAt sent k, value = hexByte b := by
    rw [(hperm.map Prod.fst).mem_iff, List.map_map, List.mem_map]
    simp only [mem_lettersAt_iff hk hlong, Function.comp_apply, wordEntry]
    constructor
    · rintro ⟨w, hw, rfl⟩
      obtain ⟨u, b, rfl⟩ := exists_letter hk hlong hw
      exact ⟨b, ⟨_, hw, List.getLast?_concat⟩, by rw [List.getLast?_concat]; rfl⟩
    · rintro ⟨b, ⟨w, hw, hb⟩, rfl⟩
      exact ⟨w, hw, by rw [hb]; rfl⟩
  rw [levelSums, mem_foldl_addTo, hkeys, sumOf_perm hperm]
  constructor
  · rintro ⟨⟨b, hb, rfl⟩, hn⟩
    exact ⟨b, hb, rfl, by rw [hn, sumOf_wordEntry hk hlong]⟩
  · rintro ⟨b, hb, rfl, rfl⟩
    exact ⟨⟨b, hb, rfl⟩, (sumOf_wordEntry hk hlong b).symm⟩

/-- The number that the tallies of a byte are read as. -/
theorem toInt_talliedAt (hk : 1 ≤ k) (hlong : ∀ e ∈ sent, k ≤ e.length) (b : UInt8) :
    ((talliedAt sent k b : ℕ) : JavaInt).toInt = shownAt wrapInt sent k b := by
  rw [JavaInt.toInt_natCast, shownAt_eq wrapInt hk hlong]

/-- What is shown of a depth comes out on top. -/
theorem leads_of_isShown (ht : SpellsTallies h r sent) (hk : 1 ≤ k) (hlong : ∀ e ∈ sent, k ≤ e.length)
    {node : FlowNode} (hshown : IsShown cfg entryHash h (levelNodes hash h r k) node) :
    ∃ b, Leads wrapInt sent k b ∧ node.value = hexByte b ∧
      node.count.toInt = shownAt wrapInt sent k b := by
  have hperm := entryHash.perm (levelSums cfg h (levelNodes hash h r k))
  obtain ⟨b, hb, hvalue, hcount⟩ :=
    (mem_levelSums cfg hash ht hk hlong).mp (hperm.mem_iff.mp (firstLargest_spec hshown).1)
  have hread := toInt_talliedAt hk hlong b
  rw [← hcount] at hread
  refine ⟨b, ⟨hb, fun b' hb' => ?_⟩, hvalue, hread⟩
  have hmem := (mem_levelSums cfg hash ht hk hlong).mpr ⟨b', hb', rfl, rfl⟩
  have hle : ((talliedAt sent k b' : ℕ) : JavaInt).toInt ≤ node.count.toInt :=
    (firstLargest_spec hshown).2 (hexByte b', (talliedAt sent k b' : ℕ)) (hperm.mem_iff.mpr hmem)
  rwa [toInt_talliedAt hk hlong, hread] at hle

/-- An order that begins at some entry. -/
def rotated (n : ℕ) : HashOrder :=
  ⟨fun entries => entries.rotate n, fun entries => List.rotate_perm entries n⟩

/-- Every byte that comes out on top is shown in some order. -/
theorem exists_order (cfg : PrintSettings) (hash : HashOrder) (ht : SpellsTallies h r sent) (hk : 1 ≤ k)
    (hlong : ∀ e ∈ sent, k ≤ e.length) (hb : Leads wrapInt sent k b) (flowIndex : ℕ)
    (label : JavaString) :
    ∃ entryHash, IsShown cfg entryHash h (levelNodes hash h r k)
      ⟨flowIndex, hexByte b, label, (talliedAt sent k b : ℕ)⟩ := by
  obtain ⟨hb, hlead⟩ := hb
  have hmem := (mem_levelSums cfg hash ht hk hlong).mpr ⟨b, hb, rfl, rfl⟩
  obtain ⟨i, hi, hentry⟩ := List.getElem_of_mem hmem
  have hfirst : (rotated i).order (levelSums cfg h (levelNodes hash h r k)) =
      (hexByte b, ((talliedAt sent k b : ℕ) : JavaInt)) ::
        ((levelSums cfg h (levelNodes hash h r k)).drop (i + 1) ++
        (levelSums cfg h (levelNodes hash h r k)).take i) := by
    show List.rotate _ i = _
    rw [List.rotate_eq_drop_append_take hi.le, List.drop_eq_getElem_cons hi, hentry, List.cons_append]
  have hle : ∀ e ∈ (levelSums cfg h (levelNodes hash h r k)).drop (i + 1) ++
      (levelSums cfg h (levelNodes hash h r k)).take i,
        e.2.toInt ≤ ((talliedAt sent k b : ℕ) : JavaInt).toInt := by
    intro e he
    have hsums : e ∈ levelSums cfg h (levelNodes hash h r k) :=
      (List.mem_append.mp he).elim List.mem_of_mem_drop List.mem_of_mem_take
    obtain ⟨b', hb', -, hcount⟩ := (mem_levelSums cfg hash ht hk hlong).mp hsums
    rw [hcount, toInt_talliedAt hk hlong, toInt_talliedAt hk hlong]
    exact hlead b' hb'
  refine ⟨rotated i, ?_⟩
  rw [IsShown, hfirst]
  exact firstLargest_cons_of_le hle

/-- There are more nodes than depths. -/
theorem depth_lt_length (ht : SpellsTallies h r sent) (hfull : ∀ j ≤ depth, ∃ n, AtDepth (childIds h) r j n) :
    depth < h.length := by
  have hnodes : ∀ j, ∃ n, j ≤ depth → AtDepth (childIds h) r j n := by
    intro j
    by_cases hj : j ≤ depth
    · obtain ⟨n, hn⟩ := hfull j hj
      exact ⟨n, fun _ => hn⟩
    · exact ⟨r, fun h => absurd h hj⟩
  choose nodeAt hat using hnodes
  have hle {j : ℕ} (hj : j ∈ List.range (depth + 1)) : j ≤ depth := Nat.lt_succ_iff.mp (List.mem_range.mp hj)
  have hnodup : ((List.range (depth + 1)).map nodeAt).Nodup := by
    refine List.nodup_range.map_on fun i hi j hj heq => ?_
    obtain ⟨-, w, hw, rfl⟩ := ht.atDepth_iff.mp (hat i (hle hi))
    obtain ⟨-, w', hw', rfl⟩ := ht.atDepth_iff.mp (hat j (hle hj))
    rw [hw.word_unique (heq ▸ hw')]
  have hsub : (List.range (depth + 1)).map nodeAt ⊆ List.range h.length := by
    intro n hn
    obtain ⟨j, hj, rfl⟩ := List.mem_map.mp hn
    obtain ⟨x, hx⟩ := ht.linked.exists_node (hat j (hle hj)).reachable
    exact List.mem_range.mpr (lt_length hx)
  have hlength := (hnodup.subperm hsub).length_le
  rw [List.length_map, List.length_range, List.length_range] at hlength
  exact hlength

/-- A node shows a most frequent byte of a depth, in the colour of its frequency. -/
structure ShowsFrequent (sent : List (List UInt8)) (k : ℕ) (packetsCount : JavaInt) (node : FlowNode) :
    Prop where
  /-- No byte occurs in more streams, and the frequency is that of these streams. -/
  byte : ∃ b, node.value = hexByte b ∧ (∀ b', occurrences sent k b' ≤ occurrences sent k b) ∧
    node.count.toInt = occurrences sent k b
  /-- There are packets. -/
  packets : packetsCount.toInt ≠ 0
  /-- The frequency is at most one. -/
  le_one : node.frequency packetsCount ≤ 1

/-- A tree that is built and simplified is printed as a flow of its most frequent
bytes. -/
def PrintsFrequencies (cfg : PrintSettings) (lineSeparator : JavaString)
    (hexColor : JavaInt → JavaInt → JavaString) (hash entryHash : HashOrder) (header first : List UInt8)
    (calls : List TreeCall) (flowIndex depth : ℕ) (h : Heap) (lines : List JavaString) : Prop :=
  ∃ t h₁ h₂ flow more, treeRun header first calls h = .ok t h₁ ∧ simplifyNodes hash t h₁ = .ok () h₂ ∧
    flowNodes cfg hash entryHash t.root flowIndex h₂ = .ok flow h₂ ∧
    printFlow cfg lineSeparator hexColor hash entryHash t.root t.packetsCount flowIndex (h₂, lines) =
      .ok (flowIndex + flow.length) (h₂, lines ++ more) ∧
    flow.length = depth + 1 ∧ ∀ k, 1 ≤ k → k ≤ depth → ∃ node, flow[k]? = some node ∧
      node.flowIndex = flowIndex + k ∧
      ShowsFrequent (first :: calls.flatMap TreeCall.transmitted) k t.packetsCount node

section Runs

variable {header first : List UInt8} {calls : List TreeCall}

/-- Streams of one length are no proper beginnings of each other. -/
theorem noProperPrefix_of_length (hlength : ∀ e ∈ sent, e.length = depth) : NoProperPrefix sent :=
  fun e he e' he' hpre => hpre.eq_of_length ((hlength e he).trans (hlength e' he').symm)

/-- A tree of streams with one length, simplified. -/
theorem exists_simplified (hash : HashOrder) (header : List UInt8) (hw : WellFormed h) (hfirst : first ≠ [])
    (hcalls : ∀ c ∈ calls, c.data ≠ [])
    (hlength : ∀ e ∈ first :: calls.flatMap TreeCall.transmitted, e.length = depth) :
    ∃ t h₁ h₂, treeRun header first calls h = .ok t h₁ ∧ simplifyNodes hash t h₁ = .ok () h₂ ∧
      t.packetsCount = ((first :: calls.flatMap TreeCall.transmitted).length : ℕ) ∧
      SpellsTallies h₂ t.root (first :: calls.flatMap TreeCall.transmitted) ∧
      (forest h₂).label t.root = header := by
  have hnp := noProperPrefix_of_length hlength
  obtain ⟨t, h₁, hrun, hg, ht⟩ := tallied_treeRun header hw hfirst hcalls hnp
  obtain ⟨x, hx, hp, hheader⟩ := hg.holdsSent.header
  obtain ⟨y, hy, hq, -⟩ := hg.holdsReceived.header
  have hroot := linked_of_wellFormed hg.wellFormed hx hp
  have htree : WellFormedTree h₁ t := ⟨hroot, linked_of_wellFormed hg.wellFormed hy hq, hg.roots_ne⟩
  obtain ⟨h₂, hsimple, hs, -⟩ := simplifyNodes_ok hash htree
  refine ⟨t, h₁, h₂, hrun, hsimple, hg.packetsCount, spellsTallies_of_simplified hs hg.wellFormed hroot
    hg.holdsSent.represents ht fun e he => mem_cutsOf_of_mem hnp he, ?_⟩
  obtain ⟨x', hx', -⟩ := hs.linked.root
  have hsame := hs.root
  rw [hx, hx', Option.map_some, Option.map_some, Option.some.injEq] at hsame
  rw [forest_label hx', hsame, hheader]

/-- Its depths are those of the streams. -/
theorem depths_of_length (ht : SpellsTallies h r (first :: sent))
    (hlength : ∀ e ∈ first :: sent, e.length = depth) :
    (∀ n, ¬ AtDepth (childIds h) r (depth + 1) n) ∧ ∀ j ≤ depth, ∃ n, AtDepth (childIds h) r j n := by
  constructor
  · intro n hn
    obtain ⟨hi, w, hw, hwk⟩ := ht.atDepth_iff.mp hn
    rcases ht.spelled hi hw with rfl | ⟨e, he, hwe⟩
    · rw [List.length_nil] at hwk
      omega
    · have hle := hwe.length_le
      rw [hlength e he] at hle
      omega
  · intro j hj
    have hfirst := hlength first List.mem_cons_self
    obtain ⟨n, hn, hs⟩ := ht.exists_node (w := first.take j)
      (Or.inr ⟨first, List.mem_cons_self, List.take_prefix j first⟩)
    exact ⟨n, ht.atDepth_iff.mpr ⟨hn, _, hs, List.length_take_of_le (hfirst ▸ hj)⟩⟩

/-- The texts of the tree have room if that of the header and that of a byte have. -/
theorem nodesHaveRoom_iff (ht : SpellsTallies h r (first :: sent)) (hfirst : first ≠ [])
    (hheader : (forest h).label r = header) :
    NodesHaveRoom cfg h r ↔
      HasRoom cfg.bytesSeparator header ∧ (cfg.bytesSeparator.getD []).length + 2 < 2 ^ 31 := by
  have hbyte (b : UInt8) : HasRoom cfg.bytesSeparator [b] ↔
      (cfg.bytesSeparator.getD []).length + 2 < 2 ^ 31 := by
    rw [HasRoom, List.length_singleton, one_mul]
  obtain ⟨root, hroot, -⟩ := ht.linked.root
  have hlabel : root.data = header := (forest_label hroot).symm.trans hheader
  constructor
  · intro hroom
    obtain ⟨b, rest, rfl⟩ := List.exists_cons_of_ne_nil hfirst
    obtain ⟨i, hi, hw⟩ := ht.exists_node (w := [b])
      (Or.inr ⟨b :: rest, List.mem_cons_self, [b].prefix_append rest⟩)
    obtain ⟨x, -, hx, hdata, -⟩ := ht.exists_parent (w := []) hi hw
    obtain ⟨x', hx', hroom'⟩ := hroom i hi
    obtain ⟨y, hy, hrooty⟩ := hroom r .root
    cases hx.symm.trans hx'
    cases hroot.symm.trans hy
    rw [hdata] at hroom'
    exact ⟨hlabel ▸ hrooty, (hbyte b).mp hroom'⟩
  · rintro ⟨hroomHeader, hroomByte⟩ n hn
    by_cases hne : n = r
    · subst hne
      exact ⟨root, hroot, hlabel ▸ hroomHeader⟩
    · obtain ⟨w, hw⟩ := ht.linked.exists_spells hn
      obtain ⟨x, u, b, hx, hdata, -⟩ := ht.node hn hw hne
      exact ⟨x, hx, hdata ▸ (hbyte b).mpr hroomByte⟩

/-- The flow of every depth, and what is shown there. -/
theorem exists_flow (cfg : PrintSettings) (hash entryHash : HashOrder)
    (ht : SpellsTallies h r (first :: sent)) (hroom : NodesHaveRoom cfg h r)
    (hlabels : ∀ k ≤ depth, ShownHasLabel cfg entryHash h (levelNodes hash h r k))
    (hlength : ∀ e ∈ first :: sent, e.length = depth) (flowIndex : ℕ) :
    ∃ flow, flowNodes cfg hash entryHash r flowIndex h = .ok flow h ∧
      flow.length = depth + 1 ∧ ∀ k ≤ depth, ∃ node, flow[k]? = some node ∧ node.flowIndex = flowIndex + k ∧
        IsShown cfg entryHash h (levelNodes hash h r k) node := by
  obtain ⟨hend, hfull⟩ := depths_of_length ht hlength
  obtain ⟨flow, hnodes, hflow, hshows⟩ := flowNodes_ok cfg hash entryHash ht.linked hroom hlabels hend
    hfull (depth_lt_length ht hfull) flowIndex
  exact ⟨flow, hnodes, hflow, fun k hk => hshows k hk (Nat.zero_le k)⟩

/-- At the beginning the header is shown. -/
theorem value_of_isShown_root (ht : SpellsTallies h r sent) (hheader : (forest h).label r = header)
    {node : FlowNode} (hshown : IsShown cfg entryHash h (levelNodes hash h r 0) node) :
    node.value = hexBinaryString cfg.bytesSeparator header := by
  obtain ⟨x, hx, -⟩ := ht.linked.root
  have hmem : (node.value, node.count) ∈ levelSums cfg h [r] :=
    (entryHash.perm _).subset (firstLargest_spec hshown).1
  have hone : levelSums cfg h [r] = [entryOf cfg h r] := rfl
  rw [hone, List.mem_singleton, entryOf_eq hx] at hmem
  rw [← hheader, forest_label hx]
  exact congrArg Prod.fst hmem

/-- Bytes have labels. -/
theorem hasLabel_hexByte (cfg : PrintSettings) (b : UInt8) : HasLabel cfg (hexByte b) :=
  wrappable_of_short (isInt_wrapInt _).2 (Nat.le_of_lt (by decide : 2 < 2 ^ 30))

/-- What is shown has labels exactly if the header has one. -/
theorem shownHasLabel_iff (ht : SpellsTallies h r (first :: sent)) (hheader : (forest h).label r = header)
    (hlength : ∀ e ∈ first :: sent, e.length = depth) :
    (∀ k ≤ depth, ShownHasLabel cfg entryHash h (levelNodes hash h r k)) ↔
      HasLabel cfg (hexBinaryString cfg.bytesSeparator header) := by
  constructor
  · intro hlabels
    obtain ⟨max, -, hshown⟩ := exists_shown cfg entryHash h (List.cons_ne_nil r []) 0 []
    have hroot : IsShown cfg entryHash h (levelNodes hash h r 0) ⟨0, max.1, [], max.2⟩ := hshown
    rw [← value_of_isShown_root ht hheader hroot]
    exact hlabels 0 (Nat.zero_le depth) _ hroot
  · intro hlabel k hk node hshown
    rcases Nat.eq_zero_or_pos k with rfl | hpos
    · rwa [value_of_isShown_root ht hheader hshown]
    · have hlong : ∀ e ∈ first :: sent, k ≤ e.length := fun e he => (hlength e he).symm ▸ hk
      obtain ⟨b, -, hvalue, -⟩ := leads_of_isShown ht hpos hlong hshown
      rw [hvalue]
      exact hasLabel_hexByte cfg b

/-- The packets are counted as an `int`. -/
theorem toInt_packetsCount {packetsCount : JavaInt} (hpackets : packetsCount = (sent.length : ℕ)) :
    packetsCount.toInt = wrapInt sent.length := by
  rw [hpackets, JavaInt.toInt_natCast]

/-- A node with a byte that is on top is right when this byte is read as frequent as it is, is most
frequent, and is not more frequent than packets are counted. -/
theorem showsFrequent_iff {packetsCount : JavaInt} {node : FlowNode}
    (hpackets : packetsCount = (sent.length : ℕ)) (hb : b ∈ lettersAt sent k)
    (hvalue : node.value = hexByte b) (hcount : node.count.toInt = shownAt wrapInt sent k b) :
    ShowsFrequent sent k packetsCount node ↔
      shownAt wrapInt sent k b = occurrences sent k b ∧
        (∀ b' ∈ lettersAt sent k, occurrences sent k b' ≤ occurrences sent k b) ∧
        (wrapInt sent.length < 0 ∨ occurrences sent k b ≤ wrapInt sent.length) := by
  have hread := toInt_packetsCount hpackets
  have hpos : (0 : ℤ) < occurrences sent k b := Nat.cast_pos.mpr (mem_lettersAt.mp hb)
  have hall : (∀ b', occurrences sent k b' ≤ occurrences sent k b) ↔
      ∀ b' ∈ lettersAt sent k, occurrences sent k b' ≤ occurrences sent k b := by
    refine ⟨fun h b' _ => h b', fun h b' => ?_⟩
    rcases Nat.eq_zero_or_pos (occurrences sent k b') with hzero | hpos'
    · exact hzero ▸ Nat.zero_le _
    · exact h b' (mem_lettersAt.mpr hpos')
  have hratio : node.count.toInt = occurrences sent k b →
      (packetsCount.toInt ≠ 0 ∧ node.frequency packetsCount ≤ 1 ↔
        wrapInt sent.length < 0 ∨ occurrences sent k b ≤ wrapInt sent.length) := by
    intro hcount'
    rw [FlowNode.frequency, hread, hcount']
    rcases lt_trichotomy (wrapInt sent.length) 0 with hneg | hzero | hgt
    · have hnegq : (wrapInt sent.length : ℚ) < 0 := Int.cast_lt_zero.mpr hneg
      have hle : ((occurrences sent k b : ℤ) : ℚ) / wrapInt sent.length ≤ 1 :=
        (div_nonpos_of_nonneg_of_nonpos (Int.cast_nonneg hpos.le) hnegq.le).trans zero_le_one
      exact iff_of_true ⟨hneg.ne, hle⟩ (Or.inl hneg)
    · rw [hzero]
      exact iff_of_false (fun h => h.1 rfl) (by omega)
    · have hgtq : (0 : ℚ) < wrapInt sent.length := Int.cast_pos.mpr hgt
      rw [div_le_one hgtq, Int.cast_le]
      exact ⟨fun h => Or.inr h.2, fun h => ⟨hgt.ne', h.resolve_left hgt.not_gt⟩⟩
  constructor
  · rintro ⟨⟨b₁, hvalue', hmax, hnumber⟩, hpackets, hle⟩
    obtain rfl : b = b₁ := hexByte_injective (hvalue.symm.trans hvalue')
    exact ⟨hcount.symm.trans hnumber, hall.mp hmax, (hratio hnumber).mp ⟨hpackets, hle⟩⟩
  · rintro ⟨hnumber, hmax, hle⟩
    have hnumber := hcount.trans hnumber
    obtain ⟨hpackets, hle⟩ := (hratio hnumber).mpr hle
    exact ⟨⟨b, hvalue, hall.mpr hmax, hnumber⟩, hpackets, hle⟩

/-- What is shown of a depth depends on the counts only. -/
theorem ShowsFrequent.congr {packetsCount : JavaInt} {node node' : FlowNode}
    (hs : ShowsFrequent sent k packetsCount node)
    (hsame : (node'.value, node'.count) = (node.value, node.count)) :
    ShowsFrequent sent k packetsCount node' := by
  obtain ⟨hvalue, hcount⟩ := Prod.mk.inj hsame
  have hfrequency : node'.frequency packetsCount = node.frequency packetsCount := by
    rw [FlowNode.frequency, FlowNode.frequency, hcount]
  obtain ⟨⟨b, hb, hmax, hnumber⟩, hpackets, hle⟩ := hs
  exact ⟨⟨b, hvalue.trans hb, hmax, hcount ▸ hnumber⟩, hpackets, hfrequency.trans_le hle⟩

/-- There is room for the texts of the header and of a byte, and the header has a label. -/
def HeaderShown (cfg : PrintSettings) (header : List UInt8) : Prop :=
  (HasRoom cfg.bytesSeparator header ∧ (cfg.bytesSeparator.getD []).length + 2 < 2 ^ 31) ∧
    HasLabel cfg (hexBinaryString cfg.bytesSeparator header)

/-- The output is right when the header is shown and every node that is shown is right. -/
theorem printsFrequencies_iff_shown {t : Tree} {h₁ h₂ : Heap} (lineSeparator : JavaString)
    (hexColor : JavaInt → JavaInt → JavaString) (flowIndex : ℕ) (lines : List JavaString)
    (hrun : treeRun header first calls h = .ok t h₁) (hsimple : simplifyNodes hash t h₁ = .ok () h₂)
    (ht : SpellsTallies h₂ t.root (first :: calls.flatMap TreeCall.transmitted)) (hfirst : first ≠ [])
    (hheader : (forest h₂).label t.root = header)
    (hlength : ∀ e ∈ first :: calls.flatMap TreeCall.transmitted, e.length = depth) :
    PrintsFrequencies cfg lineSeparator hexColor hash entryHash header first calls flowIndex depth h lines ↔
      HeaderShown cfg header ∧
      ∀ k, 1 ≤ k → k ≤ depth → ∀ node, IsShown cfg entryHash h₂ (levelNodes hash h₂ t.root k) node →
        ShowsFrequent (first :: calls.flatMap TreeCall.transmitted) k t.packetsCount node := by
  have hroom : NodesHaveRoom cfg h₂ t.root ↔ _ := nodesHaveRoom_iff ht hfirst hheader
  have hlabels : (∀ k ≤ depth, ShownHasLabel cfg entryHash h₂ (levelNodes hash h₂ t.root k)) ↔ _ :=
    shownHasLabel_iff ht hheader hlength
  constructor
  · rintro ⟨t', h₁', h₂', flow', more, hrun', hsimple', hnodes', -, -, hshows⟩
    cases hrun.symm.trans hrun'
    cases hsimple.symm.trans hsimple'
    obtain ⟨hnodesRoom, hnodesLabels⟩ := fits_of_flowNodes ht.linked hnodes'
    obtain ⟨flow, hnodes, hflow, hshown⟩ :=
      exists_flow cfg hash entryHash ht hnodesRoom (fun k _ => hnodesLabels k) hlength flowIndex
    cases hnodes.symm.trans hnodes'
    refine ⟨⟨hroom.mp hnodesRoom, hlabels.mp fun k _ => hnodesLabels k⟩, fun k hone hle node hnode => ?_⟩
    obtain ⟨node', hget, -, hfrequent⟩ := hshows k hone hle
    obtain ⟨node'', hget', -, hnode'⟩ := hshown k hle
    cases hget.symm.trans hget'
    exact hfrequent.congr (Option.mem_unique hnode hnode')
  · rintro ⟨⟨hfits, hlabel⟩, hall⟩
    obtain ⟨flow, hnodes, hflow, hshown⟩ :=
      exists_flow cfg hash entryHash ht (hroom.mpr hfits) (hlabels.mpr hlabel) hlength flowIndex
    have hprint := printFlow_ok hnodes lineSeparator hexColor t.packetsCount lines
    refine ⟨t, h₁, h₂, flow, _, hrun, hsimple, hnodes, hprint, hflow, fun k hone hle => ?_⟩
    obtain ⟨node, hget, hindex, hnode⟩ := hshown k hle
    exact ⟨node, hget, hindex, hall k hone hle node hnode⟩

end Runs

/-- The colour of a part of the packets, from red over yellow to green, with exact
numbers. -/
def exactColor (count packetsCount : JavaInt) : JavaString :=
  let round (n : ℕ) := UInt8.ofNat ((1020 * n + packetsCount.toNat) / (2 * packetsCount.toNat))
  let red := if 2 * count.toNat < packetsCount.toNat then 255 else round (packetsCount.toNat - count.toNat)
  let green := if 2 * count.toNat < packetsCount.toNat then round count.toNat else 255
  "#".toList ++ hexByte red ++ hexByte green ++ hexByte 0

end ApduPlay.FlowFrequencies
