import ApduPlay.ByteSeparators
import ApduPlay.PrintedOutputs

/-!
# The analysed outputs

Two outputs put the packets of a tree together by their texts. They look for the number of
every answer's leaf, so they end exactly if no answer is missing, whatever single character
stands between the bytes.
-/

namespace ApduPlay.AnalyzedOutputs

open ExceptionRuns KeyedLists LogParser PacketNode PacketTree NodesGraph RecordedLogs OutputFunctions
open PrintedOutputs WrappedText
open ByteSeparators (ByteExchange FittingExchange groupBytes groupBytes_concat groups_texts putBytes
  putReceived textsWith)
open ConstantBytes (ByteGroup ByteMessage prefixLength suffixLength prefixLength_le suffixLength_le
  longestCommonPrefixes_ok transmittedBytes receivedBytes)
open HiddenSeparators (Analyzed pattern pattern_character_iff)
open OutputTrees (Group)
open PacketGraph (HasRoom WriterM bytesOf cut_ok getDataFromLeafNode_none hexBinaryString leafBytes_ok
  toHexBinaryString_ok)
open RebuiltLeaves (Rebuilt)
open TextColumns (length_text total)

/-- The bytes of a packet that has been answered. -/
def byteExchange (settings : Settings) (h : Heap) (p : Packet) : ByteExchange :=
  ⟨bytesOf settings.graph h (some p.transmittedLeafNode), identifier p.transmittedLeafNode,
    bytesOf settings.graph h p.receivedLeafNode, identifier (p.receivedLeafNode.getD 0)⟩

variable {settings : Settings} {env : Environment} {h : Heap} {s : FileState} {t : Tree} {header : List UInt8}
  {exchanges : List LogExchange} {p : Packet} {sep : Char} {msgs : List ByteMessage}
  {packets : List ByteGroup}

/-- Bytes that go on behind a header are cut there. -/
theorem cutBytes_ok {node : Option NodeId} {bytes : List UInt8}
    (hdata : getDataFromLeafNode h node = some bytes) (hlength : settings.headerLength ≤ bytes.length)
    (lines : List JavaString) :
    (liftM (copyOfRange bytes settings.headerLength bytes.length) : WriterM (List UInt8)) (h, lines) =
      .ok (bytesOf settings.graph h node) (h, lines) :=
  have hcut : settings.graph.headerLength ≤ bytes.length := hlength
  cut_ok hdata hcut lines

/-- The texts of a packet are found if they have room and it has been answered. -/
theorem exchangeOf_ok (ht : Rebuilt settings.headerLength h p.transmittedLeafNode)
    (hr : ∀ n ∈ p.receivedLeafNode, Rebuilt settings.headerLength h n)
    (hfits : (byteExchange settings h p).Fits settings.bytesSeparator) (hanswered : p.receivedLeafNode ≠ none)
    (lines : List JavaString) :
    exchangeOf settings p (h, lines) =
      .ok ((byteExchange settings h p).allTexts settings.bytesSeparator) (h, lines) := by
  obtain ⟨n, hn⟩ := Option.ne_none_iff_exists'.mp hanswered
  obtain ⟨sent, hsent, hsentLength⟩ := ht
  obtain ⟨answer, hanswer, hanswerLength⟩ := hr n hn
  rw [← hn] at hanswer
  obtain ⟨hroom, hroom'⟩ := hfits
  rw [byteExchange] at hroom hroom'
  rw [exchangeOf, bind_ok (leafBytes_ok hsent lines), bind_ok (leafBytes_ok hanswer lines),
    bind_ok (cutBytes_ok hsent hsentLength lines), bind_ok (lift_eq_ok (toHexBinaryString_ok hroom) _),
    bind_ok (cutBytes_ok hanswer hanswerLength lines), bind_ok (lift_eq_ok (toHexBinaryString_ok hroom') _)]
  simp only [ByteExchange.allTexts, byteExchange, hn, Option.getD_some]
  rfl

/-- Otherwise the packet raises an exception, at the latest for the number of the leaf. -/
theorem not_ends_exchangeOf (ht : Rebuilt settings.headerLength h p.transmittedLeafNode)
    (hfits : (byteExchange settings h p).Fits settings.bytesSeparator) (hmissing : p.receivedLeafNode = none)
    (lines : List JavaString) :
    endState (exchangeOf settings p (h, lines)) = (h, lines) ∧ ¬ Ends (exchangeOf settings p) (h, lines) := by
  obtain ⟨sent, hsent, hlength⟩ := ht
  obtain ⟨hroom, hroom'⟩ := hfits
  rw [byteExchange] at hroom hroom'
  have hnone : getDataFromLeafNode h p.receivedLeafNode = some [] := by
    rw [hmissing, getDataFromLeafNode_none]
  have hfail : ∃ e, exchangeOf settings p (h, lines) = .error e (h, lines) := by
    rw [exchangeOf, bind_ok (leafBytes_ok hsent lines), bind_ok (leafBytes_ok hnone lines),
      bind_ok (cutBytes_ok hsent hlength lines), bind_ok (lift_eq_ok (toHexBinaryString_ok hroom) _)]
    rcases Nat.eq_zero_or_pos settings.headerLength with hzero | hpos
    · refine ⟨.nullPointer, ?_⟩
      rw [bind_ok (cutBytes_ok hnone (Nat.le_of_eq hzero) lines),
        bind_ok (lift_eq_ok (toHexBinaryString_ok hroom') _), hmissing]
      rfl
    · refine ⟨.illegalArgument, ?_⟩
      have hbad : copyOfRange [] settings.headerLength 0 h = .error .illegalArgument h := by
        rw [copyOfRange, if_pos hpos]
        rfl
      exact bind_error (lift_error hbad lines)
  obtain ⟨e, he⟩ := hfail
  rw [he]
  exact ⟨rfl, not_ends_of_error he⟩

/-- The texts of a packet have room. -/
theorem fits_byteExchange (hsep : settings.bytesSeparator = some [sep])
    (ht : HoldsTree settings.headerLength h t header exchanges) (hp : p ∈ t.streamPackets) :
    (byteExchange settings h p).Fits settings.bytesSeparator ∧
      (byteExchange settings h p).Fits (some [' ']) := by
  obtain ⟨hsent, hanswer⟩ := ht.length_packet hp
  have hfits (c : Char) : (byteExchange settings h p).Fits (some [c]) := by
    have hlength : (Option.getD (some [c]) []).length = 1 := rfl
    unfold maxBytes at hsent hanswer
    simp only [ByteExchange.Fits, HasRoom, byteExchange, hlength]
    omega
  exact ⟨hsep ▸ hfits sep, hfits ' '⟩

/-- The bytes of all packets. -/
def byteExchanges (settings : Settings) (h : Heap) (t : Tree) : List ByteExchange :=
  t.streamPackets.map (byteExchange settings h)

/-- So have those of all packets. -/
theorem fits_byteExchanges (hsep : settings.bytesSeparator = some [sep])
    (ht : HoldsTree settings.headerLength h t header exchanges) :
    ∀ e ∈ byteExchanges settings h t, e.Fits (some [' ']) :=
  List.forall_mem_map.mpr fun _ hp => (fits_byteExchange hsep ht hp).2

/-- The packets are prepared if all of them have been answered. -/
theorem prepareAnalyzedPackets_ok (hsep : settings.bytesSeparator = some [sep])
    (ht : HoldsTree settings.headerLength h t header exchanges)
    (hanswered : ∀ e ∈ exchanges, e.answers ≠ []) (lines : List JavaString) :
    prepareAnalyzedPackets settings t (h, lines) =
      .ok (hexBinaryString settings.bytesSeparator header,
        (OutputTrees.prepareAnalyzedPackets
          ((byteExchanges settings h t).map (ByteExchange.allTexts settings.bytesSeparator))).groups)
        (h, lines) := by
  obtain ⟨x, hx, -⟩ := ht.sent.linked.root
  have hheader : x.data = header := by rw [← forest_label hx, ht.sent.header]
  have hroom : HasRoom settings.bytesSeparator x.data :=
    hheader ▸ (hasText_of_length hsep ht.length_header).1
  have hpackets := mapM_ok fun p hp => exchangeOf_ok (ht.allRebuilt.transmitted p hp)
    (ht.allRebuilt.received p hp) (fits_byteExchange hsep ht hp).1
    (ht.allAnswered_iff.mpr hanswered p hp) lines
  rw [prepareAnalyzedPackets, bind_ok (lift_ok (getData_ok hx) lines),
    bind_ok (lift_eq_ok (toHexBinaryString_ok hroom) _), bind_ok hpackets, hheader, byteExchanges,
    List.map_map]
  rfl

/-- They are not if an answer is missing. -/
theorem not_ends_prepareAnalyzedPackets (hsep : settings.bytesSeparator = some [sep])
    (ht : HoldsTree settings.headerLength h t header exchanges)
    (hmissing : ¬ ∀ e ∈ exchanges, e.answers ≠ []) (lines : List JavaString) :
    ¬ Ends (prepareAnalyzedPackets settings t) (h, lines) := by
  obtain ⟨x, hx, -⟩ := ht.sent.linked.root
  have hheader : x.data = header := by rw [← forest_label hx, ht.sent.header]
  have hroom : HasRoom settings.bytesSeparator x.data :=
    hheader ▸ (hasText_of_length hsep ht.length_header).1
  rw [← ht.allAnswered_iff] at hmissing
  obtain ⟨p, hp, hnone⟩ : ∃ p ∈ t.streamPackets, p.receivedLeafNode = none := by simpa using hmissing
  have hread : ∀ p ∈ t.streamPackets, endState (exchangeOf settings p (h, lines)) = (h, lines) := by
    intro p hp
    have htransmitted := ht.allRebuilt.transmitted p hp
    have hfits := (fits_byteExchange hsep ht hp).1
    cases hr : p.receivedLeafNode with
    | none => exact (not_ends_exchangeOf htransmitted hfits hr lines).1
    | some n =>
      exact endState_ok (exchangeOf_ok htransmitted (ht.allRebuilt.received p hp) hfits
        (hr ▸ Option.some_ne_none n) lines)
  rw [prepareAnalyzedPackets, Ends, bind_ok (lift_ok (getData_ok hx) lines),
    bind_ok (lift_eq_ok (toHexBinaryString_ok hroom) _)]
  exact fun hends => not_ends_mapM hread hp
    (not_ends_exchangeOf (ht.allRebuilt.transmitted p hp) (fits_byteExchange hsep ht hp).1 hnone lines).2
    (Ends.of_bind hends)

/-- Bytes of a group are those of a packet. -/
theorem forall_groupBytes {P : List UInt8 → Prop} {fitting : List FittingExchange}
    (hall : ∀ e ∈ fitting, P e.1.transmitted ∧ P e.1.received) :
    ∀ packet ∈ groupBytes fitting, P packet.transmitted.bytes ∧ ∀ msg ∈ packet.received, P msg.bytes := by
  induction fitting using List.reverseRecOn with
  | nil => exact List.forall_mem_nil _
  | append_singleton fitting e ih =>
    obtain ⟨hbefore, he⟩ := List.forall_mem_append.mp hall
    obtain ⟨hsent, hanswer⟩ := List.forall_mem_singleton.mp he
    intro packet hpacket
    rw [groupBytes_concat] at hpacket
    rcases mem_put hpacket with hold | ⟨old, hold, rfl⟩ | rfl
    · exact ih hbefore packet hold
    · obtain ⟨htransmitted, hreceived⟩ := ih hbefore old hold
      refine ⟨htransmitted, fun msg hmsg => ?_⟩
      rcases mem_put hmsg with hbefore | ⟨old, hbefore, rfl⟩ | rfl
      · exact hreceived msg hbefore
      · exact hreceived old hbefore
      · exact hanswer
    · exact ⟨hsent, List.forall_mem_singleton.mpr hanswer⟩

/-- Every packet counts once for what was sent, and once for what was answered. -/
theorem total_groupBytes (fitting : List FittingExchange) :
    total (transmittedBytes (groupBytes fitting)) = fitting.length ∧
      total (receivedBytes (groupBytes fitting)) = fitting.length := by
  have hsum (packets : List ByteGroup) :
      total (receivedBytes packets) = (packets.map fun packet => total packet.received).sum := by
    rw [total, receivedBytes, List.map_flatMap, List.flatMap_def, List.sum_flatten, List.map_map]
    rfl
  have hreceived (e : FittingExchange) (msgs : List ByteMessage) :
      total (putReceived e msgs) = total msgs + 1 := sum_map_put rfl fun _ => rfl
  induction fitting using List.reverseRecOn with
  | nil => exact ⟨rfl, rfl⟩
  | append_singleton fitting e ih =>
    rw [hsum] at ih ⊢
    rw [total, transmittedBytes, List.map_map] at ih ⊢
    rw [groupBytes_concat, putBytes, List.length_append, List.length_singleton]
    obtain ⟨hsent, hanswered⟩ := ih
    refine ⟨?_, ?_⟩
    · rw [← hsent]
      exact sum_map_put rfl fun _ => rfl
    · rw [← hanswered]
      exact sum_map_put rfl fun packet => hreceived e packet.received

/-- What is constant in messages that are not too large has room in an `int`. -/
theorem constant_lt (settings : TextOutput.Settings) (hne : msgs ≠ [])
    (hbytes : ∀ msg ∈ msgs, msg.bytes.length ≤ maxBytes) :
    3 * (prefixLength settings msgs + suffixLength settings msgs) < 2 ^ 31 := by
  obtain ⟨msg, hmsg⟩ := List.exists_mem_of_ne_nil _ hne
  have hlength := hbytes msg hmsg
  have hstarts := prefixLength_le settings hmsg
  have hsuffix := suffixLength_le settings hmsg
  unfold maxBytes at hlength
  omega

/-- Messages that are not too large, and not too many. -/
structure Small (msgs : List ByteMessage) : Prop where
  /-- There is one. -/
  ne_nil : msgs ≠ []
  /-- They are not too large. -/
  bytes : ∀ msg ∈ msgs, msg.bytes.length ≤ maxBytes
  /-- Nor do they come too often. -/
  total : total msgs ≤ 2 * maxBytes

/-- They can be analysed. -/
theorem Small.analyzed (hs : Small msgs) (settings : TextOutput.Settings) : Analyzed settings msgs := by
  refine ⟨Or.inr (constant_lt settings hs.ne_nil hs.bytes), fun column hcolumn => ?_⟩
  obtain ⟨i, -, -, rfl⟩ := AnalyzedColumns.mem_columnsAt.mp hcolumn
  have htotal := hs.total
  obtain ⟨msg, hmsg⟩ := List.exists_mem_of_ne_nil _ hs.ne_nil
  have hpos : 0 < TextColumns.total msgs :=
    msg.occurs.trans_le (List.le_sum_of_mem (List.mem_map_of_mem hmsg))
  refine Or.inr (Or.inr fun hzero => ?_)
  have hnone : BitVec.toInt (0 : JavaInt) = 0 := rfl
  have hcount := TextColumns.toInt_msgsCount (suffixLength settings msgs) i msgs
  unfold maxBytes at htotal
  rw [hzero, hnone, wrapInt_eq ⟨by omega, by omega⟩] at hcount
  omega

/-- So there is a pattern of them. -/
theorem Small.exists_pattern (hs : Small msgs) (settings : TextOutput.Settings)
    (hash : PacketGraph.HashOrder) (sep : Char) :
    ∃ text, pattern settings hash (msgs.map (ByteMessage.text sep)) = .ok text := by
  obtain ⟨first, rest, hcons⟩ := List.exists_cons_of_ne_nil hs.ne_nil
  have hfirst : msgs.head? = some first := List.head?_eq_some_iff.mpr ⟨rest, hcons⟩
  exact ⟨_, (pattern_character_iff hash sep hfirst).mpr ⟨hs.analyzed settings, rfl⟩⟩

/-- Groups of such messages. -/
structure SmallGroups (packets : List ByteGroup) : Prop where
  /-- Something was answered in every group. -/
  received_ne_nil : ∀ packet ∈ packets, packet.received ≠ []
  /-- All that was sent. -/
  transmitted : Small (transmittedBytes packets)
  /-- All that was answered. -/
  received : Small (receivedBytes packets)

/-- The packets of a tree are such groups. -/
theorem smallGroups_of_holdsTree (ht : HoldsTree settings.headerLength h t header exchanges)
    (hfits : ∀ e ∈ byteExchanges settings h t, e.Fits (some [' '])) :
    SmallGroups (groupBytes ((byteExchanges settings h t).attachWith _ hfits)) := by
  have hcount : (byteExchanges settings h t).length = exchanges.length := by
    rw [byteExchanges, List.length_map, ht.length_packets]
  have hlength : ((byteExchanges settings h t).attachWith _ hfits).length = exchanges.length :=
    List.length_attachWith.trans hcount
  have hsizes : ∀ e ∈ (byteExchanges settings h t).attachWith _ hfits,
      e.1.transmitted.length ≤ maxBytes ∧ e.1.received.length ≤ maxBytes := by
    intro e he
    obtain ⟨p, hp, heq⟩ := List.mem_map.mp ((List.mem_attachWith hfits e).mp he)
    rw [← heq]
    exact ht.length_packet hp
  have hall := forall_groupBytes (P := fun bytes => bytes.length ≤ maxBytes) hsizes
  obtain ⟨hsent, hanswered⟩ := total_groupBytes ((byteExchanges settings h t).attachWith _ hfits)
  have hpackets : byteExchanges settings h t ≠ [] := by
    intro hnil
    rw [hnil] at hcount
    exact ht.exchanges_ne_nil (List.length_eq_zero_iff.mp hcount.symm)
  obtain ⟨hne, hne'⟩ := ByteSeparators.messages_ne_nil hpackets hfits
  exact {
    received_ne_nil := ByteSeparators.received_ne_nil _
    transmitted :=
      { ne_nil := hne
        bytes := List.forall_mem_map.mpr fun packet hpacket => (hall packet hpacket).1
        total := (hsent.trans hlength).trans_le ht.count }
    received :=
      { ne_nil := hne'
        bytes := fun msg hmsg =>
          have ⟨packet, hpacket, hmem⟩ := List.mem_flatMap.mp hmsg
          (hall packet hpacket).2 msg hmem
        total := (hanswered.trans hlength).trans_le ht.count } }

/-- Messages that are not too large get labels. -/
theorem ends_prepare (settings : TextOutput.Settings) (graphSettings : StreamColors.GraphSettings)
    (lineSeparator sb : JavaString) (parentIdentifier : ℤ) (generateIdentifier : Bool) (sep : Char)
    (hne : msgs ≠ []) (hbytes : ∀ msg ∈ msgs, msg.bytes.length ≤ maxBytes) (h : Heap) :
    Ends (WrappedLabels.prepare settings graphSettings lineSeparator sb parentIdentifier
      (msgs.map (ByteMessage.text sep)) generateIdentifier) h := by
  have hlimit : (3 * prefixLength settings msgs - 1) + (3 * suffixLength settings msgs - 1) + 1 < 2 ^ 31 := by
    have hsum := constant_lt settings hne hbytes
    omega
  obtain ⟨color, hcolor⟩ := (StreamColors.exists_color_iff graphSettings).mpr
    (Or.inl (WrappedLabels.allRead_text hlimit sep msgs))
  rw [WrappedLabels.prepare, Ends, bind_ok (lift_eq_ok (longestCommonPrefixes_ok settings sep hne) h),
    bind_ok (lift_eq_ok hcolor h)]
  refine ends_foldlM (List.forall_mem_map.mpr fun msg hmsg sb h => ?_) sb h
  have hlength : (msg.text sep).message.length ≤ 2 ^ 30 := by
    have hmax := hbytes msg hmsg
    have htext := length_text sep msg
    unfold maxBytes at hmax
    omega
  obtain ⟨label, hlabel, -⟩ := WrappedLabels.messageLabel_ok graphSettings color hlimit
    (wrappable_of_short (isInt_wrapInt _).2 hlength)
  rw [WrappedLabels.prepareMessage, Ends,
    bind_ok (WrappedLabels.messageIdentifier_ok generateIdentifier sep msg h),
    bind_ok (lift_eq_ok hlabel _)]
  exact ⟨_, _, rfl⟩

/-- All lines of a tree are found. -/
theorem ends_prepareOutput (settings : Settings) (env : Environment) (header : JavaString) (identifier : ℤ)
    (sep : Char) (hs : SmallGroups packets) (h : Heap) :
    Ends (prepareOutput settings env header identifier (packets.map (textsWith (some [sep])))) h := by
  have hreceived : ∀ packet ∈ packets, ∀ msg ∈ packet.received, msg.bytes.length ≤ maxBytes :=
    fun packet hpacket msg hmsg => hs.received.bytes msg (List.mem_flatMap.mpr ⟨packet, hpacket, hmsg⟩)
  have hsent : (packets.map (textsWith (some [sep]))).map Group.transmittedMessage =
      (transmittedBytes packets).map (ByteMessage.text sep) := by
    rw [transmittedBytes, List.map_map, List.map_map]
    rfl
  refine Ends.bind (ends_foldlM (List.forall_mem_map.mpr fun packet hpacket sb h => ?_) _ h) fun sb h => ?_
  · exact ends_prepare _ _ _ sb _ true sep (hs.received_ne_nil packet hpacket) (hreceived packet hpacket) h
  · rw [hsent]
    exact ends_prepare _ _ _ sb identifier false sep hs.transmitted.ne_nil hs.transmitted.bytes h

/-- The text of a tree is found. -/
theorem exists_prepareTextOutput (settings : TextOutput.Settings) (hash : PacketGraph.HashOrder)
    (header : JavaString) (sep : Char) (hs : SmallGroups packets) :
    ∃ line, TextOutput.prepareTextOutput settings hash ⟨header, packets.map (textsWith (some [sep]))⟩ =
      .ok line := by
  obtain ⟨transmitted, hsent⟩ := hs.transmitted.exists_pattern settings hash sep
  obtain ⟨received, hanswered⟩ := hs.received.exists_pattern settings hash sep
  rw [← ConstantBytes.transmittedMessages_byteTree sep header] at hsent
  rw [← ConstantBytes.receivedMessages_byteTree sep header] at hanswered
  exact ⟨_, ByteSeparators.prepareTextOutput_patterns.mpr ⟨transmitted, received, hsent, hanswered, rfl⟩⟩

/-- The analysed graph ends exactly if no answer is missing. -/
theorem ends_printAnalyzedPackets_iff (env : Environment) (hsep : settings.bytesSeparator = some [sep])
    (ht : HoldsTree settings.headerLength h t header exchanges) (lines : List JavaString) :
    Ends (printAnalyzedPackets settings env t) (h, lines) ↔ ∀ e ∈ exchanges, e.answers ≠ [] := by
  constructor
  · intro hends
    by_contra hmissing
    exact not_ends_prepareAnalyzedPackets hsep ht hmissing lines hends.of_bind
  · intro hanswered
    have hfits := fits_byteExchanges hsep ht
    have hsmall := smallGroups_of_holdsTree ht hfits
    rw [printAnalyzedPackets, Ends, bind_ok (prepareAnalyzedPackets_ok hsep ht hanswered lines),
      groups_texts settings.bytesSeparator hfits, hsep]
    obtain ⟨text, h', houtput⟩ := ends_prepareOutput settings env
      (hexBinaryString (some [sep]) header) (identifier t.root) sep hsmall h
    exact ⟨(), _, bind_ok (lift_ok houtput lines)⟩

/-- So does the analysed text. -/
theorem ends_printAnalyzedPacketsAsText_iff (env : Environment) (hsep : settings.bytesSeparator = some [sep])
    (ht : HoldsTree settings.headerLength h t header exchanges) (lines : List JavaString) :
    Ends (printAnalyzedPacketsAsText settings env t) (h, lines) ↔ ∀ e ∈ exchanges, e.answers ≠ [] := by
  constructor
  · intro hends
    by_contra hmissing
    exact not_ends_prepareAnalyzedPackets hsep ht hmissing lines hends.of_bind
  · intro hanswered
    have hfits := fits_byteExchanges hsep ht
    have hsmall := smallGroups_of_holdsTree ht hfits
    rw [printAnalyzedPacketsAsText, Ends, bind_ok (prepareAnalyzedPackets_ok hsep ht hanswered lines),
      groups_texts settings.bytesSeparator hfits, hsep]
    obtain ⟨line, hline⟩ := exists_prepareTextOutput settings.analysis env.hash
      (hexBinaryString (some [sep]) header) sep hsmall
    exact ⟨(), _, bind_ok (lift_eq_ok hline _)⟩

end ApduPlay.AnalyzedOutputs
