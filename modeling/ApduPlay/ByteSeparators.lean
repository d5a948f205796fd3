import ApduPlay.MisreadColumns

/-!
# The separator between the bytes

The bytes of a message are turned into text with a separator between them, which
the settings choose. The text output goes through these texts in steps of three
characters, as if the separator were one of them. It shows the same as with
blanks if the separator is not seen in what was exchanged. This holds whatever was
exchanged for every white space character, and for no other separator.
-/

namespace ApduPlay.ByteSeparators

open JoinedWords KeyedLists LogParser OutputTrees TextOutput ConstantBytes TextColumns AnalyzedColumns
  TextPatterns WhiteSpaceTexts HiddenSeparators MisreadColumns WrappedText
open PacketGraph (HashOrder HasRoom anyOrder hexByte hexBinaryString hexBinaryString_concat
  hexBinaryString_injective length_hexBinaryString toHexBinaryString toHexBinaryString_ok
  toHexBinaryString_ok_iff)

/-- The bytes of a packet behind the header, with the nodes where they end. -/
structure ByteExchange where
  /-- What was sent. -/
  transmitted : List UInt8
  /-- Leaf of what was sent. -/
  transmittedLeafNode : ℤ
  /-- What was answered. -/
  received : List UInt8
  /-- Leaf of what was answered. -/
  receivedLeafNode : ℤ

/-- The texts of a packet. -/
def ByteExchange.texts (bytesSeparator : Option JavaString) (e : ByteExchange) : OutputM Exchange := do
  let transmittedStr ← toHexBinaryString bytesSeparator e.transmitted
  let receivedStr ← toHexBinaryString bytesSeparator e.received
  return ⟨transmittedStr, e.transmittedLeafNode, receivedStr, e.receivedLeafNode⟩

/-- `printAnalyzedPacketsAsText`, given the bytes of the header and of the packets. -/
def printAnalyzedPacketsAsText (settings : Settings) (hash : HashOrder) (bytesSeparator : Option JavaString)
    (header : List UInt8) (exchanges : List ByteExchange) : OutputM JavaString := do
  let headerStr ← toHexBinaryString bytesSeparator header
  let texts ← exchanges.mapM (ByteExchange.texts bytesSeparator)
  prepareTextOutput settings hash ⟨headerStr, (prepareAnalyzedPackets texts).groups⟩

/-- With a separator all is shown behind the header that is shown with blanks. -/
def ShowsSame (settings : Settings) (hash : HashOrder) (bytesSeparator : Option JavaString)
    (header : List UInt8) (exchanges : List ByteExchange) : Prop :=
  ∃ shown,
    printAnalyzedPacketsAsText settings hash bytesSeparator header exchanges =
        .ok (hexBinaryString bytesSeparator header ++ shown) ∧
      printAnalyzedPacketsAsText settings hash (some [' ']) header exchanges =
        .ok (hexBinaryString (some [' ']) header ++ shown)

/-- The texts of a packet have room. -/
def ByteExchange.Fits (bytesSeparator : Option JavaString) (e : ByteExchange) : Prop :=
  HasRoom bytesSeparator e.transmitted ∧ HasRoom bytesSeparator e.received

instance (bytesSeparator : Option JavaString) (e : ByteExchange) : Decidable (e.Fits bytesSeparator) :=
  inferInstanceAs (Decidable (_ ∧ _))

/-- All texts have room. -/
def Room (bytesSeparator : Option JavaString) (header : List UInt8) (exchanges : List ByteExchange) : Prop :=
  HasRoom bytesSeparator header ∧ ∀ e ∈ exchanges, e.Fits bytesSeparator

instance (bytesSeparator : Option JavaString) (header : List UInt8) (exchanges : List ByteExchange) :
    Decidable (Room bytesSeparator header exchanges) := inferInstanceAs (Decidable (_ ∧ _))

/-- A packet with room for its texts with blanks. -/
abbrev FittingExchange := {e : ByteExchange // e.Fits (some [' '])}

/-- Bytes that came once. -/
def newBytes (bytes : List UInt8) (identifier : ℤ) (hroom : HasRoom (some [' ']) bytes) : ByteMessage :=
  ⟨bytes, identifier, 1, Nat.one_pos, (Nat.mul_comm _ _).trans_le (Nat.le_of_lt hroom)⟩

/-- They came once more. -/
def bytesAgain (msg : ByteMessage) : ByteMessage :=
  ⟨msg.bytes, msg.identifier, msg.occurrences + 1, Nat.succ_pos _, msg.fits⟩

/-- Count the bytes of an answer. -/
def putReceived (e : FittingExchange) (msgs : List ByteMessage) : List ByteMessage :=
  put ByteMessage.bytes e.1.received (newBytes e.1.received e.1.receivedLeafNode e.2.2) bytesAgain msgs

/-- Count the bytes of a packet. -/
def putBytes (packets : List ByteGroup) (e : FittingExchange) : List ByteGroup :=
  put (fun packet => packet.transmitted.bytes) e.1.transmitted
    ⟨newBytes e.1.transmitted e.1.transmittedLeafNode e.2.1,
      [newBytes e.1.received e.1.receivedLeafNode e.2.2]⟩
    (fun packet => ⟨bytesAgain packet.transmitted, putReceived e packet.received⟩) packets

/-- The packets of a tree, grouped by their bytes. -/
def groupBytes (exchanges : List FittingExchange) : List ByteGroup := exchanges.foldl putBytes []

/-- All that was sent. -/
def sent {exchanges : List ByteExchange} (hfits : ∀ e ∈ exchanges, e.Fits (some [' '])) : List ByteMessage :=
  transmittedBytes (groupBytes (exchanges.attachWith _ hfits))

/-- All that was answered. -/
def answered {exchanges : List ByteExchange} (hfits : ∀ e ∈ exchanges, e.Fits (some [' '])) :
    List ByteMessage :=
  receivedBytes (groupBytes (exchanges.attachWith _ hfits))

/-- With blanks the output completes. -/
def Complete (settings : Settings) (header : List UInt8) (exchanges : List ByteExchange) : Prop :=
  ∃ hroom : Room (some [' ']) header exchanges,
    Analyzed settings (sent hroom.2) ∧ Analyzed settings (answered hroom.2)

/-- The separator is not seen in what was sent nor in what was answered. -/
def UnseenInAll (settings : Settings) (bytesSeparator : Option JavaString) (exchanges : List ByteExchange) :
    Prop :=
  ∀ hfits : ∀ e ∈ exchanges, e.Fits (some [' ']),
    Unseen settings bytesSeparator (sent hfits) ∧ Unseen settings bytesSeparator (answered hfits)

/-- The packet, with some separator between the bytes. -/
def textsWith (bytesSeparator : Option JavaString) (packet : ByteGroup) : Group :=
  ⟨textWith bytesSeparator packet.transmitted, packet.received.map (textWith bytesSeparator)⟩

/-- The texts of a packet that have room. -/
def ByteExchange.allTexts (bytesSeparator : Option JavaString) (e : ByteExchange) : Exchange :=
  ⟨hexBinaryString bytesSeparator e.transmitted, e.transmittedLeafNode,
    hexBinaryString bytesSeparator e.received, e.receivedLeafNode⟩

variable {settings : Settings} {hash : HashOrder} {bytesSeparator : Option JavaString} {header : List UInt8}
  {exchanges : List ByteExchange} {tree : OutputTree} {line : JavaString}

/-- There are texts if and only if they have room. -/
theorem texts_ok_iff {e : ByteExchange} {texts : Exchange} :
    e.texts bytesSeparator = .ok texts ↔ e.Fits bytesSeparator ∧ e.allTexts bytesSeparator = texts := by
  constructor
  · intro h
    obtain ⟨transmittedStr, hsent, hrest⟩ := of_bind_ok h
    obtain ⟨receivedStr, hanswer, htexts⟩ := of_bind_ok hrest
    have hroom := toHexBinaryString_ok_iff.mp ⟨_, hsent⟩
    have hroom' := toHexBinaryString_ok_iff.mp ⟨_, hanswer⟩
    rw [toHexBinaryString_ok hroom] at hsent
    rw [toHexBinaryString_ok hroom'] at hanswer
    cases hsent
    cases hanswer
    exact ⟨⟨hroom, hroom'⟩, Except.ok.inj htexts⟩
  · rintro ⟨⟨hroom, hroom'⟩, rfl⟩
    exact (bind_ok (toHexBinaryString_ok hroom) _).trans (bind_ok (toHexBinaryString_ok hroom') _)

/-- The same for all packets. -/
theorem mapM_texts_ok_iff {texts : List Exchange} :
    exchanges.mapM (ByteExchange.texts bytesSeparator) = .ok texts ↔
      (∀ e ∈ exchanges, e.Fits bytesSeparator) ∧
        exchanges.map (ByteExchange.allTexts bytesSeparator) = texts := by
  induction exchanges generalizing texts with
  | nil => exact ⟨fun h => ⟨List.forall_mem_nil _, Except.ok.inj h⟩, fun ⟨_, h⟩ => congrArg Except.ok h⟩
  | cons e exchanges ih =>
    rw [List.mapM_cons]
    constructor
    · intro h
      obtain ⟨first, hfirst, hrest⟩ := of_bind_ok h
      obtain ⟨rest, hall, htexts⟩ := of_bind_ok hrest
      obtain ⟨hfits, rfl⟩ := texts_ok_iff.mp hfirst
      obtain ⟨hfitsAll, rfl⟩ := ih.mp hall
      exact ⟨List.forall_mem_cons.mpr ⟨hfits, hfitsAll⟩, Except.ok.inj htexts⟩
    · rintro ⟨hfits, rfl⟩
      obtain ⟨hfirst, hall⟩ := List.forall_mem_cons.mp hfits
      exact (bind_ok (texts_ok_iff.mpr ⟨hfirst, rfl⟩) _).trans (bind_ok (ih.mpr ⟨hall, rfl⟩) _)

/-- Both patterns are shown behind the header. -/
theorem prepareTextOutput_patterns : prepareTextOutput settings hash tree = .ok line ↔
    ∃ transmitted received, pattern settings hash tree.transmittedMessages = .ok transmitted ∧
      pattern settings hash tree.receivedMessages = .ok received ∧
      tree.header ++ (":\x7b".toList ++ transmitted ++ "\x7d\x7b".toList ++ received ++ "\x7d".toList) =
        line := by
  constructor
  · intro hrun
    obtain ⟨prefixes, hprefixes, hrun⟩ := of_bind_ok hrun
    obtain ⟨receivedPrefixes, hreceivedPrefixes, hrun⟩ := of_bind_ok hrun
    obtain ⟨first, hfirst, hrun⟩ := of_bind_ok hrun
    obtain ⟨firstReceived, hfirstReceived, hrun⟩ := of_bind_ok hrun
    obtain ⟨transmitted, htransmitted, hrun⟩ := of_bind_ok hrun
    obtain ⟨received, hreceived, hrun⟩ := of_bind_ok hrun
    refine ⟨transmitted, received, ?_, ?_, ?_⟩
    · exact (bind_ok hprefixes _).trans ((bind_ok hfirst _).trans htransmitted)
    · exact (bind_ok hreceivedPrefixes _).trans ((bind_ok hfirstReceived _).trans hreceived)
    · rw [← Except.ok.inj hrun]
      simp only [List.append_assoc]
  · rintro ⟨transmitted, received, hsent, hanswer, rfl⟩
    obtain ⟨prefixes, hprefixes, hsent⟩ := of_bind_ok hsent
    obtain ⟨first, hfirst, htransmitted⟩ := of_bind_ok hsent
    obtain ⟨receivedPrefixes, hreceivedPrefixes, hanswer⟩ := of_bind_ok hanswer
    obtain ⟨firstReceived, hfirstReceived, hreceived⟩ := of_bind_ok hanswer
    refine (bind_ok hprefixes _).trans ((bind_ok hreceivedPrefixes _).trans ((bind_ok hfirst _).trans
      ((bind_ok hfirstReceived _).trans ((bind_ok htransmitted _).trans ((bind_ok hreceived _).trans ?_)))))
    simp only [List.append_assoc]
    rfl

/-- Different bytes have different texts. -/
theorem message_textWith_iff (bytesSeparator : Option JavaString) (msg : ByteMessage) (bytes : List UInt8) :
    msg.bytes = bytes ↔ (textWith bytesSeparator msg).message = hexBinaryString bytesSeparator bytes :=
  (hexBinaryString_injective bytesSeparator).eq_iff.symm

theorem textWith_again (bytesSeparator : Option JavaString) (msg : ByteMessage) :
    textWith bytesSeparator (bytesAgain msg) = (textWith bytesSeparator msg).again := by
  rw [textWith, bytesAgain, OutputMessage.again, textWith, Nat.cast_succ]

/-- The texts are grouped as the bytes are. -/
theorem map_putBytes (bytesSeparator : Option JavaString) (packets : List ByteGroup) (e : FittingExchange) :
    (putBytes packets e).map (textsWith bytesSeparator) =
      putExchange (e.1.allTexts bytesSeparator) (packets.map (textsWith bytesSeparator)) := by
  refine put_map (fun packet => message_textWith_iff bytesSeparator packet.transmitted _)
    (fun packet => ?_) rfl
  have hreceived : (putReceived e packet.received).map (textWith bytesSeparator) =
      putAnswer (e.1.allTexts bytesSeparator) (packet.received.map (textWith bytesSeparator)) :=
    put_map (fun msg => message_textWith_iff bytesSeparator msg _)
      (fun msg => textWith_again bytesSeparator msg) rfl
  rw [textsWith, hreceived, textWith_again]
  rfl

/-- The last packet is counted behind the others. -/
theorem groupBytes_concat (fitting : List FittingExchange) (e : FittingExchange) :
    groupBytes (fitting ++ [e]) = putBytes (groupBytes fitting) e :=
  List.foldl_concat _ _ _ _

/-- The packets of the tree are those of the bytes. -/
theorem groups_texts (bytesSeparator : Option JavaString) (hfits : ∀ e ∈ exchanges, e.Fits (some [' '])) :
    (prepareAnalyzedPackets (exchanges.map (ByteExchange.allTexts bytesSeparator))).groups =
      (groupBytes (exchanges.attachWith _ hfits)).map (textsWith bytesSeparator) := by
  have hfold (fitting : List FittingExchange) :
      (fitting.map fun e => e.1.allTexts bytesSeparator).foldl (fun groups e => putExchange e groups) [] =
        (groupBytes fitting).map (textsWith bytesSeparator) := by
    rw [List.foldl_map]
    induction fitting using List.reverseRecOn with
    | nil => rfl
    | append_singleton fitting e ih =>
      rw [List.foldl_concat, groupBytes_concat, ih, map_putBytes]
  have hsame : exchanges.map (ByteExchange.allTexts bytesSeparator) =
      (exchanges.attachWith _ hfits).map fun e => e.1.allTexts bytesSeparator := by
    rw [List.map_attachWith]
    simp
  rw [(groups_prepareAnalyzedPackets _).1, hsame, hfold]

/-- Something was answered in every packet. -/
theorem received_ne_nil (fitting : List FittingExchange) :
    ∀ packet ∈ groupBytes fitting, packet.received ≠ [] := by
  induction fitting using List.reverseRecOn with
  | nil => exact List.forall_mem_nil _
  | append_singleton fitting e ih =>
    intro packet hpacket
    rw [groupBytes_concat] at hpacket
    rcases mem_put hpacket with hold | ⟨old, -, rfl⟩ | rfl
    · exact ih packet hold
    · exact put_ne_nil _ _ _ _ _
    · exact List.cons_ne_nil _ _

theorem groupBytes_ne_nil {fitting : List FittingExchange} (hne : fitting ≠ []) :
    groupBytes fitting ≠ [] := by
  obtain ⟨fitting, e, rfl⟩ := List.eq_nil_or_concat fitting |>.resolve_left hne
  rw [List.concat_eq_append, groupBytes_concat]
  exact put_ne_nil _ _ _ _ _

/-- If there is a packet, something was sent and something was answered. -/
theorem messages_ne_nil (hne : exchanges ≠ []) (hfits : ∀ e ∈ exchanges, e.Fits (some [' '])) :
    sent hfits ≠ [] ∧ answered hfits ≠ [] := by
  have hpackets : groupBytes (exchanges.attachWith _ hfits) ≠ [] :=
    groupBytes_ne_nil fun hnil => hne (List.attachWith_eq_nil_iff.mp hnil)
  refine ⟨fun hnil => hpackets (List.map_eq_nil_iff.mp hnil), fun hnil => ?_⟩
  obtain ⟨packet, hpacket⟩ := List.exists_mem_of_ne_nil _ hpackets
  exact received_ne_nil _ packet hpacket (List.flatMap_eq_nil_iff.mp hnil packet hpacket)

/-- The output completes if the texts have room and there are the patterns. -/
theorem print_iff {shown : JavaString} (hfits : ∀ e ∈ exchanges, e.Fits (some [' '])) :
    printAnalyzedPacketsAsText settings hash bytesSeparator header exchanges =
        .ok (hexBinaryString bytesSeparator header ++ shown) ↔
      Room bytesSeparator header exchanges ∧ ∃ transmitted received,
        pattern settings hash ((sent hfits).map (textWith bytesSeparator)) = .ok transmitted ∧
        pattern settings hash ((answered hfits).map (textWith bytesSeparator)) = .ok received ∧
        ":\x7b".toList ++ transmitted ++ "\x7d\x7b".toList ++ received ++ "\x7d".toList = shown := by
  have hsent : OutputTree.transmittedMessages ⟨hexBinaryString bytesSeparator header,
      (prepareAnalyzedPackets (exchanges.map (ByteExchange.allTexts bytesSeparator))).groups⟩ =
        (sent hfits).map (textWith bytesSeparator) := by
    rw [OutputTree.transmittedMessages, groups_texts bytesSeparator hfits, sent, transmittedBytes,
      List.map_map, List.map_map]
    rfl
  have hanswered : OutputTree.receivedMessages ⟨hexBinaryString bytesSeparator header,
      (prepareAnalyzedPackets (exchanges.map (ByteExchange.allTexts bytesSeparator))).groups⟩ =
        (answered hfits).map (textWith bytesSeparator) := by
    rw [OutputTree.receivedMessages, groups_texts bytesSeparator hfits, answered, receivedBytes,
      List.flatMap_map, List.map_flatMap]
    rfl
  rw [← hsent, ← hanswered]
  constructor
  · intro h
    obtain ⟨headerStr, hheader, hrest⟩ := of_bind_ok h
    obtain ⟨texts, htexts, hrun⟩ := of_bind_ok hrest
    have hroom := toHexBinaryString_ok_iff.mp ⟨_, hheader⟩
    rw [toHexBinaryString_ok hroom] at hheader
    cases hheader
    obtain ⟨hall, rfl⟩ := mapM_texts_ok_iff.mp htexts
    obtain ⟨transmitted, received, htransmitted, hreceived, hline⟩ := prepareTextOutput_patterns.mp hrun
    exact ⟨⟨hroom, hall⟩, transmitted, received, htransmitted, hreceived, List.append_cancel_left hline⟩
  · rintro ⟨⟨hroom, hall⟩, transmitted, received, htransmitted, hreceived, rfl⟩
    exact (bind_ok (toHexBinaryString_ok hroom) _).trans
      ((bind_ok (mapM_texts_ok_iff.mpr ⟨hall, rfl⟩) _).trans
      (prepareTextOutput_patterns.mpr ⟨transmitted, received, htransmitted, hreceived, rfl⟩))

/-- The texts have room if the output completes. -/
theorem room_of_print (h : printAnalyzedPacketsAsText settings hash bytesSeparator header
    exchanges = .ok line) :
    Room bytesSeparator header exchanges := by
  obtain ⟨headerStr, hheader, hrest⟩ := of_bind_ok h
  obtain ⟨texts, htexts, -⟩ := of_bind_ok hrest
  exact ⟨toHexBinaryString_ok_iff.mp ⟨_, hheader⟩, (mapM_texts_ok_iff.mp htexts).1⟩

/-- There is the pattern of messages with blanks if and only if their columns can be analysed. -/
theorem exists_pattern_iff {msgs : List ByteMessage} (hash : HashOrder) (hne : msgs ≠ []) :
    (∃ text, pattern settings hash (msgs.map (textWith (some [' ']))) = .ok text) ↔
      Analyzed settings msgs := by
  obtain ⟨first, rest, hcons⟩ := List.exists_cons_of_ne_nil hne
  have hfirst : msgs.head? = some first := List.head?_eq_some_iff.mpr ⟨rest, hcons⟩
  exact (exists_congr fun text => pattern_character_iff hash ' ' hfirst).trans
    ⟨fun ⟨_, h, _⟩ => h, fun h => ⟨_, h, rfl⟩⟩

/-- With a separator that is not seen the same is shown as with blanks if and only if
the texts have room and the output with blanks completes. -/
theorem showsSame_of_unseen (hash : HashOrder) (header : List UInt8) (hne : exchanges ≠ [])
    (hunseen : UnseenInAll settings bytesSeparator exchanges) :
    ShowsSame settings hash bytesSeparator header exchanges ↔
      Room bytesSeparator header exchanges ∧ Complete settings header exchanges := by
  constructor
  · rintro ⟨shown, hrun, hblank⟩
    have hroom := room_of_print hblank
    obtain ⟨hsent, hanswered⟩ := messages_ne_nil hne hroom.2
    obtain ⟨-, transmitted, received, htransmitted, hreceived, -⟩ := (print_iff hroom.2).mp hblank
    exact ⟨room_of_print hrun, hroom, (exists_pattern_iff hash hsent).mp ⟨_, htransmitted⟩,
      (exists_pattern_iff hash hanswered).mp ⟨_, hreceived⟩⟩
  · rintro ⟨hroom, hblanks, hsentAnalyzed, hansweredAnalyzed⟩
    obtain ⟨hsent, hanswered⟩ := messages_ne_nil hne hblanks.2
    obtain ⟨hsentUnseen, hansweredUnseen⟩ := hunseen hblanks.2
    obtain ⟨transmitted, htransmitted⟩ := (exists_pattern_iff hash hsent).mpr hsentAnalyzed
    obtain ⟨received, hreceived⟩ := (exists_pattern_iff hash hanswered).mpr hansweredAnalyzed
    refine ⟨_, (print_iff hblanks.2).mpr ⟨hroom, transmitted, received, ?_, ?_, rfl⟩,
      (print_iff hblanks.2).mpr ⟨hblanks, transmitted, received, htransmitted, hreceived, rfl⟩⟩
    · exact (pattern_unseen hash hsent hsentUnseen).mpr htransmitted
    · exact (pattern_unseen hash hanswered hansweredUnseen).mpr hreceived

/-- White space is not seen anywhere. -/
theorem unseenInAll_of_isWhiteSpace {c : Char} (hc : isWhiteSpace c = true) (settings : Settings)
    (exchanges : List ByteExchange) : UnseenInAll settings (some [c]) exchanges := fun _ =>
  ⟨Or.inr (Or.inl ⟨c, rfl, Or.inl hc⟩), Or.inr (Or.inl ⟨c, rfl, Or.inl hc⟩)⟩

/-- Two outputs that show the same show the same of what was sent. -/
theorem ShowsSame.patterns (h : ShowsSame settings hash bytesSeparator header exchanges)
    (hfits : ∀ e ∈ exchanges, e.Fits (some [' '])) :
    Room bytesSeparator header exchanges ∧
      ∃ text text' rest rest', text ++ '}' :: rest = text' ++ '}' :: rest' ∧
        pattern settings hash ((sent hfits).map (textWith bytesSeparator)) = .ok text ∧
        pattern settings hash ((sent hfits).map (textWith (some [' ']))) = .ok text' := by
  obtain ⟨shown, hrun, hblank⟩ := h
  obtain ⟨hroom, text, received, htext, -, hshown⟩ := (print_iff hfits).mp hrun
  obtain ⟨-, text', received', htext', -, hshown'⟩ := (print_iff hfits).mp hblank
  refine ⟨hroom, text, text', '{' :: (received ++ ['}']), '{' :: (received' ++ ['}']), ?_, htext, htext'⟩
  have hsame := hshown.trans hshown'.symm
  simp only [List.append_assoc] at hsame
  exact List.append_cancel_left hsame

/-- Texts up to a brace are the same if all is. -/
theorem text_eq_of_brace {text text' rest rest' : JavaString} (htext : '}' ∉ text) (htext' : '}' ∉ text')
    (h : text ++ '}' :: rest = text' ++ '}' :: rest') : text = text' := by
  have hbefore {text rest : JavaString} (htext : '}' ∉ text) :
      (text ++ '}' :: rest).takeWhile (· != '}') = text := by
    have hall : ∀ ch ∈ text, (ch != '}') = true := fun ch hch => bne_iff_ne.mpr fun heq => htext (heq ▸ hch)
    rw [List.takeWhile_append_of_pos hall]
    simp
  rw [← hbefore htext, h, hbefore htext']

/-- Two bytes. -/
def twoZeros : ByteExchange := ⟨[0x00, 0x00], 0, [], 1⟩

/-- The same and one more. -/
def threeZeros : ByteExchange := ⟨[0x00, 0x00, 0x00], 2, [], 3⟩

/-- With a separator of a wrong length two bytes cannot be compared with three. -/
theorem not_showsSame_zeros (settings : Settings) (hash : HashOrder)
    (hmod : (bytesSeparator.getD []).length % 3 ≠ 1) (header : List UInt8) :
    ¬ ShowsSame settings hash bytesSeparator header [twoZeros, threeZeros] := by
  intro h
  obtain ⟨-, text, -, -, -, -, htext, -⟩ := h.patterns (by decide)
  have htwo : hexBinaryString bytesSeparator [0x00, 0x00] =
      hexByte 0x00 ++ bytesSeparator.getD [] ++ hexByte 0x00 := by
    simpa using hexBinaryString_concat bytesSeparator [0x00] 0x00
  have hthree : hexBinaryString bytesSeparator [0x00, 0x00, 0x00] =
      hexBinaryString bytesSeparator [0x00, 0x00] ++ (bytesSeparator.getD [] ++ hexByte 0x00) := by
    rw [htwo]
    simpa using hexBinaryString_concat bytesSeparator [0x00, 0x00] 0x00
  have hlength : (hexBinaryString bytesSeparator [0x00, 0x00]).length =
      (bytesSeparator.getD []).length + 4 := by
    rw [htwo, List.length_append, List.length_append, Nat.add_right_comm, Nat.add_comm]
    rfl
  have hlonger : (hexBinaryString bytesSeparator [0x00, 0x00]).length <
      (hexBinaryString bytesSeparator [0x00, 0x00, 0x00]).length := by
    rw [hthree, List.length_append]
    simp [hexByte]
  have hthrows : longestCommonPrefix settings [hexBinaryString bytesSeparator [0x00, 0x00],
      hexBinaryString bytesSeparator [0x00, 0x00, 0x00]] = .error .stringIndexOutOfBounds := by
    refine longestCommonPrefix_beginning settings (hthree ▸ List.prefix_append _ _) ?_ hlonger (by omega)
    exact List.ne_nil_of_length_pos (by omega)
  obtain ⟨prefixes, hprefixes, -⟩ := of_bind_ok htext
  obtain ⟨left, hleft, -⟩ := of_bind_ok hprefixes
  cases hleft.symm.trans hthrows

/-- A byte. -/
def oneZero : ByteExchange := ⟨[0x00], 0, [], 1⟩

/-- Two others. -/
def twoOnes : ByteExchange := ⟨[0x01, 0x01], 2, [], 3⟩

/-- With a separator of four characters, or of three more, there are more columns. -/
theorem not_showsSame_ones (hash : HashOrder) (hmod : (bytesSeparator.getD []).length % 3 = 1)
    (hone : (bytesSeparator.getD []).length ≠ 1) (header : List UInt8) :
    ¬ ShowsSame defaultSettings hash bytesSeparator header [oneZero, twoOnes] := by
  intro h
  obtain ⟨hroom, text, text', rest, rest', hshown, htext, htext'⟩ := h.patterns (by decide)
  have hfits : 2 * ((bytesSeparator.getD []).length + 2) < 2 ^ 31 :=
    (hroom.2 twoOnes (List.mem_cons_of_mem _ List.mem_cons_self)).1
  have hmessages (bytesSeparator : Option JavaString) :
      (sent (by decide : ∀ e ∈ [oneZero, twoOnes], e.Fits (some [' ']))).map (textWith bytesSeparator) =
        pairTexts (bytesSeparator.getD [] ++ ['0', '1']) := by
    have htwo : hexBinaryString bytesSeparator [0x01, 0x01] =
        '0' :: '1' :: (bytesSeparator.getD [] ++ ['0', '1']) := by
      refine (hexBinaryString_concat bytesSeparator [0x01] 0x01).trans ?_
      rw [List.flatMap_singleton, List.append_assoc]
      rfl
    have hsingle : hexBinaryString bytesSeparator [0x00] = ['0', '0'] :=
      hexBinaryString_concat bytesSeparator [] 0x00
    rw [pairTexts, ← htwo, ← hsingle]
    rfl
  have hpattern {bytesSeparator : Option JavaString} {q : ℕ}
      (hfits : 2 * ((bytesSeparator.getD []).length + 2) < 2 ^ 31)
      (hlen : (bytesSeparator.getD []).length = 3 * q + 1) :
      pattern defaultSettings hash (pairTexts (bytesSeparator.getD [] ++ ['0', '1'])) =
        .ok (joined ';' (List.replicate (q + 2) ['x'])) := by
    have htail : (bytesSeparator.getD [] ++ ['0', '1']).length = (bytesSeparator.getD []).length + 2 :=
      List.length_append
    exact pattern_pair hash (by omega) (by omega) rfl
  have hcolumns (q : ℕ) : ∀ w ∈ List.replicate (q + 2) ['x'], IsColumn w := fun w hw =>
    List.eq_of_mem_replicate hw ▸ isColumn_singleton (by decide)
  have hbrace (q : ℕ) : '}' ∉ joined ';' (List.replicate (q + 2) ['x']) := fun hmem =>
    forall_mem_joined (P := (· ≠ '}')) (by decide)
      (fun w hw ch hch => ((hcolumns q w hw).2 ch hch).2.2) _ hmem rfl
  obtain ⟨q, hq⟩ : ∃ q, (bytesSeparator.getD []).length = 3 * q + 1 :=
    ⟨(bytesSeparator.getD []).length / 3, by omega⟩
  rw [hmessages, hpattern hfits hq] at htext
  rw [hmessages, hpattern (q := 0) (by decide) rfl] at htext'
  cases htext
  cases htext'
  have hsame := congrArg columns (text_eq_of_brace (hbrace q) (hbrace 0) hshown)
  rw [columns_joined (hcolumns q), columns_joined (hcolumns 0)] at hsame
  have hlength := congrArg List.length hsame
  rw [List.length_replicate, List.length_replicate] at hlength
  omega

/-- The settings that are used by default, with the columns numbered. -/
def numberedSettings : Settings :=
  ⟨0, false, { defaultTextOutputSettings with dataByteIndexIncluded := true }⟩

/-- Two bytes that are not separated by white space are shown as one. -/
theorem not_showsSame_character (hash : HashOrder) {c : Char} (hspace : isWhiteSpace c = false)
    (header : List UInt8) : ¬ ShowsSame numberedSettings hash (some [c]) header [twoZeros] := by
  intro h
  obtain ⟨-, text, text', rest, rest', hshown, htext, htext'⟩ := h.patterns (by decide)
  have hpattern (c : Char) : pattern numberedSettings hash
      ((sent (by decide : ∀ e ∈ [twoZeros], e.Fits (some [' ']))).map (textWith (some [c]))) =
        .ok (splitAndJoinString numberedSettings.textOutputSettings ['0', '0', c, '0', '0']) := by
    have hfive : ['0', '0', c, '0', '0'].length = 5 := rfl
    have hwhole : ∀ msg ∈ (sent (by decide : ∀ e ∈ [twoZeros], e.Fits (some [' ']))).map
      (textWith (some [c])),
        msg.message = ['0', '0', c, '0', '0'] := List.forall_mem_singleton.mpr rfl
    refine (pattern_whole hash (List.cons_ne_nil _ _) (by rw [hfive]; exact Nat.succ_pos 4) hwhole
      (Or.inl (by rw [hfive]; decide)) (by rw [hfive]; decide)).trans ?_
    exact congrArg Except.ok (List.append_nil _)
  have hvalue : splitAndJoinString numberedSettings.textOutputSettings ['0', '0', c, '0', '0'] =
      "0000: 00".toList ++ [c, '0', '0'] := by
    have htrim : trim ['0', '0', c, '0', '0'] = ['0', '0', c, '0', '0'] := rfl
    have hnone : ['0', '0', c, '0', '0'].any isWhiteSpace = false := by
      simp only [List.any_cons, List.any_nil, hspace]
      rfl
    rw [splitAndJoinString, htrim, splitWhiteSpace, hnone]
    rfl
  rw [hpattern, hvalue] at htext
  rw [hpattern] at htext'
  cases htext
  cases htext'
  have hblank : splitAndJoinString numberedSettings.textOutputSettings ['0', '0', ' ', '0', '0'] =
      "0000: 00;0001: 00".toList := by decide
  rw [hblank] at hshown
  simp at hshown

end ApduPlay.ByteSeparators
