import ApduPlay.StreamColors
import ApduPlay.TextColumns

/-!
# The labels of messages

A message is shown in lines of a width. Where it has more than the bytes that
all messages begin and end with, the bytes between these are shown in a colour,
and the three pieces are wrapped one after the other. Together they are wrapped
like the whole message, unless a sum of indices wraps around.
-/

namespace ApduPlay.WrappedLabels

open CheckedSteps JoinedWords LineWrapping LogParser OutputTrees StreamColors WrappedText
open ConstantBytes TextColumns TextOutput
open PacketNode (Heap JavaM Node NodeId identifier newNode newNode_ok)
open PacketGraph (Statement decimal hexByte hexBinaryString)

/-- The tag before the bytes with a colour. -/
def fontTag (color : JavaString) : JavaString := "<font color=\"".toList ++ color ++ "\">".toList

/-- The tag behind them. -/
def fontEndTag : JavaString := "</font>".toList

/-- The width of a label, which is tripled as an `int`. -/
def labelWidth (settings : GraphSettings) : ℤ := wrapInt (settings.wrapAfter * 3)

/-- The label of a message in `prepare`, with the lengths of what all messages
begin and end with. -/
def messageLabel (settings : GraphSettings) (prefixes : ℕ × ℕ) (color : JavaString) (message : JavaString) :
    OutputM JavaString := do
  let msgLength := message.length
  let wrapAfter := labelWidth settings
  if wrapInt (prefixes.1 + prefixes.2 + 1) ≥ msgLength then
    return (← wrapText message wrapAfter (-1)).1
  let left ← wrapText (← substring message 0 prefixes.1) wrapAfter (-1)
  let mid ← wrapText (← substring message prefixes.1 (msgLength - prefixes.2)) wrapAfter left.2
  let right ← wrapText (← substring message (msgLength - prefixes.2) msgLength) wrapAfter mid.2
  return left.1 ++ (fontTag color ++ mid.1 ++ fontEndTag) ++ right.1

/-- The lines of a message: its node, and the edge from what it belongs to. -/
def messageLines (lineSeparator : JavaString) (parentIdentifier nodeIdentifier : ℤ) (label : JavaString) :
    JavaString :=
  (Statement.node nodeIdentifier label).text ++ lineSeparator ++ "\t".toList ++ decimal parentIdentifier ++
    " -> ".toList ++ decimal nodeIdentifier ++ ";".toList ++ lineSeparator

/-- The identifier of a new node, or the one of the message. The data of the new node,
null, are never read. -/
def messageIdentifier (generateIdentifier : Bool) (msg : OutputMessage) : JavaM ℤ :=
  if generateIdentifier then do return identifier (← newNode []) else pure msg.identifier

/-- One message of `prepare`, added to the text. -/
def prepareMessage (settings : GraphSettings) (lineSeparator : JavaString) (prefixes : ℕ × ℕ)
    (color : JavaString) (parentIdentifier : ℤ) (generateIdentifier : Bool) (sb : JavaString)
    (msg : OutputMessage) : JavaM JavaString := do
  let nodeIdentifier ← messageIdentifier generateIdentifier msg
  let label ← messageLabel settings prefixes color msg.message
  return sb ++ messageLines lineSeparator parentIdentifier nodeIdentifier label

/-- `prepare` -/
def prepare (settings : Settings) (graphSettings : GraphSettings) (lineSeparator : JavaString)
    (sb : JavaString) (parentIdentifier : ℤ) (msgs : List OutputMessage) (generateIdentifier : Bool) :
    JavaM JavaString := do
  let prefixes ← longestCommonPrefixes settings msgs
  let color ← getColorForMidStream graphSettings msgs prefixes.1 prefixes.2
  msgs.foldlM
    (prepareMessage graphSettings lineSeparator prefixes color parentIdentifier generateIdentifier) sb

/-- A text without tags, given how many characters of a tag are to be skipped. -/
def removeTags (tags : List JavaString) : ℕ → JavaString → JavaString
  | _, [] => []
  | skipped + 1, _ :: text => removeTags tags skipped text
  | 0, c :: text =>
    match tags.find? fun tag => tag.isPrefixOf (c :: text) with
    | some tag => removeTags tags (tag.length - 1) text
    | none => c :: removeTags tags 0 text

/-- A label without the font tags. -/
def removeFontTags (color label : JavaString) : JavaString := removeTags [fontTag color, fontEndTag] 0 label

variable {color text a b : JavaString} {tags : List JavaString}

/-- Characters of a tag are passed over. -/
theorem removeTags_skip (tags : List JavaString) (a b : JavaString) :
    removeTags tags a.length (a ++ b) = removeTags tags 0 b := by
  induction a with
  | nil => rfl
  | cons c a ih => exact ih

/-- No tag begins here. -/
theorem removeTags_keep {c : Char} (h : ∀ tag ∈ tags, ¬ tag.isPrefixOf (c :: text)) :
    removeTags tags 0 (c :: text) = c :: removeTags tags 0 text := by
  rw [removeTags, List.find?_eq_none.mpr h]

theorem removeFontTags_nil (color : JavaString) : removeFontTags color [] = [] := rfl

/-- A character that begins no tag stays. -/
theorem removeFontTags_cons {c : Char} (hc : c ≠ '<') (color text : JavaString) :
    removeFontTags color (c :: text) = c :: removeFontTags color text := by
  have hne : ('<' == c) = false := beq_eq_false_iff_ne.mpr (Ne.symm hc)
  refine removeTags_keep fun tag htag => ?_
  rcases List.mem_cons.mp htag with rfl | htag
  · exact ne_true_of_eq_false (congrArg (· && _) hne)
  · rw [List.mem_singleton.mp htag]
    exact ne_true_of_eq_false (congrArg (· && _) hne)

/-- A line break is no font tag. -/
theorem removeFontTags_lineBreak (color text : JavaString) :
    removeFontTags color (lineBreak ++ text) = lineBreak ++ removeFontTags color text := by
  have hbreak (rest : JavaString) : lineBreak ++ rest = '<' :: ('b' :: 'r' :: '/' :: '>' :: rest) := rfl
  have hfirst (rest : JavaString) :
      removeFontTags color ('<' :: 'b' :: rest) = '<' :: removeFontTags color ('b' :: rest) :=
    removeTags_keep fun tag htag => by
      rcases List.mem_cons.mp htag with rfl | htag
      · exact Bool.false_ne_true
      · rw [List.mem_singleton.mp htag]
        exact Bool.false_ne_true
  rw [hbreak, hbreak, hfirst, removeFontTags_cons (by decide), removeFontTags_cons (by decide),
    removeFontTags_cons (by decide), removeFontTags_cons (by decide)]

/-- A tag is dropped. -/
theorem removeFontTags_of_find {tag : JavaString} (htag : tag ≠ [])
    (hfind : [fontTag color, fontEndTag].find? (fun tag' => tag'.isPrefixOf (tag ++ text)) = some tag) :
    removeFontTags color (tag ++ text) = removeFontTags color text := by
  obtain ⟨c, tag, rfl⟩ := List.exists_cons_of_ne_nil htag
  rw [removeFontTags, List.cons_append, removeTags]
  rw [List.cons_append] at hfind
  rw [hfind]
  exact removeTags_skip _ tag text

/-- A tag of the colour is removed. -/
theorem removeFontTags_fontTag (color text : JavaString) :
    removeFontTags color (fontTag color ++ text) = removeFontTags color text := by
  refine removeFontTags_of_find (List.cons_ne_nil _ _) (List.find?_cons_of_pos ?_)
  exact List.isPrefixOf_iff_prefix.mpr (List.prefix_append _ _)

/-- So is its end. -/
theorem removeFontTags_fontEndTag (color text : JavaString) :
    removeFontTags color (fontEndTag ++ text) = removeFontTags color text := by
  refine removeFontTags_of_find (List.cons_ne_nil _ _) ?_
  rw [List.find?_cons_of_neg Bool.false_ne_true]
  exact List.find?_cons_of_pos (List.isPrefixOf_iff_prefix.mpr (List.prefix_append _ _))

/-- Wrapping a text without tags makes none. -/
theorem removeFontTags_wrap (ha : '<' ∉ a) (width room : ℕ) (color text : JavaString) :
    removeFontTags color ((wrap width lineBreak room a).1 ++ text) =
      (wrap width lineBreak room a).1 ++ removeFontTags color text := by
  induction a generalizing room with
  | nil => rw [wrap_nil, List.nil_append, List.nil_append]
  | cons c a ih =>
    obtain ⟨hc, ha⟩ := List.ne_and_not_mem_of_not_mem_cons ha
    cases room with
    | zero =>
      rw [wrap, List.append_assoc, removeFontTags_lineBreak, List.cons_append,
        removeFontTags_cons (Ne.symm hc), ih ha, List.append_assoc, List.cons_append]
    | succ room => rw [wrap, List.cons_append, removeFontTags_cons (Ne.symm hc), ih ha, List.cons_append]

/-- Text without tags stays. -/
theorem removeFontTags_append (ha : '<' ∉ a) (color text : JavaString) :
    removeFontTags color (a ++ text) = a ++ removeFontTags color text := by
  induction a with
  | nil => rfl
  | cons c a ih =>
    obtain ⟨hc, ha⟩ := List.ne_and_not_mem_of_not_mem_cons ha
    rw [List.cons_append, removeFontTags_cons (Ne.symm hc), ih ha, List.cons_append]

/-- So does text that has been wrapped. -/
theorem removeFontTags_wrapped (ha : '<' ∉ a) (wrapAfter firstWrap : ℤ) (color text : JavaString) :
    removeFontTags color ((wrapped a wrapAfter firstWrap).1 ++ text) =
      (wrapped a wrapAfter firstWrap).1 ++ removeFontTags color text := by
  rw [wrapped]
  split_ifs
  · exact removeFontTags_append ha color text
  · exact removeFontTags_wrap ha _ _ color text

theorem hexDigit_ne : ∀ n < 16, PacketTree.hexDigit n ≠ '<' := by decide

theorem ne_of_mem_hexByte {b : UInt8} {c : Char} (hc : c ∈ hexByte b) : c ≠ '<' := by
  have hb := b.toNat_lt
  rcases List.mem_cons.mp hc with rfl | hlow
  · exact hexDigit_ne _ (by omega)
  · rw [List.mem_singleton.mp hlow]
    exact hexDigit_ne _ (by omega)

/-- A text of bytes and blanks has no tag. -/
theorem not_mem_text (msg : ByteMessage) : '<' ∉ (msg.text ' ').message := by
  rw [message_text]
  have hblank : ' ' ≠ '<' := by decide
  refine fun hmem => forall_mem_joined (P := fun c => c ≠ '<') hblank ?_ '<' hmem rfl
  exact List.forall_mem_map.mpr fun b _ c hc => ne_of_mem_hexByte hc

variable {msgs : List ByteMessage} {settings : Settings} {graphSettings : GraphSettings}
  {message : JavaString}
  {left right : ℕ}

/-- Whatever is common, a message has a label. But for the tags it is that of the
whole message. -/
theorem messageLabel_ok (settings : GraphSettings) (color : JavaString) (hsum : left + right + 1 < 2 ^ 31)
    (hwrap : Wrappable message.length (labelWidth settings) (-1)) :
    ∃ label, messageLabel settings (left, right) color message = .ok label ∧
      ('<' ∉ message → removeFontTags color label = (wrapped message (labelWidth settings) (-1)).1) := by
  have hindex : wrapInt ((left : ℤ) + right + 1) = (left + right + 1 : ℕ) := wrapInt_eq ⟨by omega, by omega⟩
  rw [messageLabel, hindex]
  by_cases hwhole : left + right + 1 ≥ message.length
  · refine ⟨(wrapped message (labelWidth settings) (-1)).1, ?_, fun hmessage => ?_⟩
    · rw [if_pos (Nat.cast_le.mpr hwhole)]
      exact bind_ok (wrapText_ok hwrap) _
    · have h := removeFontTags_wrapped hmessage (labelWidth settings) (-1) color []
      rwa [List.append_nil, removeFontTags_nil, List.append_nil] at h
  · have hlong : left + right ≤ message.length := by omega
    let front := message.take left
    let mid := (message.drop left).take (message.length - right - left)
    let back := message.drop (message.length - right)
    have hback : (message.drop (message.length - right)).take (message.length - (message.length - right)) =
        back :=
      List.take_of_length_le List.length_drop.le
    have hsplit : message = front ++ mid ++ back := by
      have hrest : back = (message.drop left).drop (message.length - right - left) := by
        rw [List.drop_drop, Nat.add_sub_cancel' (by omega)]
      rw [List.append_assoc, hrest, List.take_append_drop, List.take_append_drop]
    have hlines : Wrappable (front ++ mid ++ back).length (labelWidth settings) (-1) := hsplit ▸ hwrap
    have hfirstLines : Wrappable front.length (labelWidth settings) (-1) := fun hpos =>
      (hlines hpos).of_append.of_append
    let first := wrapped front (labelWidth settings) (-1)
    have hsecondLines : Wrappable mid.length (labelWidth settings) first.2 := fun hpos =>
      (hlines hpos).of_append.append hpos
    let second := wrapped mid (labelWidth settings) first.2
    have hroom : (wrapped (front ++ mid) (labelWidth settings) (-1)).2 = second.2 := by
      rw [wrapped_append]
    have hthirdLines : Wrappable back.length (labelWidth settings) second.2 := fun hpos =>
      hroom ▸ (hlines hpos).append hpos
    let third := wrapped back (labelWidth settings) second.2
    refine ⟨first.1 ++ (fontTag color ++ second.1 ++ fontEndTag) ++ third.1, ?_, fun hmessage => ?_⟩
    · have hzero : substring message 0 left = .ok front := substring_ok (Nat.zero_le _) (by omega)
      have hmiddle : substring message left (message.length - right) = .ok mid := by
        rw [← Nat.cast_sub (by omega)]
        exact substring_ok (by omega) (Nat.sub_le _ _)
      have hlast : substring message (message.length - right) message.length = .ok back := by
        rw [← Nat.cast_sub (by omega), substring_ok (Nat.sub_le _ _) (Nat.le_refl _), hback]
      rw [if_neg (mt Nat.cast_le.mp hwhole), bind_ok hzero, bind_ok (wrapText_ok hfirstLines),
        bind_ok hmiddle, bind_ok (wrapText_ok hsecondLines), bind_ok hlast, bind_ok (wrapText_ok hthirdLines)]
      rfl
    · have hcut {piece : JavaString} (hpiece : piece.Sublist message) : '<' ∉ piece :=
        fun hmem => hmessage (hpiece.subset hmem)
      have hfront : '<' ∉ front := hcut (List.take_sublist _ _)
      have hmid : '<' ∉ mid := hcut ((List.take_sublist _ _).trans (List.drop_sublist _ _))
      have hend : '<' ∉ back := hcut (List.drop_sublist _ _)
      have hthird := removeFontTags_wrapped hend (labelWidth settings) second.2 color []
      rw [List.append_nil, removeFontTags_nil, List.append_nil] at hthird
      have hwhole : (wrapped message (labelWidth settings) (-1)).1 = first.1 ++ second.1 ++ third.1 := by
        conv_lhs => rw [hsplit, wrapped_append, wrapped_append]
      rw [hwhole]
      simp only [List.append_assoc]
      rw [removeFontTags_wrapped hfront, removeFontTags_fontTag, removeFontTags_wrapped hmid,
        removeFontTags_fontEndTag, hthird]

/-- A label needs the sum of what is common to be an `int`. -/
theorem sum_of_messageLabel {label color : JavaString} {msg : ByteMessage} {graphSettings : GraphSettings}
    (hleft : left < 2 ^ 31) (hright : right < 2 ^ 31)
    (h : messageLabel graphSettings (left, right) color (msg.text ' ').message = .ok label) :
    left + right + 1 < 2 ^ 31 := by
  by_contra hlarge
  have hfits := msg.fits
  have hlength := length_text ' ' msg
  have hneg : wrapInt ((left : ℤ) + right + 1) < 0 := by
    have hcast : (left : ℤ) + right + 1 = (left + right + 1 : ℕ) := rfl
    rw [hcast, wrapInt_natCast (by omega), if_neg hlarge]
    omega
  rw [messageLabel, if_neg (not_le.mpr (hneg.trans_le (Int.natCast_nonneg _)))] at h
  obtain ⟨front, -, h⟩ := of_bind_ok h
  obtain ⟨first, -, h⟩ := of_bind_ok h
  obtain ⟨mid, hmid, -⟩ := of_bind_ok h
  rw [substring] at hmid
  by_cases hbounds : 0 ≤ (left : ℤ) ∧ (left : ℤ) ≤ (msg.text ' ').message.length - right ∧
      ((msg.text ' ').message.length : ℤ) - right ≤ (msg.text ' ').message.length
  · omega
  · rw [if_neg hbounds] at hmid
    cases hmid

/-- The nodes of messages: new ones, or their own. -/
def nodeIdentifiers (generateIdentifier : Bool) (nextNode : NodeId) (msgs : List ByteMessage) : List ℤ :=
  if generateIdentifier then (List.range' nextNode msgs.length).map identifier
  else msgs.map ByteMessage.identifier

/-- The nodes that are made for messages. -/
def newNodes (generateIdentifier : Bool) (msgs : List ByteMessage) : Heap :=
  if generateIdentifier then List.replicate msgs.length ⟨[], ∅, none, 1⟩ else []

/-- The text of messages with their labels. -/
def printedMessages (lineSeparator : JavaString) (parentIdentifier : ℤ) (nodes : List ℤ)
    (labels : List JavaString) : JavaString :=
  (nodes.zip labels).flatMap fun p => messageLines lineSeparator parentIdentifier p.1 p.2

/-- Every message gets a label that is, without the font tags, that of the whole message. -/
def PreparesLabels (settings : Settings) (graphSettings : GraphSettings) (lineSeparator : JavaString)
    (sb : JavaString) (h : Heap) (parentIdentifier : ℤ) (msgs : List ByteMessage)
    (generateIdentifier : Bool) : Prop :=
  ∃ (color : JavaString) (labels : List JavaString),
    (color = graphSettings.similarByteStreamColor ∨ color = graphSettings.randomByteStreamColor) ∧
    prepare settings graphSettings lineSeparator sb parentIdentifier (msgs.map (ByteMessage.text ' '))
        generateIdentifier h =
      .ok (sb ++ printedMessages lineSeparator parentIdentifier
          (nodeIdentifiers generateIdentifier h.length msgs) labels)
        (h ++ newNodes generateIdentifier msgs) ∧
    List.Forall₂ (fun label msg => ∃ room, wrapText (msg.text ' ').message (labelWidth graphSettings) (-1) =
      .ok (removeFontTags color label, room)) labels msgs

/-- What is common at both ends is short enough for the sum of its lengths to be an
`int`, and all messages can be wrapped. -/
def LabelsFit (settings : Settings) (graphSettings : GraphSettings) (msgs : List ByteMessage) : Prop :=
  (msgs = [] ∨ (3 * prefixLength settings msgs - 1) + (3 * suffixLength settings msgs - 1) + 1 < 2 ^ 31) ∧
    ∀ msg ∈ msgs, Wrappable (msg.text ' ').message.length (labelWidth graphSettings) (-1)

theorem nodeIdentifiers_cons (generateIdentifier : Bool) (nextNode : NodeId) (msg : ByteMessage)
    (msgs : List ByteMessage) :
    nodeIdentifiers generateIdentifier nextNode (msg :: msgs) =
      (if generateIdentifier then identifier nextNode else msg.identifier) ::
        nodeIdentifiers generateIdentifier (if generateIdentifier then nextNode + 1 else nextNode) msgs := by
  simp only [nodeIdentifiers, List.length_cons, List.range'_succ, List.map_cons]
  cases generateIdentifier with
  | false => rfl
  | true => simp only [if_pos]

theorem newNodes_cons (generateIdentifier : Bool) (msg : ByteMessage) (msgs : List ByteMessage) :
    newNodes generateIdentifier (msg :: msgs) =
      newNodes generateIdentifier [msg] ++ newNodes generateIdentifier msgs := by
  cases generateIdentifier with
  | false => rfl
  | true => rfl

/-- A message has a node. -/
theorem messageIdentifier_ok (generateIdentifier : Bool) (sep : Char) (msg : ByteMessage) (h : Heap) :
    messageIdentifier generateIdentifier (msg.text sep) h =
      .ok (if generateIdentifier then identifier h.length else msg.identifier)
        (h ++ newNodes generateIdentifier [msg]) := by
  unfold messageIdentifier newNodes
  split_ifs
  · exact ExceptionRuns.bind_ok (newNode_ok [] h)
  · rw [List.append_nil]
    rfl

/-- A message that is added has a label. -/
theorem exists_label_of_prepareMessage {lineSeparator sb : JavaString} {prefixes : ℕ × ℕ}
    {parentIdentifier : ℤ} {generateIdentifier : Bool} {sep : Char} {msg : ByteMessage} {h : Heap}
    (hends : ExceptionRuns.Ends (prepareMessage graphSettings lineSeparator prefixes color parentIdentifier
      generateIdentifier sb (msg.text sep)) h) :
    ∃ label, messageLabel graphSettings prefixes color (msg.text sep).message = .ok label := by
  rw [prepareMessage] at hends
  generalize messageLabel graphSettings prefixes color (msg.text sep).message = label at hends ⊢
  exact ends_lift_iff.mp (hends.behind (messageIdentifier_ok generateIdentifier sep msg h)).of_bind

/-- The loop over the messages prints a label for each of them. -/
theorem prepareMessages_ok (settings : GraphSettings) (lineSeparator color : JavaString)
    (parentIdentifier : ℤ) (generateIdentifier : Bool) (sb : JavaString) (h : Heap)
    (hsum : msgs = [] ∨ left + right + 1 < 2 ^ 31)
    (hwrap : ∀ msg ∈ msgs, Wrappable (msg.text ' ').message.length (labelWidth settings) (-1)) :
    ∃ labels : List JavaString,
      (msgs.map (ByteMessage.text ' ')).foldlM
          (prepareMessage settings lineSeparator (left, right) color parentIdentifier generateIdentifier)
          sb h =
        .ok (sb ++ printedMessages lineSeparator parentIdentifier
            (nodeIdentifiers generateIdentifier h.length msgs) labels)
          (h ++ newNodes generateIdentifier msgs) ∧
      List.Forall₂ (fun label msg => ∃ room, wrapText (msg.text ' ').message (labelWidth settings) (-1) =
        .ok (removeFontTags color label, room)) labels msgs := by
  induction msgs generalizing sb h with
  | nil =>
    have hnone : newNodes generateIdentifier [] = [] := by cases generateIdentifier <;> rfl
    refine ⟨[], ?_, .nil⟩
    rw [printedMessages, List.zip_nil_right, List.flatMap_nil, List.append_nil, hnone, List.append_nil]
    rfl
  | cons msg msgs ih =>
    obtain ⟨hmsg, hmsgs⟩ := List.forall_mem_cons.mp hwrap
    have hlimit := hsum.resolve_left (List.cons_ne_nil _ _)
    obtain ⟨label, hlabel, hremoved⟩ := messageLabel_ok settings color hlimit hmsg
    let node := if generateIdentifier then identifier h.length else msg.identifier
    have hstep : prepareMessage settings lineSeparator (left, right) color parentIdentifier
        generateIdentifier sb (msg.text ' ') h =
          .ok (sb ++ messageLines lineSeparator parentIdentifier node label)
            (h ++ newNodes generateIdentifier [msg]) := by
      rw [prepareMessage, ExceptionRuns.bind_ok (messageIdentifier_ok generateIdentifier ' ' msg h),
        ExceptionRuns.bind_ok (lift_eq_ok hlabel _)]
      rfl
    obtain ⟨labels, hrun, hlabels⟩ := ih (sb ++ messageLines lineSeparator parentIdentifier node label)
      (h ++ newNodes generateIdentifier [msg]) (Or.inr hlimit) hmsgs
    refine ⟨label :: labels, ?_, .cons
      ⟨(wrapped (msg.text ' ').message (labelWidth settings) (-1)).2, ?_⟩ hlabels⟩
    · have hnext : (h ++ newNodes generateIdentifier [msg]).length =
          if generateIdentifier then h.length + 1 else h.length := by
        rw [List.length_append]
        cases generateIdentifier <;> rfl
      rw [List.map_cons, List.foldlM_cons, ExceptionRuns.bind_ok hstep, hrun, hnext, printedMessages,
        printedMessages, nodeIdentifiers_cons, List.zip_cons_cons, List.flatMap_cons, List.append_assoc,
        List.append_assoc, ← newNodes_cons]
    · rw [wrapText_ok hmsg, hremoved (not_mem_text msg)]

/-- The labels are those of the whole messages only if these can be wrapped. -/
theorem labelsFit_of_preparesLabels {lineSeparator sb : JavaString} {h : Heap} {parentIdentifier : ℤ}
    {generateIdentifier : Bool}
    (hprepares : PreparesLabels settings graphSettings lineSeparator sb h parentIdentifier msgs
      generateIdentifier) :
    LabelsFit settings graphSettings msgs := by
  obtain ⟨color, labels, -, hrun, hlabels⟩ := hprepares
  refine ⟨or_iff_not_imp_left.mpr fun hne => ?_, fun msg hmsg => ?_⟩
  · obtain ⟨hstarts, hsuffix⟩ := constant_fits settings hne
    rw [prepare, ExceptionRuns.bind_ok (lift_eq_ok (longestCommonPrefixes_ok settings ' ' hne) h)] at hrun
    obtain ⟨msg, rest, rfl⟩ := List.exists_cons_of_ne_nil hne
    have hends : ExceptionRuns.Ends (_ : JavaM JavaString) h := ⟨_, _, hrun⟩
    obtain ⟨color', hcolor⟩ := ends_lift_iff.mp hends.of_bind
    have hloop := hends.behind (lift_eq_ok hcolor h)
    rw [List.map_cons, List.foldlM_cons] at hloop
    obtain ⟨label, hlabel⟩ := exists_label_of_prepareMessage hloop.of_bind
    exact sum_of_messageLabel (by omega) (by omega) hlabel
  · have hall : ∀ msg ∈ msgs, ∃ result,
        wrapText (msg.text ' ').message (labelWidth graphSettings) (-1) = .ok result := by
      clear hrun hmsg
      induction hlabels with
      | nil => exact List.forall_mem_nil _
      | cons hlabel _ ih =>
        obtain ⟨room, hwrapped⟩ := hlabel
        exact List.forall_mem_cons.mpr ⟨⟨_, hwrapped⟩, ih⟩
    exact (wrapText_ok_iff (isInt_wrapInt _).2 (by decide)).mp (hall msg hmsg)

/-- The messages go on from what is common at the beginning to what is common at the end. -/
theorem allRead_text (hsum : left + right + 1 < 2 ^ 31) (sep : Char) (msgs : List ByteMessage) :
    AllRead left right (msgs.map (ByteMessage.text sep)) := by
  have hindex : wrapInt ((left : ℤ) + right + 1) = (left + right + 1 : ℕ) := wrapInt_eq ⟨by omega, by omega⟩
  refine List.forall_mem_map.mpr fun msg _ hlong => ?_
  rw [hindex] at hlong
  have hfits := msg.fits
  have hlength := length_text sep msg
  have hend : wrapInt (((msg.text sep).message.length : ℤ) - right) = (msg.text sep).message.length - right :=
    wrapInt_eq ⟨by omega, by omega⟩
  rw [hend]
  omega

/-- A message of so many bytes that the end of its second line is no `int`. -/
def longMessage : ByteMessage :=
  ⟨List.replicate 357913943 0x00, 2, 1, Nat.one_pos, by rw [List.length_replicate]; omega⟩

end ApduPlay.WrappedLabels
