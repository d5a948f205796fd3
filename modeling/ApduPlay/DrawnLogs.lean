import ApduPlay.RecordedLogs
import ApduPlay.TransmitLog

/-!
# The exchanges of a log in the graph of the packets

The graph of the packets is to show what a log tells: every exchange by an edge from the root to
what was sent and one from there to what was answered. It is drawn from the bytes that the leaves
of the packets spell, which need not be those of the log, and the parser loses an answer that
is empty.
-/

namespace ApduPlay.DrawnLogs

open ExceptionRuns (Ends)
open Grouping LabelForest TreeTraversal WordCuts
open PacketNode PacketTree LinkedTrees LogParser ParserSteps RebuiltLeaves TransmitLog WrappedText
open PacketGraph NodesGraph RecordedLogs

/-- The bytes of an exchange: what was sent, and what was answered last, nothing without an answer. -/
def exchangeBytes (e : LogExchange) : List UInt8 × List UInt8 := (e.data, e.answers.getLast?.getD [])

/-- The exchanges that a log tells of under the key of a tree. -/
def exchangesUnder (headerLength : ℕ) (text : JavaString) (key : String) : List LogExchange :=
  (historyOf headerLength text).exchanges.filter fun e => printHexBinary e.header = key

/-- The nodes for everything that was sent, and for the answers to it. -/
structure Nodes where
  /-- A node for what was sent. -/
  sent : List UInt8 → ℤ
  /-- A node for an answer to what was sent. -/
  answer : List UInt8 × List UInt8 → ℤ

/-- The edges between the nodes of two streams. -/
def Nodes.edges (nodes : Nodes) (root : ℤ) (bytes : List UInt8 × List UInt8) (ac responseTime : ℤ) :
    List Statement :=
  [.sent root (nodes.sent bytes.1) ac, .answered (nodes.sent bytes.1) (nodes.answer bytes) ac responseTime]

/-- Every exchange is drawn once, between the nodes of its bytes. -/
structure Draws (cfg : PrintSettings) (root : ℤ) (exchanges : List LogExchange)
    (statements : List Statement) (nodes : Nodes) : Prop where
  /-- Its two edges and no others. -/
  edges : (statements.filter Statement.isEdge).Perm
    (exchanges.flatMap fun e => nodes.edges root (exchangeBytes e) e.ac e.responseTime)
  /-- No node is declared twice. -/
  declared : (statements.filterMap Statement.declared).Nodup
  /-- The nodes are labelled with the bytes. -/
  labels : ∀ e ∈ exchanges,
    Labelled cfg statements (nodes.sent e.data) (hexBinaryString cfg.bytesSeparator e.data) ∧
      Labelled cfg statements (nodes.answer (exchangeBytes e))
        (hexBinaryString cfg.bytesSeparator (exchangeBytes e).2)
  /-- Exchanges share the first node exactly if the same was sent. -/
  sent : SameIff (fun e => nodes.sent e.data) LogExchange.data exchanges
  /-- They share the second one exactly if also the same was answered. -/
  answer : SameIff (fun e => nodes.answer (exchangeBytes e)) exchangeBytes exchanges
  /-- First and second nodes are different nodes. -/
  apart : ∀ d ∈ exchanges, ∀ e ∈ exchanges, nodes.sent d.data ≠ nodes.answer (exchangeBytes e)
  /-- None of them is the root. -/
  root : ∀ e ∈ exchanges, nodes.sent e.data ≠ root ∧ nodes.answer (exchangeBytes e) ≠ root

/-- The output is completed, and draws the exchanges. -/
def DrawsExchanges (cfg : PrintSettings) (hash : HashOrder) (h : Heap) (lines : List JavaString)
    (tree : Tree) (exchanges : List LogExchange) : Prop :=
  ∃ h' statements nodes, printPackets cfg hash tree (h, lines) =
      .ok () (h', lines ++ statements.map Statement.text) ∧
    Draws cfg (identifier tree.root) exchanges statements nodes

/-- A stream that comes behind others ends where the tree has a node. -/
def EndsAtCut (before : List (List UInt8)) (s : List UInt8) : Prop := s ∈ cutsOf (before ++ [s])

/-- The leaves of every exchange spell its bytes. -/
def SpelledAsLogged (exchanges : List LogExchange) : Prop :=
  ∀ before e after, exchanges = before ++ e :: after →
    EndsAtCut (before.map LogExchange.data) e.data ∧
      ∀ answers last, e.answers = answers ++ [last] →
        EndsAtCut (before.flatMap LogExchange.answers ++ answers) last

/-- Exchanges that are drawn, when there are some nodes already. -/
structure Drawable (cfg : PrintSettings) (nodes : ℕ) (root : NodeId) (exchanges : List LogExchange) :
    Prop where
  /-- Everything is answered, or there are no headers. -/
  answered : cfg.headerLength = 0 ∨ ∀ e ∈ exchanges, e.answers ≠ []
  /-- The leaves spell the bytes. -/
  spelled : SpelledAsLogged exchanges
  /-- There is room for the texts of the bytes. -/
  room : ∀ e ∈ exchanges, HasRoom cfg.bytesSeparator e.header ∧ HasRoom cfg.bytesSeparator e.data ∧
    HasRoom cfg.bytesSeparator (exchangeBytes e).2
  /-- These can be wrapped. -/
  labels : ∀ e ∈ exchanges, HasLabel cfg (hexBinaryString cfg.bytesSeparator e.data) ∧
    HasLabel cfg (hexBinaryString cfg.bytesSeparator (exchangeBytes e).2)
  /-- The identifiers of the nodes do not come round. -/
  apart : ((root :: List.range' nodes (nodeCount (exchanges.map exchangeBytes))).map identifier).Nodup

variable {cfg : PrintSettings} {hash : HashOrder} {h : Heap} {lines : List JavaString} {tree : Tree}
  {exchanges : List LogExchange} {statements : List Statement} {drawn : List Drawn} {nodes : Nodes}

/-- A character of a number. -/
def isNumeral (c : Char) : Bool := c.isDigit || c = '-'

theorem decimal_negSucc (m : ℕ) : decimal (Int.negSucc m) = '-' :: decimal (Int.ofNat (m + 1)) := by
  show ("-" ++ (m + 1).repr).toList = _
  rw [String.toList_append]
  rfl

theorem isNumeral_of_mem_decimal {n : ℤ} {c : Char} (hc : c ∈ decimal n) : isNumeral c = true := by
  have hdigit {m : ℕ} (hc : c ∈ m.repr.toList) : isNumeral c = true := by
    rw [Nat.toList_repr] at hc
    rw [isNumeral, Nat.isDigit_of_mem_toDigits (by decide) (by decide) hc, Bool.true_or]
  cases n with
  | ofNat m => exact hdigit hc
  | negSucc m =>
    rw [decimal_negSucc] at hc
    rcases List.mem_cons.mp hc with rfl | hc
    · rfl
    · exact hdigit hc

/-- A number that is not negative is read back. -/
theorem readNumber_ofNat (m : ℕ) : readNumber (decimal (Int.ofNat m)) = some (m, []) := by
  have hread : readNumber (decimal m ++ []) = some (m, []) := readNumber_decimal m (fun _ hc => by cases hc)
  rwa [List.append_nil] at hread

theorem readNumber_negSucc (m : ℕ) : readNumber (decimal (Int.negSucc m)) = none := by
  rw [decimal_negSucc]
  rfl

theorem decimal_injective : Function.Injective decimal := by
  intro n n' heq
  have hread := congrArg readNumber heq
  cases n with
  | ofNat m =>
    cases n' with
    | ofNat m' =>
      rw [readNumber_ofNat, readNumber_ofNat, Option.some.injEq, Prod.mk.injEq] at hread
      rw [hread.1]
    | negSucc m' =>
      rw [readNumber_ofNat, readNumber_negSucc] at hread
      cases hread
  | negSucc m =>
    cases n' with
    | ofNat m' =>
      rw [readNumber_ofNat, readNumber_negSucc] at hread
      cases hread
    | negSucc m' =>
      rw [decimal_negSucc, decimal_negSucc] at heq
      have hread' := congrArg readNumber (List.cons.inj heq).2
      rw [readNumber_ofNat, readNumber_ofNat, Option.some.injEq, Prod.mk.injEq] at hread'
      rw [Nat.succ.inj hread'.1]

/-- A number ends where no numeral follows. -/
theorem decimal_append_inj {n n' : ℤ} {c c' : Char} {rest rest' : JavaString}
    (hc : isNumeral c = false) (hc' : isNumeral c' = false)
    (heq : decimal n ++ c :: rest = decimal n' ++ c' :: rest') : n = n' ∧ c :: rest = c' :: rest' := by
  have htake {m : ℤ} {d : Char} (more : JavaString) (hd : isNumeral d = false) :
      (decimal m ++ d :: more).takeWhile isNumeral = decimal m := by
    rw [List.takeWhile_append_of_pos fun x hx => isNumeral_of_mem_decimal hx, List.takeWhile_cons, hd]
    exact List.append_nil _
  have hn : decimal n = decimal n' := by rw [← htake rest hc, heq, htake rest' hc']
  rw [hn] at heq
  exact ⟨decimal_injective hn, List.append_cancel_left heq⟩

/-- The first number of a line. -/
def source : Statement → ℤ
  | .root n _ | .node n _ | .sent n _ _ | .answered n _ _ _ => n

/-- What is behind it. -/
def behind : Statement → JavaString
  | .root _ label => "[label=\"".toList ++ (label ++ "\"];".toList)
  | .node _ label => "[label=<".toList ++ (label ++ ">];".toList)
  | .sent _ target ac => "-> ".toList ++ (decimal target ++ ' ' :: ("[label=\"[ac=".toList ++
      (decimal ac ++ ']' :: "\"];".toList)))
  | .answered _ target ac time => "-> ".toList ++ (decimal target ++ ' ' :: ("[label=\"[ac=".toList ++
      (decimal ac ++ ',' :: (" time=".toList ++ (decimal time ++ ']' :: "\"];".toList)))))

theorem text_eq (statement : Statement) :
    statement.text = '\t' :: (decimal (source statement) ++ ' ' :: behind statement) := by
  cases statement <;> simp only [Statement.text, List.append_assoc] <;> rfl

/-- The quotation marks of the two kinds of labels differ. -/
theorem behind_root_ne_node {n n' : ℤ} {label label' : JavaString} :
    behind (.root n label) ≠ behind (.node n' label') := by
  intro heq
  have hroot : (behind (.root n label)).take 8 = "[label=\"".toList := List.take_left' (by decide)
  have hnode : (behind (.node n' label')).take 8 = "[label=<".toList := List.take_left' (by decide)
  have hquotation : "[label=\"".toList ≠ "[label=<".toList := by decide
  exact hquotation (by rw [← hroot, heq, hnode])

/-- A line says what it was printed for. -/
theorem text_injective : Function.Injective Statement.text := by
  intro s s' heq
  have hspace : isNumeral ' ' = false := by decide
  have hbracket : isNumeral ']' = false := by decide
  have hcomma : isNumeral ',' = false := by decide
  rw [text_eq, text_eq] at heq
  obtain ⟨hsource, hbehind⟩ := decimal_append_inj hspace hspace (List.cons.inj heq).2
  have hbehind := (List.cons.inj hbehind).2
  have hopening := congrArg (List.take 8) hbehind
  cases s with
  | root n l =>
    cases s' with
    | root n' l' =>
      obtain rfl : n = n' := hsource
      rw [List.append_cancel_right (List.append_cancel_left hbehind)]
    | node n' l' => exact absurd hbehind behind_root_ne_node
    | sent n' target ac => cases hopening
    | answered n' target ac time => cases hopening
  | node n l =>
    cases s' with
    | root n' l' => exact absurd hbehind.symm behind_root_ne_node
    | node n' l' =>
      obtain rfl : n = n' := hsource
      rw [List.append_cancel_right (List.append_cancel_left hbehind)]
    | sent n' target ac => cases hopening
    | answered n' target ac time => cases hopening
  | sent n target ac =>
    cases s' with
    | root n' l' => cases hopening
    | node n' l' => cases hopening
    | sent n' target' ac' =>
      obtain rfl : n = n' := hsource
      obtain ⟨rfl, hrest⟩ := decimal_append_inj hspace hspace (List.append_cancel_left hbehind)
      obtain ⟨rfl, -⟩ := decimal_append_inj hbracket hbracket
        (List.append_cancel_left (List.cons.inj hrest).2)
      rfl
    | answered n' target' ac' time =>
      obtain ⟨-, hrest⟩ := decimal_append_inj hspace hspace (List.append_cancel_left hbehind)
      obtain ⟨-, hrest⟩ := decimal_append_inj hbracket hcomma
        (List.append_cancel_left (List.cons.inj hrest).2)
      cases hrest
  | answered n target ac time =>
    cases s' with
    | root n' l' => cases hopening
    | node n' l' => cases hopening
    | sent n' target' ac' =>
      obtain ⟨-, hrest⟩ := decimal_append_inj hspace hspace (List.append_cancel_left hbehind)
      obtain ⟨-, hrest⟩ := decimal_append_inj hcomma hbracket
        (List.append_cancel_left (List.cons.inj hrest).2)
      cases hrest
    | answered n' target' ac' time' =>
      obtain rfl : n = n' := hsource
      obtain ⟨rfl, hrest⟩ := decimal_append_inj hspace hspace (List.append_cancel_left hbehind)
      obtain ⟨rfl, htime⟩ := decimal_append_inj hcomma hcomma
        (List.append_cancel_left (List.cons.inj hrest).2)
      obtain ⟨rfl, -⟩ := decimal_append_inj hbracket hbracket
        (List.append_cancel_left (List.cons.inj htime).2)
      rfl

/-- A declared node has one label. -/
theorem statement_of_declared (hnodup : (statements.filterMap Statement.declared).Nodup) {s s' : Statement}
    (hs : s ∈ statements) (hs' : s' ∈ statements) {n : ℤ} (hn : s.declared = some n)
    (hn' : s'.declared = some n) : s = s' := by
  by_contra hne
  have : Std.Symm fun a b : Statement =>
      ∀ m, a.declared = some m → ∀ m', b.declared = some m' → m ≠ m' :=
    ⟨fun a b hab m hm m' hm' heq => hab m' hm' m hm heq.symm⟩
  exact (List.pairwise_filterMap.mp hnodup).forall hs hs' hne n hn n hn' rfl

/-- It says which bytes it stands for. -/
theorem bytes_of_labelled (hnodup : (statements.filterMap Statement.declared).Nodup) {n : ℤ}
    {a b : List UInt8} (ha : Labelled cfg statements n (hexBinaryString cfg.bytesSeparator a))
    (hb : Labelled cfg statements n (hexBinaryString cfg.bytesSeparator b)) : a = b := by
  obtain ⟨l, hl, hmem⟩ := ha
  obtain ⟨l', hl', hmem'⟩ := hb
  have hsame : l = l' := (Statement.node.inj (statement_of_declared hnodup hmem hmem' rfl rfl)).2
  rw [(hasLabel_iff.mpr ⟨l, hl⟩).label_eq, Except.ok.injEq] at hl
  rw [(hasLabel_iff.mpr ⟨l', hl'⟩).label_eq, Except.ok.injEq] at hl'
  have hread := readLabel_labelText cfg a
  rw [hl, hsame, ← hl', readLabel_labelText, Option.some.injEq] at hread
  exact hread.symm

/-- So the labels can be read. -/
theorem exists_reading (cfg : PrintSettings) (hnodup : (statements.filterMap Statement.declared).Nodup) :
    ∃ read : ℤ → List UInt8, ∀ {n bytes},
      Labelled cfg statements n (hexBinaryString cfg.bytesSeparator bytes) → read n = bytes := by
  classical
  refine ⟨fun n => if hn : ∃ bytes, Labelled cfg statements n (hexBinaryString cfg.bytesSeparator bytes)
    then hn.choose else [], fun {n bytes} hbytes => ?_⟩
  have hn : ∃ bytes, Labelled cfg statements n (hexBinaryString cfg.bytesSeparator bytes) := ⟨bytes, hbytes⟩
  dsimp only
  rw [dif_pos hn]
  exact bytes_of_labelled hnodup hn.choose_spec hbytes

/-- The same nodes have the labels of the same bytes. -/
theorem perm_of_labelled {α β : Type} {l : List α} {l' : List β} {node : α → ℤ} {node' : β → ℤ}
    {bytes : α → List UInt8} {bytes' : β → List UInt8}
    (hnodup : (statements.filterMap Statement.declared).Nodup) (hperm : (l.map node).Perm (l'.map node'))
    (hlabels : ∀ a ∈ l, Labelled cfg statements (node a) (hexBinaryString cfg.bytesSeparator (bytes a)))
    (hlabels' : ∀ b ∈ l', Labelled cfg statements (node' b) (hexBinaryString cfg.bytesSeparator (bytes' b))) :
    (l.map bytes).Perm (l'.map bytes') := by
  obtain ⟨read, hread⟩ := exists_reading cfg hnodup
  have hbytes : (l.map node).map read = l.map bytes := by
    rw [List.map_map]
    exact List.map_congr_left fun a ha => hread (hlabels a ha)
  have hbytes' : (l'.map node').map read = l'.map bytes' := by
    rw [List.map_map]
    exact List.map_congr_left fun b hb => hread (hlabels' b hb)
  rw [← hbytes, ← hbytes']
  exact hperm.map read

/-- Numbers that agree where the keys do number the keys. -/
theorem exists_numbering {α κ : Type} {l : List α} (key : α → κ) (number : α → ℤ)
    (hsame : ∀ a ∈ l, ∀ b ∈ l, key a = key b → number a = number b) :
    ∃ f : κ → ℤ, ∀ a ∈ l, f (key a) = number a := by
  let mark (a : {a // a ∈ l}) : κ := key a
  let node (a : {a // a ∈ l}) : ℤ := number a
  have hfactors : node.FactorsThrough mark := fun a b hab => hsame a a.2 b b.2 hab
  exact ⟨Function.extend mark node fun _ => 0, fun a ha => hfactors.extend_apply _ ⟨a, ha⟩⟩

/-- What is drawn of a packet. -/
def packetDrawing (cfg : PrintSettings) (h : Heap) (p : Packet) : (List UInt8 × List UInt8) × ℤ × ℤ :=
  (rebuiltBytes cfg h p, p.ac, p.responseTime)

/-- What is to be drawn of an exchange. -/
def exchangeDrawing (e : LogExchange) : (List UInt8 × List UInt8) × ℤ × ℤ :=
  (exchangeBytes e, e.ac, e.responseTime)

/-- Packets with the bytes of the exchanges draw the exchanges. -/
theorem draws_of_shows (hshows : Shows cfg h tree statements drawn)
    (hpackets : tree.streamPackets.map (packetDrawing cfg h) = exchanges.map exchangeDrawing)
    (hapart : ((tree.root :: List.range' h.length (nodeCount (exchanges.map exchangeBytes))).map
      identifier).Nodup) :
    ∃ nodes, Draws cfg (identifier tree.root) exchanges statements nodes := by
  have hbytes : tree.streamPackets.map (rebuiltBytes cfg h) = exchanges.map exchangeBytes := by
    have hfirst := congrArg (List.map Prod.fst) hpackets
    rwa [List.map_map, List.map_map] at hfirst
  have hfresh := hshows.fresh
  have hdeclared := hshows.declared
  rw [hbytes] at hfresh hdeclared
  have hinj := List.inj_on_of_nodup_map hapart
  have hsent {d} (hd : d ∈ drawn) := List.mem_cons_of_mem tree.root (hfresh d hd).1
  have hanswer {d} (hd : d ∈ drawn) := List.mem_cons_of_mem tree.root (hfresh d hd).2
  obtain ⟨sent, hnode⟩ := exists_numbering (l := drawn) (Drawn.transmitted cfg h)
    (fun d => identifier d.transmittedNode)
    fun d hd e he hkey => congrArg identifier ((hshows.transmittedNode d hd e he).mpr hkey)
  obtain ⟨answer, hnode'⟩ := exists_numbering (l := drawn)
    (fun d => (d.transmitted cfg h, d.received cfg h)) (fun d => identifier d.receivedNode)
    fun d hd e he hkey => congrArg identifier ((hshows.receivedNode d hd e he).mpr hkey)
  have hdrawn (e) (he : e ∈ exchanges) : ∃ d ∈ drawn, d.transmitted cfg h = e.data ∧
      (d.transmitted cfg h, d.received cfg h) = exchangeBytes e := by
    have hmem : exchangeBytes e ∈ tree.streamPackets.map (rebuiltBytes cfg h) :=
      hbytes ▸ List.mem_map_of_mem he
    obtain ⟨p, hp, hpe⟩ := List.mem_map.mp hmem
    obtain ⟨d, hd, rfl⟩ := List.mem_map.mp (hshows.packets.mem_iff.mpr hp)
    exact ⟨d, hd, congrArg Prod.fst hpe, hpe⟩
  refine ⟨⟨sent, answer⟩, ?_, hdeclared ▸ hapart, fun e he => ?_, fun e he e' he' => ?_,
    fun e he e' he' => ?_, fun e he e' he' => ?_, fun e he => ?_⟩
  · have hedges : drawn.flatMap (Drawn.edges tree.root) =
        ((drawn.map Drawn.packet).map (packetDrawing cfg h)).flatMap fun x =>
          Nodes.edges ⟨sent, answer⟩ (identifier tree.root) x.1 x.2.1 x.2.2 := by
      rw [List.flatMap_map, List.flatMap_map]
      refine List.flatMap_congr fun d hd => ?_
      rw [Drawn.edges, ← hnode d hd, ← hnode' d hd]
      rfl
    have hperm := (hshows.packets.map (packetDrawing cfg h)).flatMap_right fun x =>
      Nodes.edges ⟨sent, answer⟩ (identifier tree.root) x.1 x.2.1 x.2.2
    rw [hpackets, ← hedges, List.flatMap_map] at hperm
    rw [hshows.edges]
    exact hperm
  · obtain ⟨d, hd, hdata, hpair⟩ := hdrawn e he
    have hlabels := hshows.labels d hd
    rw [← hnode d hd, ← hnode' d hd, hpair, hdata] at hlabels
    rw [← hpair] at hlabels ⊢
    exact hlabels
  · obtain ⟨d, hd, hdata, -⟩ := hdrawn e he
    obtain ⟨d', hd', hdata', -⟩ := hdrawn e' he'
    dsimp only
    rw [← hdata, ← hdata', hnode d hd, hnode d' hd', ← hshows.transmittedNode d hd d' hd']
    exact ⟨hinj (hsent hd) (hsent hd'), congrArg identifier⟩
  · obtain ⟨d, hd, -, hpair⟩ := hdrawn e he
    obtain ⟨d', hd', -, hpair'⟩ := hdrawn e' he'
    dsimp only
    rw [← hpair, ← hpair', hnode' d hd, hnode' d' hd', ← hshows.receivedNode d hd d' hd']
    exact ⟨hinj (hanswer hd) (hanswer hd'), congrArg identifier⟩
  · obtain ⟨d, hd, hdata, -⟩ := hdrawn e he
    obtain ⟨d', hd', -, hpair'⟩ := hdrawn e' he'
    dsimp only
    rw [← hdata, ← hpair', hnode d hd, hnode' d' hd']
    exact fun heq => hshows.apart d hd d' hd' (hinj (hsent hd) (hanswer hd') heq)
  · obtain ⟨d, hd, hdata, hpair⟩ := hdrawn e he
    have hroot := List.nodup_cons.mp hapart
    dsimp only
    rw [← hdata, ← hpair, hnode d hd, hnode' d hd]
    exact ⟨fun heq => hroot.1 (heq ▸ List.mem_map_of_mem (hfresh d hd).1),
      fun heq => hroot.1 (heq ▸ List.mem_map_of_mem (hfresh d hd).2)⟩

/-- The node of what was sent, on the edge to it. -/
def sentNode : Statement → Option ℤ
  | .sent _ target _ => some target
  | .root _ _ | .node _ _ | .answered _ _ _ _ => none

/-- The node of what was answered, on the edge to it. -/
def answerNode : Statement → Option ℤ
  | .answered _ target _ _ => some target
  | .root _ _ | .node _ _ | .sent _ _ _ => none

/-- Lists with one element of a kind for everything have these elements. -/
theorem filterMap_flatMap_eq_map {α β γ : Type} {f : α → List β} {g : β → Option γ} {k : α → γ}
    (hone : ∀ a, (f a).filterMap g = [k a]) (l : List α) : (l.flatMap f).filterMap g = l.map k := by
  rw [List.filterMap_flatMap, List.flatMap_congr fun a _ => hone a]
  exact List.map_eq_flatMap.symm

/-- Exchanges are drawn from packets with the same bytes, in some order. -/
theorem perm_of_draws (hshows : Shows cfg h tree statements drawn)
    (hdraws : Draws cfg (identifier tree.root) exchanges statements nodes) :
    (exchanges.map LogExchange.data).Perm (tree.streamPackets.map fun p => (rebuiltBytes cfg h p).1) ∧
      (exchanges.map fun e => (exchangeBytes e).2).Perm
        (tree.streamPackets.map fun p => (rebuiltBytes cfg h p).2) := by
  have hedges := hdraws.edges.symm
  rw [hshows.edges] at hedges
  constructor
  · have hnodes := hedges.filterMap sentNode
    rw [filterMap_flatMap_eq_map (k := fun e => nodes.sent e.data) fun e => rfl,
      filterMap_flatMap_eq_map (k := fun d => identifier d.transmittedNode) fun d => rfl] at hnodes
    refine (perm_of_labelled hdraws.declared hnodes (fun e he => (hdraws.labels e he).1)
      fun d hd => (hshows.labels d hd).1).trans ?_
    have hpackets := hshows.packets.map fun p => (rebuiltBytes cfg h p).1
    rwa [List.map_map] at hpackets
  · have hnodes := hedges.filterMap answerNode
    rw [filterMap_flatMap_eq_map (k := fun e => nodes.answer (exchangeBytes e)) fun e => rfl,
      filterMap_flatMap_eq_map (k := fun d => identifier d.receivedNode) fun d => rfl] at hnodes
    refine (perm_of_labelled hdraws.declared hnodes (fun e he => (hdraws.labels e he).2)
      fun d hd => (hshows.labels d hd).2).trans ?_
    have hpackets := hshows.packets.map fun p => (rebuiltBytes cfg h p).2
    rwa [List.map_map] at hpackets

/-- What is rebuilt for a packet, whose exchange came behind others. -/
structure RebuiltFrom (bytes : List UInt8 × List UInt8) (before : List LogExchange) (e : LogExchange) :
    Prop where
  /-- What was sent, and possibly more. -/
  sent : e.data <+: bytes.1
  /-- No more if it ends at a cut. -/
  sent_iff : e.data = bytes.1 ↔ EndsAtCut (before.map LogExchange.data) e.data
  /-- What was answered, and possibly more. -/
  answer : (exchangeBytes e).2 <+: bytes.2
  /-- No more if it ends at a cut. -/
  answer_iff : (exchangeBytes e).2 = bytes.2 ↔ ∀ answers last, e.answers = answers ++ [last] →
    EndsAtCut (before.flatMap LogExchange.answers ++ answers) last

/-- What is rebuilt for the packets of exchanges. -/
def RebuiltFor (bytes : List (List UInt8 × List UInt8)) (exchanges : List LogExchange) : Prop :=
  bytes.length = exchanges.length ∧ ∀ i b e, bytes[i]? = some b → exchanges[i]? = some e →
    RebuiltFrom b (exchanges.take i) e

variable {bytes : List (List UInt8 × List UInt8)}

/-- The leaves spell the exchanges exactly if these are rebuilt. -/
theorem RebuiltFor.eq_iff (hr : RebuiltFor bytes exchanges) :
    exchanges.map exchangeBytes = bytes ↔ SpelledAsLogged exchanges := by
  obtain ⟨hlength, hbytes⟩ := hr
  constructor
  · rintro rfl before e after rfl
    have he : (before ++ e :: after)[before.length]? = some e := by simp
    have hfrom := hbytes before.length (exchangeBytes e) e (by rw [List.getElem?_map, he]; rfl) he
    rw [List.take_left' rfl] at hfrom
    exact ⟨hfrom.sent_iff.mp rfl, hfrom.answer_iff.mp rfl⟩
  · intro hspelled
    refine List.ext_getElem? fun i => ?_
    rw [List.getElem?_map]
    cases he : exchanges[i]? with
    | none =>
      have hb : bytes[i]? = none := by
        rw [List.getElem?_eq_none_iff] at he ⊢
        exact hlength.le.trans he
      rw [hb]
      rfl
    | some e =>
      have hi : i < exchanges.length := (List.getElem?_eq_some_iff.mp he).1
      have hb : bytes[i]? = some bytes[i] := List.getElem?_eq_getElem (hlength ▸ hi)
      have hfrom := hbytes i bytes[i] e hb he
      have hsplit : exchanges = exchanges.take i ++ e :: exchanges.drop (i + 1) := by
        rw [← (List.getElem?_eq_some_iff.mp he).2, List.getElem_cons_drop, List.take_append_drop]
      obtain ⟨hsent, hanswer⟩ := hspelled _ _ _ hsplit
      rw [hb, Option.map_some, exchangeBytes, hfrom.sent_iff.mpr hsent]
      exact congrArg some (Prod.ext rfl (hfrom.answer_iff.mpr hanswer))

/-- Every exchange begins what is rebuilt for it. -/
theorem RebuiltFor.forall₂ (hr : RebuiltFor bytes exchanges) {f g : List UInt8 × List UInt8 → List UInt8}
    (hstarts : ∀ {b before e}, RebuiltFrom b before e → f (exchangeBytes e) <+: g b) :
    List.Forall₂ (· <+: ·) (exchanges.map fun e => f (exchangeBytes e)) (bytes.map g) := by
  rw [List.forall₂_map_left_iff, List.forall₂_map_right_iff, List.forall₂_iff_get]
  refine ⟨hr.1.symm, fun i hi hi' => ?_⟩
  exact hstarts (hr.2 i _ _ (List.getElem?_eq_getElem hi') (List.getElem?_eq_getElem hi))

/-- In whatever order they are rebuilt. -/
theorem RebuiltFor.eq_of_perm (hr : RebuiltFor bytes exchanges)
    (hsent : (exchanges.map LogExchange.data).Perm (bytes.map Prod.fst))
    (hanswer : (exchanges.map fun e => (exchangeBytes e).2).Perm (bytes.map Prod.snd)) :
    exchanges.map exchangeBytes = bytes := by
  have hfirst : (exchanges.map exchangeBytes).map Prod.fst = bytes.map Prod.fst := by
    rw [List.map_map]
    exact eq_of_perm_of_prefix hsent (hr.forall₂ (f := Prod.fst) RebuiltFrom.sent)
  have hsecond : (exchanges.map exchangeBytes).map Prod.snd = bytes.map Prod.snd := by
    rw [List.map_map]
    exact eq_of_perm_of_prefix hanswer (hr.forall₂ (f := Prod.snd) RebuiltFrom.answer)
  rw [← List.zip_unzip (exchanges.map exchangeBytes), ← List.zip_unzip bytes, List.unzip_eq_map,
    List.unzip_eq_map, hfirst, hsecond]

variable {s : Heap × Parser} {history : History} {header : List UInt8} {p : Packet} {e : LogExchange}
  {before : List LogExchange} {streams : List (List UInt8)}

/-- A leaf that was found for a stream behind others spells it if it ends at a cut. -/
theorem bytesOf_leafFor {root leaf : NodeId} {before streams : List (List UInt8)} {data : List UInt8}
    (hs : Shown h root header streams) (hlength : header.length = cfg.headerLength)
    (hreach : Reachable (childIds h) root leaf) (hleaf : LeafFor h root leaf before data) (more : Heap) :
    data <+: bytesOf cfg (h ++ more) (some leaf) ∧
      (data = bytesOf cfg (h ++ more) (some leaf) ↔ EndsAtCut before data) := by
  obtain ⟨w, hw, hstarts, hcut⟩ := hleaf
  obtain ⟨x, hx⟩ := hs.linked.exists_node Reachable.root
  have hdata := hs.linked.getDataFromLeafNode hx hreach hw
  have hheader : x.data = header := by rw [← hs.header, forest_label hx]
  have hbytes : bytesOf cfg (h ++ more) (some leaf) = w := by
    rw [bytesOf, getDataFromLeafNode_steady (steady_append h more) hdata, Option.getD_some, hheader,
      ← hlength, List.drop_left]
  rw [hbytes, eq_comm]
  exact ⟨hstarts, hcut⟩

/-- What was answered last, if anything was. -/
theorem bytesOf_received (hs : Shown s.1 tree.receivedRoot header streams)
    (hlength : header.length = cfg.headerLength)
    (hreach : ∀ n ∈ p.receivedLeafNode, Reachable (childIds s.1) tree.receivedRoot n)
    (hsome : p.receivedLeafNode.isSome = !e.answers.isEmpty) (hleaves : PacketLeaves s.1 tree before p e)
    (more : Heap) :
    (exchangeBytes e).2 <+: bytesOf cfg (s.1 ++ more) p.receivedLeafNode ∧
      ((exchangeBytes e).2 = bytesOf cfg (s.1 ++ more) p.receivedLeafNode ↔
        ∀ answers last, e.answers = answers ++ [last] →
          EndsAtCut (before.flatMap LogExchange.answers ++ answers) last) := by
  cases hnode : p.receivedLeafNode with
  | none =>
    have hempty : e.answers = [] := by
      rw [hnode] at hsome
      simpa using hsome
    have hbytes : bytesOf cfg (s.1 ++ more) none = (exchangeBytes e).2 := by
      rw [exchangeBytes, hempty, bytesOf, getDataFromLeafNode_none]
      exact List.drop_nil
    rw [hbytes]
    refine ⟨List.prefix_refl _, iff_of_true rfl fun answers last hlast => ?_⟩
    rw [hempty] at hlast
    exact absurd hlast.symm (List.append_ne_nil_of_right_ne_nil _ (List.cons_ne_nil _ _))
  | some n =>
    obtain ⟨answers, last, hanswers, hleaf⟩ := hleaves.received n hnode
    obtain ⟨hstarts, hcut⟩ := bytesOf_leafFor hs hlength (hreach n hnode) hleaf more
    have hlast : (exchangeBytes e).2 = last := by
      rw [exchangeBytes, hanswers, List.getLast?_concat]
      rfl
    rw [hlast, hcut]
    refine ⟨hstarts, fun hends answers' last' heq => ?_, fun hall => hall answers last hanswers⟩
    obtain ⟨rfl, hsame⟩ := List.append_inj' (hanswers.symm.trans heq) rfl
    exact List.singleton_inj.mp hsame ▸ hends

/-- The packets of a log are rebuilt for its exchanges. -/
theorem rebuiltFor_of_recorded (hr : Recorded cfg.headerLength s history)
    (ht : s.2.packets.lookup (printHexBinary header) = some tree) (more : Heap) :
    RebuiltFor (tree.streamPackets.map (rebuiltBytes cfg (s.1 ++ more))) (history.exchangesOf header) := by
  have hnotes := hr.packets ht
  have hlengths := congrArg List.length hnotes
  rw [List.length_map, List.length_map] at hlengths
  refine ⟨by rw [List.length_map, hlengths], fun i b e hb he => ?_⟩
  rw [List.getElem?_map, Option.map_eq_some_iff] at hb
  obtain ⟨p, hp, rfl⟩ := hb
  have hmem := List.mem_of_getElem? hp
  have hleaves := hr.leaves ht i p e hp he
  have hnote : packetNote p = e.note := by
    have hat := congrArg (·[i]?) hnotes
    rw [List.getElem?_map, List.getElem?_map, hp, he, Option.map_some, Option.map_some] at hat
    exact Option.some.inj hat
  obtain ⟨hsent, hsent'⟩ := bytesOf_leafFor (hr.sent ht) (hr.length ht) (hr.transmittedLeaf ht p hmem)
    hleaves.transmitted more
  obtain ⟨hanswer, hanswer'⟩ := bytesOf_received (hr.received ht) (hr.length ht) (hr.receivedLeaf ht p hmem)
    (congrArg Prod.fst hnote) hleaves more
  exact ⟨hsent, hsent', hanswer, hanswer'⟩

/-- Every packet of a log has the time and the number of its exchange. -/
theorem packetDrawing_of_recorded (hr : Recorded cfg.headerLength s history)
    (ht : s.2.packets.lookup (printHexBinary header) = some tree)
    (hbytes : tree.streamPackets.map (rebuiltBytes cfg h) = (history.exchangesOf header).map exchangeBytes) :
    tree.streamPackets.map (packetDrawing cfg h) = (history.exchangesOf header).map exchangeDrawing := by
  have hnotes := congrArg (List.map fun note : Bool × ℤ × ℤ => (note.2.2, note.2.1)) (hr.packets ht)
  rw [List.map_map, List.map_map] at hnotes
  have hzip := congrArg₂ List.zip hbytes hnotes
  rwa [List.zip_map', List.zip_map'] at hzip

/-- The answers that are missing. -/
theorem answered_of_recorded (hr : Recorded cfg.headerLength s history)
    (ht : s.2.packets.lookup (printHexBinary header) = some tree) :
    Answered cfg tree.streamPackets ↔
      cfg.headerLength = 0 ∨ ∀ e ∈ history.exchangesOf header, e.answers ≠ [] := by
  have hsome := congrArg (List.map Prod.fst) (hr.packets ht)
  rw [List.map_map, List.map_map] at hsome
  have hpackets : (∀ p ∈ tree.streamPackets, p.receivedLeafNode ≠ none) ↔
      ∀ b ∈ tree.streamPackets.map (Prod.fst ∘ packetNote), b = true := by
    rw [List.forall_mem_map]
    exact forall₂_congr fun p _ => Option.isSome_iff_ne_none.symm
  have hexchanges : (∀ e ∈ history.exchangesOf header, e.answers ≠ []) ↔
      ∀ b ∈ (history.exchangesOf header).map (Prod.fst ∘ LogExchange.note), b = true := by
    rw [List.forall_mem_map]
    refine forall₂_congr fun e _ => ?_
    simp [LogExchange.note]
  rw [Answered, hpackets, hexchanges, hsome]

/-- Labels are made of the bytes. -/
theorem allLabelled_iff_of_bytes {packets : List Packet}
    (hbytes : packets.map (rebuiltBytes cfg h) = exchanges.map exchangeBytes) :
    AllLabelled cfg h packets ↔ ∀ e ∈ exchanges, HasLabel cfg (hexBinaryString cfg.bytesSeparator e.data) ∧
      HasLabel cfg (hexBinaryString cfg.bytesSeparator (exchangeBytes e).2) := by
  have hpackets : AllLabelled cfg h packets ↔ ∀ b ∈ packets.map (rebuiltBytes cfg h),
      HasLabel cfg (hexBinaryString cfg.bytesSeparator b.1) ∧
        HasLabel cfg (hexBinaryString cfg.bytesSeparator b.2) := by
    rw [List.forall_mem_map]
    rfl
  rw [hpackets, hbytes]
  exact List.forall_mem_map

/-- The root of a tree carries its header. -/
theorem root_of_recorded (hr : Recorded cfg.headerLength s history)
    (ht : s.2.packets.lookup (printHexBinary header) = some tree) (more : Heap) :
    ∃ x, (s.1 ++ more)[tree.root]? = some x ∧ x.data = header := by
  obtain ⟨x, hx, -⟩ := (hr.sent ht).linked.root
  refine ⟨x, (List.getElem?_append_left (List.getElem?_eq_some_iff.mp hx).1).trans hx, ?_⟩
  rw [← (hr.sent ht).header, forest_label hx]

/-- There is room for the texts of the tree if there is for those of the bytes. -/
theorem textsHaveRoom_iff {header : List UInt8} (hroot : ∃ x, h[tree.root]? = some x ∧ x.data = header)
    (hne : exchanges ≠ []) (hheader : ∀ e ∈ exchanges, e.header = header)
    (hbytes : tree.streamPackets.map (rebuiltBytes cfg h) = exchanges.map exchangeBytes) :
    TextsHaveRoom cfg h tree ↔ ∀ e ∈ exchanges, HasRoom cfg.bytesSeparator e.header ∧
      HasRoom cfg.bytesSeparator e.data ∧ HasRoom cfg.bytesSeparator (exchangeBytes e).2 := by
  obtain ⟨x, hx, rfl⟩ := hroot
  have hpackets : (∀ p ∈ tree.streamPackets, PacketHasRoom cfg h p) ↔
      ∀ e ∈ exchanges, HasRoom cfg.bytesSeparator e.data ∧
        HasRoom cfg.bytesSeparator (exchangeBytes e).2 := by
    have hall : (∀ p ∈ tree.streamPackets, PacketHasRoom cfg h p) ↔
        ∀ b ∈ tree.streamPackets.map (rebuiltBytes cfg h),
          HasRoom cfg.bytesSeparator b.1 ∧ HasRoom cfg.bytesSeparator b.2 := by
      rw [List.forall_mem_map]
      rfl
    rw [hall, hbytes, List.forall_mem_map]
    rfl
  constructor
  · intro hroom e he
    exact ⟨hheader e he ▸ hroom.root x hx, hpackets.mp hroom.packets e he⟩
  · intro hroom
    obtain ⟨e, he⟩ := List.exists_mem_of_ne_nil _ hne
    refine ⟨fun y hy => ?_, hpackets.mpr fun e he => (hroom e he).2⟩
    rw [← Option.some.inj (hx.symm.trans hy), ← hheader e he]
    exact (hroom e he).1

/-- Fewer nodes than an `int` has values do not come round. -/
theorem nodup_identifiers {root : NodeId} {nodes more : ℕ} (hroot : root < nodes)
    (hmore : nodes + more ≤ 2 ^ 31) :
    ((root :: List.range' nodes more).map identifier).Nodup := by
  have hlt : ∀ n ∈ root :: List.range' nodes more, n < 2 ^ 31 := by
    intro n hn
    rcases List.mem_cons.mp hn with rfl | hn
    · exact hroot.trans_le ((Nat.le_add_right _ _).trans hmore)
    · exact ((List.mem_range'_1.mp hn).2).trans_le hmore
  refine List.Nodup.map_on (fun a ha b hb heq => ?_) (List.nodup_cons.mpr ⟨fun hn => ?_, List.nodup_range'⟩)
  · rw [identifier_eq (hlt a ha), identifier_eq (hlt b hb)] at heq
    exact Int.ofNat_inj.mp heq
  · exact absurd (List.mem_range'_1.mp hn).1 (not_le.mpr hroot)

/-- What comes first ends where it is. -/
theorem endsAtCut_first (s : List UInt8) : EndsAtCut [] s :=
  Or.inr (Or.inl ⟨[], [], rfl, fun _ hs => absurd hs List.not_mem_nil⟩)

/-- A single exchange with at most one answer is spelled. -/
theorem spelledAsLogged_singleton (hanswers : e.answers.length ≤ 1) : SpelledAsLogged [e] := by
  intro before e' after heq
  obtain ⟨rfl, hrest⟩ : before = [] ∧ [e] = e' :: after := by
    cases before with
    | nil => exact ⟨rfl, heq⟩
    | cons x before => exact absurd (List.cons.inj heq).2 (by simp)
  obtain ⟨rfl, -⟩ := List.cons.inj hrest
  refine ⟨endsAtCut_first _, fun answers last hlast => ?_⟩
  obtain rfl : answers = [] := by
    rw [hlast, List.length_append, List.length_singleton] at hanswers
    exact List.length_eq_zero_iff.mp (Nat.le_zero.mp (Nat.le_of_succ_le_succ hanswers))
  exact endsAtCut_first _

/-- There is a tree for every header that is sent. -/
theorem exists_tree (headerLength : ℕ) (text : JavaString) (header : List UInt8)
    (hsome : (historyOf headerLength text).exchangesOf header ≠ []) :
    ∃ t, (parseFile headerLength text ([], newParser)).2.packets.lookup (printHexBinary header) = some t :=
  Option.ne_none_iff_exists'.mp (mt ((parseFile_recorded headerLength text).lookup_none header).mp hsome)

/-- A call that failed. -/
def failedCall : Transmission := { selectFile with result := scardFCommError }

end ApduPlay.DrawnLogs
