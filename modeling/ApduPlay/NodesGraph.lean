import ApduPlay.Library.DrawnTrees
import ApduPlay.PrintedTrees
import ApduPlay.SpelledTallies

/-!
# The graph of the nodes

One of the outputs shows the nodes of a tree: a line with the label of every node, and
the lines down to the leaves. Whoever knows the separator and the width can read the
bytes of the nodes and the edges back, and with them the streams of the tree, as long
as the identifiers of the nodes have not come to their limit.
-/

namespace ApduPlay.NodesGraph

open DrawnTrees LabelForest LineWrapping WordCuts TreeTraversal LogParser PacketGraph PacketNode PacketTree
  LinkedTrees SimplifiedTrees TreeRuns PrintedTrees WrappedText

/-- The loop of `printLabels`, with the number of rounds bounded. A loop that never ends
is an exception here as well. -/
def labelsLoop (cfg : PrintSettings) (hash : HashOrder) : ℕ → List NodeId → WriterM Unit
  | _, [] => pure ()
  | 0, _ :: _ => throw .nullPointer
  | rounds + 1, node :: queue => do
    println (.node (identifier node)
      (← label cfg (← toHexBinaryString cfg.bytesSeparator (← getData node))))
    labelsLoop cfg hash rounds (queue ++ (← getChildNodes hash node))

/-- `printLabels`; there are not more rounds than nodes. -/
def printLabels (cfg : PrintSettings) (hash : HashOrder) (node : NodeId) : WriterM Unit := do
  labelsLoop cfg hash (← get).1.length [node]

/-- `printTransmitted` -/
def printTransmitted (cfg : PrintSettings) (hash : HashOrder) (tree : Tree) : WriterM Unit := do
  printLabels cfg hash tree.root
  print hash tree.root

/-- `printReceived` -/
def printReceived (cfg : PrintSettings) (hash : HashOrder) (tree : Tree) : WriterM Unit := do
  printLabels cfg hash tree.receivedRoot
  print hash tree.receivedRoot

/-- A line of the output that was read. -/
inductive GraphLine
  /-- A node and its bytes. -/
  | label (n : NodeId) (data : List UInt8)
  /-- A way down. -/
  | path (nodes : List NodeId)
  deriving DecidableEq, Repr

/-- A number and what follows it. -/
def readNumber (text : JavaString) : Option (ℕ × JavaString) :=
  let digits := text.takeWhile Char.isDigit
  if digits = [] then none else some (Nat.ofDigitChars 10 digits 0, text.dropWhile Char.isDigit)

/-- Numbers with arrows between them, as many as there may be. -/
def readPath : ℕ → JavaString → Option (List NodeId)
  | 0, _ => none
  | rounds + 1, text => do
    let (n, rest) ← readNumber text
    if rest = [';'] then return [n]
    else if " -> ".toList.isPrefixOf rest then return n :: (← readPath rounds (rest.drop 4))
    else none

/-- Two digits for every byte, with separators of a length between them. -/
def readBytes (separatorLength : ℕ) : ℕ → JavaString → Option (List UInt8)
  | _, [] => some []
  | rounds + 1, c :: d :: text => do
    let high ← hexToBin c
    let low ← hexToBin d
    let bytes ← readBytes separatorLength rounds (text.drop separatorLength)
    return UInt8.ofNat (16 * high + low) :: bytes
  | _, _ => none

/-- A label without its breaks. -/
def unlabel (cfg : PrintSettings) (text : JavaString) : JavaString :=
  let width := wrapInt (cfg.wrapAfter * 3)
  if width ≤ 0 then text else unwrap width.toNat lineBreak.length text.length text

/-- The bytes of a label. -/
def readLabel (cfg : PrintSettings) (text : JavaString) : Option (List UInt8) :=
  readBytes (cfg.bytesSeparator.getD []).length text.length (unlabel cfg text)

/-- What is between the brackets of a label, if the line has one. -/
def labelBody (text : JavaString) : Option JavaString :=
  if " [label=<".toList.isPrefixOf text ∧ ">];".toList.isSuffixOf text then
    some ((text.drop 9).take (text.length - 12))
  else none

/-- A line of the output. -/
def readLine (cfg : PrintSettings) : JavaString → Option GraphLine
  | '\t' :: text => do
    let (n, rest) ← readNumber text
    match labelBody rest with
    | some body => return .label n (← readLabel cfg body)
    | none => return .path (← readPath text.length text)
  | _ => none

/-- The node of a line. -/
def GraphLine.labels : GraphLine → List (NodeId × List UInt8)
  | .label n data => [(n, data)]
  | .path _ => []

/-- The edges of a line. -/
def GraphLine.edges : GraphLine → List (NodeId × NodeId)
  | .label _ _ => []
  | .path nodes => PrintedTrees.edges nodes

/-- The drawing that the lines stand for. -/
def readGraph (cfg : PrintSettings) (lines : List JavaString) : Option (Drawing NodeId UInt8) := do
  let read ← lines.mapM (readLine cfg)
  return ⟨read.flatMap GraphLine.labels, read.flatMap GraphLine.edges⟩

variable {cfg : PrintSettings} {hash : HashOrder} {h h' : Heap} {root n : NodeId} {x : Node}

/-- Identifiers below the limit of an `int` are the numbers of their nodes. -/
theorem identifier_eq (hn : n < 2 ^ 31) : identifier n = n := by
  rw [identifier, wrapInt_natCast (hn.trans (by decide)), if_pos hn]

/-- The nodes of a way have such identifiers. -/
def Numbered (path : List NodeId) : Prop := ∀ n ∈ path, n < 2 ^ 31

/-- The identifiers on a path that is numbered are its nodes. -/
theorem map_identifier {path : List NodeId} (hpath : Numbered path) :
    (path.map fun n => PacketGraph.decimal (identifier n)) =
      path.map fun n : NodeId => PacketGraph.decimal n :=
  List.map_congr_left fun n hn => congrArg PacketGraph.decimal (identifier_eq (hpath n hn))

/-- The digits of a number that is not negative. -/
theorem decimal_natCast (n : ℕ) : PacketGraph.decimal n = Nat.toDigits 10 n := by
  show (n.repr).toList = _
  exact Nat.toList_repr

/-- A text begins with no digit. -/
theorem isDigit_head?_cons {c : Char} (hc : c.isDigit = false) (text : JavaString) :
    ∀ d ∈ (c :: text).head?, d.isDigit = false := by
  intro d hd
  cases hd
  exact hc

/-- A number is read up to what is no digit. -/
theorem readNumber_decimal (n : ℕ) {rest : JavaString} (hrest : ∀ c ∈ rest.head?, c.isDigit = false) :
    readNumber (PacketGraph.decimal n ++ rest) = some (n, rest) := by
  have hdigits : ∀ c ∈ Nat.toDigits 10 n, c.isDigit = true := fun c hc =>
    Nat.isDigit_of_mem_toDigits (by decide) (by decide) hc
  have hstop : rest.takeWhile Char.isDigit = [] ∧ rest.dropWhile Char.isDigit = rest := by
    cases rest with
    | nil => exact ⟨rfl, rfl⟩
    | cons c rest =>
      have hc : ¬ c.isDigit = true := Bool.eq_false_iff.mp (hrest c rfl)
      exact ⟨List.takeWhile_cons_of_neg hc, List.dropWhile_cons_of_neg hc⟩
  rw [decimal_natCast, readNumber, List.takeWhile_append_of_pos hdigits, List.dropWhile_append_of_pos hdigits,
    hstop.1, hstop.2, List.append_nil, if_neg Nat.toDigits_ne_nil, Nat.ofDigitChars_ten_toDigits]

/-- A way is read back. -/
theorem readPath_pathText {path : List NodeId} (hpath : path ≠ []) {rounds : ℕ}
    (hrounds : path.length ≤ rounds) :
    readPath rounds (" -> ".toList.intercalate (path.map fun n : NodeId => PacketGraph.decimal n) ++ [';']) =
      some path := by
  induction rounds generalizing path with
  | zero => exact absurd (List.eq_nil_of_length_eq_zero (Nat.le_zero.mp hrounds)) hpath
  | succ rounds ih =>
    cases path with
    | nil => exact absurd rfl hpath
    | cons n path =>
      cases path with
      | nil =>
        rw [List.map_singleton, List.intercalate_singleton, readPath,
          readNumber_decimal n (isDigit_head?_cons rfl [])]
        rfl
      | cons m path =>
        have hnext := ih (List.cons_ne_nil m path) (Nat.le_of_succ_le_succ hrounds)
        have hread : readNumber (PacketGraph.decimal n ++ (" -> ".toList ++ (" -> ".toList.intercalate
            ((m :: path).map fun n : NodeId => PacketGraph.decimal n) ++ [';']))) = some (n, _) :=
          readNumber_decimal n (isDigit_head?_cons rfl _)
        have harrow : " -> ".toList = [' ', '-', '>', ' '] := rfl
        rw [List.map_cons, List.map_cons, List.intercalate_cons_cons, List.append_assoc, List.append_assoc,
          ← List.map_cons (f := fun n : NodeId => PacketGraph.decimal n), readPath, hread]
        dsimp only [Option.bind_eq_bind, Option.bind_some]
        rw [if_neg (by simp [harrow]), if_pos (by simp [harrow]), harrow,
          List.drop_left' (by rfl : [' ', '-', '>', ' '].length = 4), ← harrow, hnext]
        rfl

/-- Two digits are read back. -/
theorem readBytes_hexByte (k rounds : ℕ) (b : UInt8) (text : JavaString) :
    readBytes k (rounds + 1) (hexByte b ++ text) =
      (readBytes k rounds (text.drop k)).map fun bytes => b :: bytes := by
  have hb := b.toNat_lt
  have hvalue : UInt8.ofNat (16 * (b.toNat / 16) + b.toNat % 16) = b := by
    rw [Nat.div_add_mod, UInt8.ofNat_toNat]
  rw [hexByte, List.cons_append, List.cons_append, List.nil_append, readBytes,
    LogLines.hexToBin_hexDigit _ (by omega), LogLines.hexToBin_hexDigit _ (by omega)]
  dsimp only [Option.bind_eq_bind, Option.bind_some]
  rw [hvalue]
  cases readBytes k rounds (text.drop k) <;> rfl

/-- The bytes of a text are read back, whatever the separator is. -/
theorem readBytes_hexBinaryString (bytesSeparator : Option JavaString) (bytes : List UInt8) {rounds : ℕ}
    (hrounds : bytes.length ≤ rounds) :
    readBytes (bytesSeparator.getD []).length rounds (hexBinaryString bytesSeparator bytes) = some
      bytes := by
  induction bytes generalizing rounds with
  | nil => cases rounds <;> rfl
  | cons b bytes ih =>
    obtain ⟨rounds, rfl⟩ := Nat.exists_eq_succ_of_ne_zero (Nat.ne_zero_of_lt (Nat.lt_of_succ_le hrounds))
    rw [hexBinaryString_cons, readBytes_hexByte]
    split_ifs with hbytes
    · subst hbytes
      cases rounds <;> simp [readBytes]
    · rw [List.drop_left' rfl, ih (Nat.le_of_succ_le_succ hrounds)]
      rfl

/-- A text is at least as long as its bytes. -/
theorem length_le_hexBinaryString (bytesSeparator : Option JavaString) (bytes : List UInt8) :
    bytes.length ≤ (hexBinaryString bytesSeparator bytes).length := by
  induction bytes with
  | nil => exact Nat.zero_le _
  | cons b bytes ih =>
    rw [hexBinaryString_cons]
    split_ifs with hbytes
    · simp [hbytes, hexByte]
    · simp only [List.length_append, List.length_cons, hexByte]
      omega

/-- A label in lines. -/
theorem labelText_eq (cfg : PrintSettings) (text : JavaString) : labelText cfg text =
    if wrapInt (cfg.wrapAfter * 3) ≤ 0 then text
    else (wrap (wrapInt (cfg.wrapAfter * 3)).toNat lineBreak (wrapInt (cfg.wrapAfter * 3)).toNat
      text).1 := by
  have hfirst : firstLine (wrapInt (cfg.wrapAfter * 3)) (-1) = wrapInt (cfg.wrapAfter * 3) := rfl
  rw [labelText, wrapped]
  split_ifs
  · rfl
  · rw [hfirst]

/-- A label is at least as long as its text. -/
theorem length_le_label (cfg : PrintSettings) (text : JavaString) :
    text.length ≤ (labelText cfg text).length := by
  rw [labelText_eq]
  split_ifs
  · exact Nat.le_refl _
  · exact length_le_wrap _ _ _ _

/-- A label says what was wrapped. -/
theorem unlabel_label (cfg : PrintSettings) (text : JavaString) :
    unlabel cfg (labelText cfg text) = text := by
  rw [unlabel]
  have hlength := length_le_label cfg text
  rw [labelText_eq] at hlength ⊢
  split_ifs with hwidth
  · rfl
  · rw [if_neg hwidth] at hlength
    exact unwrap_wrap (by omega) (by decide) text hlength

/-- A label is read back from its line. -/
theorem labelBody_eq (body : JavaString) :
    labelBody (" [label=<".toList ++ body ++ ">];".toList) = some body := by
  have hlengths : " [label=<".toList.length = 9 ∧ ">];".toList.length = 3 := by decide
  have hbegins : " [label=<".toList.isPrefixOf (" [label=<".toList ++ body ++ ">];".toList) = true := by
    rw [List.isPrefixOf_iff_prefix, List.append_assoc]
    exact List.prefix_append _ _
  have hsuffix : ">];".toList.isSuffixOf (" [label=<".toList ++ body ++ ">];".toList) = true := by
    rw [List.isSuffixOf_iff_suffix]
    exact List.suffix_append _ _
  rw [labelBody, if_pos ⟨hbegins, hsuffix⟩, List.append_assoc, List.drop_left' hlengths.1]
  refine congrArg some (List.take_left' ?_)
  rw [List.length_append, List.length_append, hlengths.1, hlengths.2]
  omega

/-- The bytes of a label are read back. -/
theorem readLabel_labelText (cfg : PrintSettings) (data : List UInt8) :
    readLabel cfg (labelText cfg (hexBinaryString cfg.bytesSeparator data)) = some data := by
  rw [readLabel, unlabel_label]
  exact readBytes_hexBinaryString cfg.bytesSeparator data
    ((length_le_hexBinaryString cfg.bytesSeparator data).trans (length_le_label cfg _))

/-- The line of a node is read back. -/
theorem readLine_node (cfg : PrintSettings) (hn : n < 2 ^ 31) (data : List UInt8) :
    readLine cfg (Statement.node (identifier n)
      (labelText cfg (hexBinaryString cfg.bytesSeparator data))).text = some (.label n data) := by
  have hlabel := readLabel_labelText cfg data
  have htext : (Statement.node n (labelText cfg (hexBinaryString cfg.bytesSeparator data))).text =
      '\t' :: (PacketGraph.decimal n ++ (" [label=<".toList ++
        labelText cfg (hexBinaryString cfg.bytesSeparator data) ++ ">];".toList)) := by
    simp only [Statement.text, List.append_assoc]
    rfl
  have hread : readNumber (PacketGraph.decimal n ++ (" [label=<".toList ++
      labelText cfg (hexBinaryString cfg.bytesSeparator data) ++ ">];".toList)) = some (n, _) :=
    readNumber_decimal n (isDigit_head?_cons rfl _)
  rw [identifier_eq hn, htext, readLine, hread]
  dsimp only [Option.bind_eq_bind, Option.bind_some]
  rw [labelBody_eq]
  dsimp only
  rw [hlabel]
  rfl

/-- How the text of a way begins. -/
theorem exists_pathText (n : NodeId) (path : List NodeId) : ∃ rest,
    " -> ".toList.intercalate ((n :: path).map fun n : NodeId => PacketGraph.decimal n) ++ [';'] =
        PacketGraph.decimal n ++ rest ∧
      (∀ c ∈ rest.head?, c.isDigit = false) ∧ labelBody rest = none := by
  cases path with
  | nil => exact ⟨[';'], by simp, isDigit_head?_cons rfl [], by decide⟩
  | cons m path =>
    refine ⟨" -> ".toList ++ (" -> ".toList.intercalate
      ((m :: path).map fun n : NodeId => PacketGraph.decimal n) ++ [';']), ?_, ?_, ?_⟩
    · rw [List.map_cons, List.map_cons, List.intercalate_cons_cons]
      simp only [List.append_assoc]
    · exact isDigit_head?_cons rfl _
    · exact if_neg fun hlabel => absurd hlabel.1 (by simp)

/-- The text of a path is at least as long as the path. -/
theorem length_le_pathText (path : List NodeId) : path.length ≤
    (" -> ".toList.intercalate (path.map fun n : NodeId => PacketGraph.decimal n) ++ [';']).length := by
  induction path with
  | nil => exact Nat.zero_le _
  | cons n path ih =>
    cases path with
    | nil => simp
    | cons m path =>
      rw [List.map_cons, List.map_cons, List.intercalate_cons_cons, ← List.map_cons (f := fun n : NodeId =>
        PacketGraph.decimal n)]
      have harrow : " -> ".toList.length = 4 := by decide
      simp only [List.length_append, List.length_cons, harrow] at ih ⊢
      omega

/-- The line of a way is read back. -/
theorem readLine_pathText (cfg : PrintSettings) {path : List NodeId} (hpath : path ≠ [])
    (hnumbers : Numbered path) : readLine cfg (pathText path) = some (.path path) := by
  have htext : pathText path = '\t' :: (" -> ".toList.intercalate
      (path.map fun n : NodeId => PacketGraph.decimal n) ++ [';']) := by
    simp only [pathText, map_identifier hnumbers, List.append_assoc]
    rfl
  obtain ⟨n, path, rfl⟩ := List.exists_cons_of_ne_nil hpath
  obtain ⟨rest, hrest, hdigit, hbody⟩ := exists_pathText n path
  rw [htext, readLine, hrest, readNumber_decimal n hdigit, ← hrest]
  dsimp only [Option.bind_eq_bind, Option.bind_some]
  rw [hbody]
  dsimp only
  rw [readPath_pathText hpath (length_le_pathText _)]
  rfl

/-- The line of a node. -/
def nodeLine (cfg : PrintSettings) (h : Heap) (n : NodeId) : JavaString :=
  (Statement.node (identifier n)
    (labelText cfg (hexBinaryString cfg.bytesSeparator ((forest h).label n)))).text

/-- There is room for the texts of all nodes of a tree, and labels can be made of them. -/
def NodesLabelled (cfg : PrintSettings) (h : Heap) (root : NodeId) : Prop :=
  ∀ n, Reachable (childIds h) root n → HasRoom cfg.bytesSeparator ((forest h).label n) ∧
    HasLabel cfg (hexBinaryString cfg.bytesSeparator ((forest h).label n))

variable {visited queue : List NodeId} {rounds : ℕ}

/-- The loop writes the line of every node. -/
theorem labelsLoop_ok (hash : HashOrder) (hl : Linked h root) (hlabels : NodesLabelled cfg h root)
    (hrounds : h.length ≤ visited.length + rounds) (hs : Frontier (childIds h) root visited queue)
    (out : List JavaString) :
    ∃ visited', labelsLoop cfg hash rounds queue (h, out ++ visited.map (nodeLine cfg h)) =
        .ok () (h, out ++ visited'.map (nodeLine cfg h)) ∧
      Frontier (childIds h) root visited' [] ∧ visited ++ queue.take 1 <+: visited' := by
  induction rounds generalizing visited queue with
  | zero =>
    cases queue with
    | nil => exact ⟨visited, rfl, hs, by simp⟩
    | cons n queue =>
      have hlt := hs.length_lt fun n hn => (hl.exists_node hn).elim fun x hx => lt_length hx
      exact absurd hrounds (by omega)
  | succ rounds ih =>
    cases queue with
    | nil => exact ⟨visited, rfl, hs, by simp⟩
    | cons n queue =>
      obtain ⟨x, hx⟩ := hl.exists_node (hs.reachable n (by simp))
      have hnext := hs.visit hl.isTree ((hash.perm (childIds h n)).append_left queue)
      obtain ⟨visited', hrun, hend, hfirst⟩ :=
        ih (by rw [List.length_append, List.length_singleton]; omega) hnext
      refine ⟨visited', ?_, hend, (List.prefix_append _ _).trans hfirst⟩
      have hline : nodeLine cfg h n =
          (Statement.node (identifier n)
            (labelText cfg (hexBinaryString cfg.bytesSeparator x.data))).text := by
        rw [nodeLine, forest_label hx]
      obtain ⟨hroom, hlabel⟩ := hlabels n (hs.reachable n (by simp))
      rw [forest_label hx] at hroom hlabel
      rw [labelsLoop]
      refine (bind_ok (lift_ok (getData_ok hx) _)).trans
        ((bind_ok (lift_eq_ok (toHexBinaryString_ok hroom) _)).trans
          ((bind_ok (lift_eq_ok hlabel.label_eq _)).trans ((bind_ok (println_ok _ _ _)).trans
            ((bind_ok (lift_ok (getChildNodes_ok hash hx) _)).trans ?_))))
      rwa [List.append_assoc, ← hline, ← List.map_singleton (f := nodeLine cfg h), ← List.map_append]

/-- The line that is read as this. -/
def GraphLine.text (cfg : PrintSettings) : GraphLine → JavaString
  | .label n data => (Statement.node (identifier n)
    (labelText cfg (hexBinaryString cfg.bytesSeparator data))).text
  | .path nodes => pathText nodes

/-- A line that can be read back. -/
def GraphLine.Readable : GraphLine → Prop
  | .label n _ => n < 2 ^ 31
  | .path nodes => nodes ≠ [] ∧ Numbered nodes

/-- A line is read back. -/
theorem readLine_text {item : GraphLine} (hitem : item.Readable) :
    readLine cfg (item.text cfg) = some item := by
  cases item with
  | label n data => exact readLine_node cfg hitem data
  | path nodes => exact readLine_pathText cfg hitem.1 hitem.2

/-- So are all lines. -/
theorem readLines_text {items : List GraphLine} (hitems : ∀ item ∈ items, item.Readable) :
    (items.map (GraphLine.text cfg)).mapM (readLine cfg) = some items := by
  induction items with
  | nil => rfl
  | cons item items ih =>
    obtain ⟨hitem, hitems⟩ := List.forall_mem_cons.mp hitems
    rw [List.map_cons, List.mapM_cons, readLine_text hitem, ih hitems]
    rfl

/-- The node and its bytes. -/
def drawnNode (h : Heap) (n : NodeId) : NodeId × List UInt8 := (n, (forest h).label n)

/-- The ways that are written are not empty, and have the edges of the tree. -/
theorem print_edges (hash : HashOrder) (hl : Linked h root) (out : List JavaString) :
    ∃ paths : List (List NodeId), print hash root (h, out) = .ok () (h, out ++ paths.map pathText) ∧
      (∀ path ∈ paths, path ≠ [] ∧ ∀ n ∈ path, n < h.length) ∧
      ∀ p c, (p, c) ∈ paths.flatMap PrintedTrees.edges ↔
        Reachable (childIds h) root p ∧ c ∈ childIds h p := by
  obtain ⟨visited, paths, hrun, hs⟩ :=
    printLoop_ok hash hl (Nat.le_add_left h.length 0) (printed_start h root) out
  have hmem {n : NodeId} : n ∈ visited ↔ Reachable (childIds h) root n := hs.frontier.mem_visited_iff
  have hout : out ++ ([] : List (List NodeId)).map pathText = out := List.append_nil out
  rw [hout] at hrun
  refine ⟨paths, hrun, ?_, fun p c => ?_⟩
  · refine fun path hpath => ⟨?_, fun n hn => ?_⟩
    · rintro rfl
      obtain ⟨n, hn, -⟩ := (hs.downToLeaf [] hpath).leaf
      cases hn
    · obtain ⟨x, hx⟩ := hl.exists_node (hmem.mp (hs.passed path (List.mem_cons_of_mem _ hpath) hn))
      exact lt_length hx
  · have hedges := hs.edges p c
    have hnone : PrintedTrees.edges [] = [] := rfl
    rw [hnone, List.append_nil, hmem, hmem] at hedges
    rw [hedges]
    exact ⟨And.right, fun h => ⟨.child h.1 h.2, h⟩⟩

/-- The lines of the labels and of the ways draw the tree. -/
theorem draws_of_edges {paths : List (List NodeId)} (hend : Frontier (childIds h) root visited [])
    (hedges : ∀ p c, (p, c) ∈ paths.flatMap PrintedTrees.edges ↔
      Reachable (childIds h) root p ∧ c ∈ childIds h p) :
    Draws ⟨visited.map (drawnNode h), paths.flatMap PrintedTrees.edges⟩ (forest h) (childIds h) root where
  nodup := by
    have hnodup := hend.nodup
    rw [List.append_nil] at hnodup
    rw [List.map_map]
    exact (List.map_id visited).symm ▸ hnodup
  labels n data := by
    rw [List.mem_map]
    constructor
    · rintro ⟨n, hn, heq⟩
      obtain ⟨rfl, rfl⟩ := Prod.mk.inj heq
      exact ⟨hend.mem_visited_iff.mp hn, rfl⟩
    · rintro ⟨hn, rfl⟩
      exact ⟨n, hend.mem_visited_iff.mpr hn, rfl⟩
  edges := hedges

/-- The lines of labels and ways. -/
def graphLines (h : Heap) (visited : List NodeId) (paths : List (List NodeId)) : List GraphLine :=
  visited.map (fun n => .label n ((forest h).label n)) ++ paths.map .path

/-- The labels are those of the nodes that were visited. -/
theorem labels_graphLines (h : Heap) (visited : List NodeId) (paths : List (List NodeId)) :
    (graphLines h visited paths).flatMap GraphLine.labels = visited.map (drawnNode h) := by
  have hnone : paths.flatMap (fun path => (GraphLine.path path).labels) = [] :=
    List.flatMap_eq_nil_iff.mpr fun _ _ => rfl
  rw [graphLines, List.flatMap_append, List.flatMap_map, List.flatMap_map, hnone, List.append_nil,
    ← List.flatMap_singleton' (visited.map (drawnNode h)), List.flatMap_map]
  rfl

/-- The edges are those of the paths. -/
theorem edges_graphLines (h : Heap) (visited : List NodeId) (paths : List (List NodeId)) :
    (graphLines h visited paths).flatMap GraphLine.edges = paths.flatMap PrintedTrees.edges := by
  have hnone : visited.flatMap (fun n => (GraphLine.label n ((forest h).label n)).edges) = [] :=
    List.flatMap_eq_nil_iff.mpr fun _ _ => rfl
  rw [graphLines, List.flatMap_append, List.flatMap_map, List.flatMap_map, hnone, List.nil_append]
  rfl

/-- With at most as many nodes as there are identifiers from 0 on all lines can be read back. -/
theorem readable_graphLines {paths : List (List NodeId)} (hnodes : h.length ≤ 2 ^ 31)
    (hvisited : ∀ n ∈ visited, n < h.length)
    (hpaths : ∀ path ∈ paths, path ≠ [] ∧ ∀ n ∈ path, n < h.length) :
    ∀ item ∈ graphLines h visited paths, item.Readable := by
  intro item hitem
  rcases List.mem_append.mp hitem with hitem | hitem
  · obtain ⟨n, hn, rfl⟩ := List.mem_map.mp hitem
    exact (hvisited n hn).trans_le hnodes
  · obtain ⟨path, hpath, rfl⟩ := List.mem_map.mp hitem
    exact ⟨(hpaths path hpath).1, fun n hn => ((hpaths path hpath).2 n hn).trans_le hnodes⟩

/-- Labels and ways of a tree are written, and what is read back is a drawing of the tree. -/
theorem print_draws (hash : HashOrder) (hl : Linked h root) (hlabels : NodesLabelled cfg h root)
    (out : List JavaString) :
    ∃ lines g, (do printLabels cfg hash root; print hash root : WriterM Unit) (h, out) =
        .ok () (h, out ++ lines) ∧ (h.length ≤ 2 ^ 31 → readGraph cfg lines = some g) ∧
      g.labels.head? = some (drawnNode h root) ∧ Draws g (forest h) (childIds h) root := by
  obtain ⟨visited, hlabels, hend, hroot⟩ := labelsLoop_ok hash hl hlabels
    (Nat.le_add_left h.length 0) (frontier_start _ _) out
  obtain ⟨paths, hpaths, hpassed, hedges⟩ := print_edges hash hl (out ++ visited.map (nodeLine cfg h))
  have hlines : (graphLines h visited paths).map (GraphLine.text cfg) =
      visited.map (nodeLine cfg h) ++ paths.map pathText := by
    rw [graphLines, List.map_append, List.map_map, List.map_map]
    rfl
  have hstart : out ++ ([] : List NodeId).map (nodeLine cfg h) = out := List.append_nil out
  rw [hstart] at hlabels
  have hrun : printLabels cfg hash root (h, out) = .ok () (h, out ++ visited.map (nodeLine cfg h)) := hlabels
  refine ⟨(graphLines h visited paths).map (GraphLine.text cfg),
    ⟨visited.map (drawnNode h), paths.flatMap PrintedTrees.edges⟩, ?_, fun hnodes => ?_, ?_,
    draws_of_edges hend hedges⟩
  · rw [hlines, ← List.append_assoc]
    exact (bind_ok hrun).trans hpaths
  · have hvisited (n : NodeId) (hn : n ∈ visited) : n < h.length := by
      obtain ⟨x, hx⟩ := hl.exists_node (hend.mem_visited_iff.mp hn)
      exact lt_length hx
    rw [readGraph, readLines_text (readable_graphLines hnodes hvisited hpassed),
      ← labels_graphLines h visited paths, ← edges_graphLines h visited paths]
    rfl
  · obtain ⟨rest, rfl⟩ := hroot
    rfl

/-- What the tree below a root spells, and the beginnings of it. -/
def spelledWords (h : Heap) (root : NodeId) : Set (List UInt8) := treeWords (forest h) (childIds h) root

/-- In a heap without stale nodes a tree spells the beginnings of its streams. -/
theorem spelledWords_of_holds {header : List UInt8} {streams : List (List UInt8)} (hw : WellFormed h)
    (hh : HoldsStreams h root header streams) : spelledWords h root = pathsOf streams := by
  rw [spelledWords, treeWords_eq_paths fun hs => reachable_of_spells hw hs, hh.represents.paths_eq]

/-- Simplification leaves them as they are. -/
theorem spelledWords_simplified (hl : Linked h root) (hs : Simplified h h' root) :
    spelledWords h' root = spelledWords h root := by
  ext u
  constructor
  · rintro ⟨i, w, ⟨hi, hw⟩, hu⟩
    by_cases hne : i = root
    · subst hne
      have hnil := hw.word_unique hs.linked.spells_root
      exact ⟨i, [], ⟨.root, hl.spells_root⟩, hnil ▸ hu⟩
    · obtain ⟨x, hx⟩ := hs.linked.exists_node hi
      obtain ⟨n, z, p, v, d, hn, hz, hp, hv, hd, -, rfl, -⟩ := SpelledTallies.exists_old hl hs hi hw hne hx
      have hword := Spells.child (n := n) hv (by rw [forest_parent hz, hp])
      rw [forest_label hz] at hword
      exact ⟨n, _, ⟨hn, hword⟩, hu.trans ((List.prefix_append_right_inj v).mpr hd)⟩
  · rintro ⟨i, w, ⟨hi, hw⟩, hu⟩
    exact ⟨i, w, ⟨hs.reachable hi, hs.spells hi hw⟩, hu⟩

/-- A half of the output: it can be read back, begins with the header, and the words
along its edges are the beginnings of the streams. -/
def ShowsStreams (cfg : PrintSettings) (header : List UInt8) (streams : List (List UInt8))
    (lines : List JavaString) : Prop :=
  ∃ g root, readGraph cfg lines = some g ∧ g.labels.head? = some (root, header) ∧
    (g.labels.map Prod.fst).Nodup ∧ g.words root = pathsOf streams

/-- A half of a tree that shows streams. -/
structure Shown (h : Heap) (root : NodeId) (header : List UInt8) (streams : List (List UInt8)) : Prop where
  /-- It is a tree. -/
  linked : Linked h root
  /-- Its root has the header. -/
  header : (forest h).label root = header
  /-- It spells the beginnings of the streams. -/
  words : spelledWords h root = pathsOf streams

variable {header : List UInt8} {streams : List (List UInt8)}

/-- There is room for the bytes and for fewer bytes, and a label can be made of them. -/
def Short (cfg : PrintSettings) (data : List UInt8) : Prop :=
  data.length * ((cfg.bytesSeparator.getD []).length + 2) ≤ 2 ^ 30

/-- Short data and what is shorter have labels. -/
theorem Short.hasLabel {data data' : List UInt8} (hshort : Short cfg data)
    (hle : data'.length ≤ data.length) :
    HasRoom cfg.bytesSeparator data' ∧ HasLabel cfg (hexBinaryString cfg.bytesSeparator data') := by
  have hshort' : data'.length * ((cfg.bytesSeparator.getD []).length + 2) ≤ 2 ^ 30 :=
    (Nat.mul_le_mul_right _ hle).trans hshort
  have hlength := length_hexBinaryString cfg.bytesSeparator data'
  rw [Nat.add_comm 2] at hlength
  exact ⟨lt_of_le_of_lt hshort' (by decide),
    wrappable_of_short (isInt_wrapInt _).2 (by omega)⟩

/-- The bytes of the nodes are those of the header or of a piece of a stream. -/
theorem Shown.nodesLabelled (hs : Shown h root header streams) (hheader : Short cfg header)
    (hstreams : ∀ s ∈ streams, Short cfg s) : NodesLabelled cfg h root := by
  intro n hn
  by_cases hroot : n = root
  · subst hroot
    rw [hs.header]
    exact hheader.hasLabel le_rfl
  · obtain ⟨x, p, b, hx, hparent, -, hp, -⟩ := hs.linked.exists_parent hn hroot
    obtain ⟨v, hv⟩ := hs.linked.exists_spells hp
    have hspells := Spells.child hv (n := n) (by rw [forest_parent hx, hparent])
    have hword : v ++ (forest h).label n ∈ spelledWords h root := ⟨n, _, ⟨hn, hspells⟩, List.prefix_refl _⟩
    rw [hs.words] at hword
    have hlength : (forest h).label n = [] ∨ ∃ s ∈ streams, ((forest h).label n).length ≤ s.length := by
      rcases hword with hnil | ⟨s, hmem, hpre⟩
      · exact Or.inl (List.append_eq_nil_iff.mp hnil).2
      · refine Or.inr ⟨s, hmem, le_trans ?_ hpre.length_le⟩
        rw [List.length_append]
        exact Nat.le_add_left _ _
    rcases hlength with hnil | ⟨s, hmem, hle⟩
    · exact hheader.hasLabel (by rw [hnil]; exact Nat.zero_le _)
    · exact (hstreams s hmem).hasLabel hle

/-- It is printed so. -/
theorem Shown.print (hs : Shown h root header streams) (hheader : Short cfg header)
    (hstreams : ∀ s ∈ streams, Short cfg s) (hash : HashOrder) (out : List JavaString) :
    ∃ lines, (do printLabels cfg hash root; print hash root : WriterM Unit) (h, out) =
        .ok () (h, out ++ lines) ∧ (h.length ≤ 2 ^ 31 → ShowsStreams cfg header streams lines) := by
  obtain ⟨lines, g, hrun, hread, hroot, hdraws⟩ :=
    print_draws hash hs.linked (hs.nodesLabelled hheader hstreams) out
  refine ⟨lines, hrun, fun hnodes => ⟨g, root, hread hnodes, ?_, hdraws.nodup, ?_⟩⟩
  · rw [hroot, drawnNode, hs.header]
  · have hparent : (fun n => h[n]?.bind Node.parent) = (forest h).parent := rfl
    exact (hdraws.words_eq (hparent ▸ hs.linked.isTree)).trans hs.words

/-- Simplification changes nothing about it. -/
theorem Shown.simplified (hs : Shown h root header streams) (hsimple : Simplified h h' root) :
    Shown h' root header streams where
  linked := hsimple.linked
  header := by
    obtain ⟨x, hx, -⟩ := hs.linked.root
    obtain ⟨x', hx', -⟩ := hsimple.linked.root
    have hroot := hsimple.root
    rw [hx, hx', Option.map_some, Option.map_some, Option.some.injEq] at hroot
    rw [forest_label hx', hroot, ← forest_label hx, hs.header]
  words := (spelledWords_simplified hs.linked hsimple).trans hs.words

/-- Neither does what is not in the tree. -/
theorem Shown.frame (hs : Shown h root header streams)
    (hsame : ∀ {i : NodeId}, Reachable (childIds h) root i → h'[i]? = h[i]?) :
      Shown h' root header streams := by
  obtain ⟨hl', hreach⟩ := hs.linked.frame hsame
  obtain ⟨x, hx, -⟩ := hs.linked.root
  have hx' := (hsame .root).trans hx
  refine ⟨hl', by rw [forest_label hx', ← forest_label hx, hs.header], ?_⟩
  rw [← hs.words]
  ext u
  constructor
  · rintro ⟨i, w, ⟨hi, hw⟩, hu⟩
    exact ⟨i, w, ⟨(hreach i).mp hi,
      hl'.spells_frame (fun hi => (hsame ((hreach _).mp hi)).symm) hi hw⟩, hu⟩
  · rintro ⟨i, w, ⟨hi, hw⟩, hu⟩
    exact ⟨i, w, ⟨(hreach i).mpr hi, hs.linked.spells_frame hsame hi hw⟩, hu⟩

/-- Streams that a tree holds are shown. -/
theorem shown_of_holds (hw : WellFormed h) (hh : HoldsStreams h root header streams) :
    Shown h root header streams := by
  obtain ⟨x, hx, hparent, rfl⟩ := hh.header
  exact ⟨linked_of_wellFormed hw hx hparent, forest_label hx, spelledWords_of_holds hw hh⟩

/-- What is done before, if `isSimpleNodes` is set. -/
def simplified (simpleNodes : Bool) (hash : HashOrder) (tree : Tree) : JavaM Unit :=
  if simpleNodes then simplifyNodes hash tree else pure ()

end ApduPlay.NodesGraph
