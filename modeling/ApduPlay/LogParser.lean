import Mathlib.Algebra.Ring.Int.Defs
import Mathlib.Algebra.Ring.Nat
import Mathlib.Data.List.DropRight
import ApduPlay.PacketTree

/-!
# The log parser

A log is read line by line. A line of two parts around a colon is handled by
its key: transmitted bytes start or extend the tree of their header, the
response time and the response go to the packet added last to that tree. An
exception ends the parse and leaves what was recorded before.
-/

namespace ApduPlay.LogParser

open PacketNode PacketTree

/-- A Java string, here as its characters. -/
abbrev JavaString := List Char

/-- The fields of the parser that change. -/
structure Parser where
  /-- Number given to the next response time. -/
  ac : ℤ
  /-- The trees by the text of their header. -/
  packets : AList (fun _ : String => Tree)
  /-- Header of the bytes transmitted last, null before. -/
  lastProcessedPacket : Option String
  /-- Messages for the logger. -/
  errors : List String

/-- A parser as its constructor leaves it. -/
def newParser : Parser := ⟨1, ∅, none, []⟩

/-- Computations on the nodes and the parser that may end with an exception. -/
abbrev ParserM := JavaWith Parser

/-- The characters that end a line for a scanner. -/
def isLineSeparator (c : Char) : Bool :=
  c == '\n' || c == '\r' || c == '\u0085' || c == '\u2028' || c == '\u2029'

/-- The lines a scanner returns; a carriage return takes the line feed behind
it along. -/
def scannerLines : JavaString → List JavaString
  | [] => []
  | '\r' :: '\n' :: text => [] :: scannerLines text
  | c :: text =>
    if isLineSeparator c then [] :: scannerLines text
    else
      match scannerLines text with
      | [] => [[c]]
      | line :: lines => (c :: line) :: lines

/-- `String.split` at one character: empty parts at the end are left out. -/
def split (c : Char) (text : JavaString) : List JavaString :=
  if c ∈ text then (text.splitOn c).rdropWhile List.isEmpty else [text]

/-- Key and value of a line, if it has two parts. -/
def processLine (line : JavaString) : Option (JavaString × JavaString) :=
  match split ':' line with
  | [key, value] => some (key, value)
  | _ => none

/-- `String.trim` -/
def trim (text : JavaString) : JavaString := (text.dropWhile (· ≤ ' ')).rdropWhile (· ≤ ' ')

/-- Blanks are removed, other white space only at the ends. -/
def normalizeHexString (text : JavaString) : JavaString := (trim text).filter (· != ' ')

/-- Value of a hexadecimal digit. -/
def hexToBin (c : Char) : Option ℕ :=
  if '0' ≤ c ∧ c ≤ '9' then some (c.toNat - 48)
  else if 'A' ≤ c ∧ c ≤ 'F' then some (c.toNat - 55)
  else if 'a' ≤ c ∧ c ≤ 'f' then some (c.toNat - 87)
  else none

/-- The bytes of a hexadecimal text, if it is one. -/
def hexBinary : JavaString → Option (List UInt8)
  | [] => some []
  | [_] => none
  | c :: d :: text => do
    let high ← hexToBin c
    let low ← hexToBin d
    let bytes ← hexBinary text
    return UInt8.ofNat (16 * high + low) :: bytes

/-- `DatatypeConverter.parseHexBinary` -/
def parseHexBinary (text : JavaString) : ParserM (List UInt8) :=
  match hexBinary text with
  | some bytes => pure bytes
  | none => throw .illegalArgument

/-- The number that digits write, if there are any and it is an `int`. -/
def intOfDigits (digits : JavaString) : Option ℤ :=
  if digits ≠ [] ∧ Nat.ofDigitChars 10 digits 0 < 2 ^ 31 then some (Nat.ofDigitChars 10 digits 0) else none

/-- `Integer.parseInt` of a text of digits. -/
def parseInt (digits : JavaString) : ParserM ℤ :=
  match intOfDigits digits with
  | some n => pure n
  | none => throw .illegalArgument

/-- The fields of the parser. -/
def getFields : ParserM Parser := do
  return (← get).2

/-- Assign to fields of the parser. -/
def setFields (f : Parser → Parser) : ParserM Unit :=
  modify fun s => (s.1, f s.2)

/-- `packets.put` -/
def putTree (header : String) (tree : Tree) : ParserM Unit :=
  setFields fun p => { p with packets := p.packets.insert header tree }

/-- The tree of the bytes transmitted last, if any. -/
def lastTree : ParserM (Option (String × Tree)) := do
  let p ← getFields
  return p.lastProcessedPacket.bind fun header => (p.packets.lookup header).map fun tree => (header, tree)

/-- Transmitted bytes are a header and data for its tree. -/
def handleTransmittedData (headerLength : ℕ) (data : List UInt8) : ParserM Unit := do
  let packetHeader ← copyOfRange data 0 headerLength
  let packetData ← copyOfRange data headerLength data.length
  let header := printHexBinary packetHeader
  match (← getFields).packets.lookup header with
  | none =>
    let tree ← newTree packetHeader packetData
    putTree tree.header tree
  | some existingTree =>
    let tree ← merge existingTree packetData
    putTree header tree
  setFields fun p => { p with lastProcessedPacket := some header }

/-- A response belongs to the bytes transmitted last. -/
def handleReceivedData (data : List UInt8) : ParserM Unit := do
  match ← lastTree with
  | none =>
    setFields fun p => { p with
      errors := p.errors ++ ["Packet \"" ++ printHexBinary data ++ "\" not found as parsed tree"] }
  | some (header, tree) =>
    let tree ← addReceivedData tree data
    putTree header tree

/-- The digits of a response time, together with the running number. -/
def handleResponseTime (time : JavaString) : ParserM Unit := do
  let tree ← lastTree
  let responseTime ← parseInt (time.filter Char.isDigit)
  let ac := (← getFields).ac
  setFields fun p => { p with ac := (p.ac + 1).bmod (2 ^ 32) }
  match tree with
  | none => throw .nullPointer
  | some (header, tree) => putTree header (setAdditionalInfoForLastPacket tree responseTime ac)

/-- A pair is handled by its key. -/
def handleABDULine (headerLength : ℕ) : Option (JavaString × JavaString) → ParserM Unit
  | none => pure ()
  | some (key, value) =>
    if key = "transmitted".toList then do
      handleTransmittedData headerLength (← parseHexBinary (normalizeHexString value))
    else if key = "received".toList then do
      handleReceivedData (← parseHexBinary (normalizeHexString value))
    else if key = "responseTime".toList then handleResponseTime value
    else pure ()

/-- One line of the log. -/
def parseLine (headerLength : ℕ) (line : JavaString) : ParserM Unit :=
  handleABDULine headerLength (processLine line)

/-- Nodes and parser at the end of a computation, with or without exception. -/
def finalState : EStateM.Result JavaException (Heap × Parser) Unit → Heap × Parser
  | .ok _ s => s
  | .error _ s => s

/-- The loop over the lines; an exception ends it and nothing else. -/
def parseLines (headerLength : ℕ) (lines : List JavaString) (s : Heap × Parser) : Heap × Parser :=
  finalState (forM lines (parseLine headerLength) s)

/-- `parseFile`, for the characters of the file. -/
def parseFile (headerLength : ℕ) (text : JavaString) (s : Heap × Parser) : Heap × Parser :=
  parseLines headerLength (scannerLines text) s

end ApduPlay.LogParser
