import ApduPlay.Library.CommonPrefix
import ApduPlay.Library.JoinedWords
import ApduPlay.OutputTrees

/-!
# The text output of a tree

Another output writes one line for every tree, with a pattern for everything
that was sent and one for everything that was answered. A pattern has the bytes
all messages begin with, the values at every place between, and the bytes all
messages end with. The indices are those of characters, three for every byte.
They and the number of packets are of type `int`, so that their sums can wrap
around.
-/

namespace ApduPlay.TextOutput

open CommonPrefix JoinedWords LogParser OutputTrees PacketNode WrappedText
open PacketGraph (HashOrder decimal)

/-- The settings of text outputs. -/
structure TextOutputSettings where
  /-- Put between the columns. -/
  bytesSeparator : JavaString
  /-- Put between the values of a column. -/
  byteEnumerationSeparator : JavaString
  /-- Stands for any byte. -/
  randomByteValue : JavaString
  /-- Stands for no byte. -/
  emptyByteValue : JavaString
  /-- Whether the latter is shown. -/
  emptyByteIncluded : Bool
  /-- Put before a pattern. -/
  beforeDataStream : JavaString
  /-- Put behind a pattern. -/
  afterDataStream : JavaString
  /-- Whether the columns are numbered. -/
  dataByteIndexIncluded : Bool

/-- `setDefaults` -/
def defaultTextOutputSettings : TextOutputSettings := ⟨[';'], [','], ['x'], ['-'], true, [], [], false⟩

/-- The settings that this output reads. -/
structure Settings where
  /-- Bytes below which what is common is not constant. -/
  minimalConstantLength : ℤ
  /-- Whether this holds also for messages that are shorter. -/
  checkMinimalLengthOnShorterStreams : Bool
  /-- The settings of the text. -/
  textOutputSettings : TextOutputSettings

/-- The packets of a header. -/
structure OutputTree where
  /-- The header. -/
  header : JavaString
  /-- The packets. -/
  packets : List Group

/-- A character of a string. -/
def charAt (str : JavaString) (index : ℕ) : OutputM Char :=
  match str[index]? with
  | some c => pure c
  | none => throw .stringIndexOutOfBounds

/-- The two digits of a byte are not the same. -/
def digitsDiffer (minStr str : JavaString) (j : ℕ) : OutputM Bool := do
  if (← charAt minStr j) ≠ (← charAt str j) then return true
  return (← charAt minStr (j + 1)) != (← charAt str (j + 1))

/-- The loop over the bytes, with the number of rounds bounded. -/
def compareLoop (minStr str : JavaString) (endIndex : ℕ) : ℕ → ℕ → OutputM ℕ
  | 0, j => pure j
  | rounds + 1, j => do
    if endIndex ≠ 0 ∧ j < endIndex + 1 then
      if ← digitsDiffer minStr str j then pure j else compareLoop minStr str endIndex rounds (j + 3)
    else pure j

/-- One string of the loop over the strings. -/
def compareString (minStr : JavaString) (endIndex : ℕ) (str : JavaString) : OutputM ℕ := do
  if str = minStr then return endIndex
  let j ← compareLoop minStr str endIndex (endIndex + 1) 0
  return if j < endIndex then j else endIndex

/-- Characters all strings begin with, up to the end of a byte, or none if they
are not enough. The length in the settings is tripled as an `int`. -/
def longestCommonPrefix (settings : Settings) : List JavaString → OutputM ℕ
  | [] => pure 0
  | str :: strs => do
    let minStr := strs.foldl (fun minStr str => if str.length < minStr.length then str else minStr) str
    let endIndex ← (str :: strs).foldlM (compareString minStr) minStr.length
    let returnIndex := decide (endIndex ≥ (settings.minimalConstantLength * 3).bmod (2 ^ 32)) ||
      (!settings.checkMinimalLengthOnShorterStreams && decide (endIndex ≥ minStr.length))
    if !returnIndex then return 0
    if endIndex ≥ minStr.length then return minStr.length
    return if endIndex > 1 then endIndex - 1 else 0

/-- From the beginning and from the end. -/
def longestCommonPrefixes (settings : Settings) (msgs : List OutputMessage) : OutputM (ℕ × ℕ) := do
  let strings := msgs.map OutputMessage.message
  let left ← longestCommonPrefix settings strings
  let right ← longestCommonPrefix settings (strings.map List.reverse)
  return (left, right)

/-- Add a string to a set. -/
def addString (strings : List JavaString) (str : JavaString) : List JavaString :=
  if str ∈ strings then strings else strings ++ [str]

/-- What is read at one place of the messages. -/
structure Column where
  /-- The values, a set. -/
  bytes : List JavaString
  /-- Number of packets. -/
  msgsCount : JavaInt
  /-- Whether a message is too short. -/
  addEmptyByte : Bool

/-- One message of the loop over the messages. -/
def readMessage (leftIndex rightIndex : ℤ) (column : Column) (msg : OutputMessage) : OutputM Column := do
  let column ←
    if msg.message.length > wrapInt (leftIndex + rightIndex) then do
      let curByte ← substring msg.message leftIndex (wrapInt (leftIndex + 2))
      pure { column with bytes := addString column.bytes curByte }
    else pure { column with addEmptyByte := true }
  return { column with msgsCount := column.msgsCount + msg.count }

/-- The text of a column with values. The quotient is an `int`, which is above
0.33 if it is positive. -/
def columnText (settings : TextOutputSettings) (hash : HashOrder) (column : Column) :
    OutputM JavaString := do
  let bytes := if column.addEmptyByte ∧ settings.emptyByteIncluded then
      addString column.bytes settings.emptyByteValue else column.bytes
  if bytes.length = 1 then return (hash.order bytes).headD []
  if bytes.length > 20 then return settings.randomByteValue
  if column.msgsCount = 0 then throw .arithmetic
  if (bytes.length : ℤ).tdiv column.msgsCount.toInt > 0 then return settings.randomByteValue
  return settings.byteEnumerationSeparator.intercalate (hash.order bytes)

/-- The loop over the columns, with the number of rounds bounded. -/
def analyzeLoop (settings : TextOutputSettings) (hash : HashOrder) (msgs : List OutputMessage)
    (rightIndex : ℤ) : ℕ → ℤ → JavaString → OutputM JavaString
  | 0, _, returnStr => pure returnStr
  | rounds + 1, leftIndex, returnStr => do
    let column ← msgs.foldlM (readMessage leftIndex rightIndex) ⟨[], 0, false⟩
    if column.bytes.isEmpty then return returnStr
    let returnStr := if returnStr.length > 0 then returnStr ++ [' '] else returnStr
    let text ← columnText settings hash column
    analyzeLoop settings hash msgs rightIndex rounds (wrapInt (leftIndex + 3)) (returnStr ++ text)

/-- `analyzeMessages` -/
def analyzeMessages (settings : TextOutputSettings) (hash : HashOrder) (msgs : List OutputMessage)
    (leftIndex rightIndex : ℤ) : OutputM JavaString :=
  let leftIndex := if leftIndex > 0 then wrapInt (leftIndex + 1) else leftIndex
  let rightIndex := if rightIndex > 0 then wrapInt (rightIndex + 1) else rightIndex
  analyzeLoop settings hash msgs rightIndex ((msgs.map fun msg => msg.message.length).sum + 1) leftIndex []

/-- `\s` -/
def isWhiteSpace (c : Char) : Bool :=
  c == ' ' || c == '\t' || c == '\n' || c == '\u000b' || c == '\u000c' || c == '\r'

/-- `String.split` at white space of any length: a part at the beginning may be
empty, empty parts at the end are left out. -/
def splitWhiteSpace (text : JavaString) : List JavaString :=
  if text.any isWhiteSpace then
    match text.splitOnP isWhiteSpace with
    | [] => []
    | part :: parts => (part :: parts.filter fun part => !part.isEmpty).rdropWhile List.isEmpty
  else [text]

/-- `%04d` -/
def paddedIndex (i : ℕ) : JavaString :=
  List.replicate (4 - (decimal i).length) '0' ++ decimal i

/-- `splitAndJoinString` -/
def splitAndJoinString (settings : TextOutputSettings) (str : JavaString) : JavaString :=
  let values := splitWhiteSpace (trim str)
  settings.bytesSeparator.intercalate
    (if settings.dataByteIndexIncluded then values.mapIdx fun i value => paddedIndex i ++ ": ".toList ++ value
      else values)

/-- The pattern of some messages, with the first of them. -/
def dataStream (settings : TextOutputSettings) (hash : HashOrder) (msgs : List OutputMessage)
    (first : JavaString) (prefixes : ℕ × ℕ) : OutputM JavaString := do
  let mid ← analyzeMessages settings hash msgs prefixes.1 prefixes.2
  if mid.length = 0 then
    return settings.beforeDataStream ++ splitAndJoinString settings first ++ settings.afterDataStream
  let left ← substring first 0 prefixes.1
  let right ← substring first (first.length - prefixes.2) first.length
  return settings.beforeDataStream ++
    splitAndJoinString settings (trim left ++ [' '] ++ trim mid ++ [' '] ++ trim right) ++
    settings.afterDataStream

/-- `get(0)` -/
def firstMessage : List OutputMessage → OutputM JavaString
  | [] => throw .indexOutOfBounds
  | msg :: _ => pure msg.message

/-- All that was sent. -/
def OutputTree.transmittedMessages (tree : OutputTree) : List OutputMessage :=
  tree.packets.map Group.transmittedMessage

/-- All that was answered. -/
def OutputTree.receivedMessages (tree : OutputTree) : List OutputMessage :=
  tree.packets.flatMap Group.receivedMessages

/-- `prepareTextOutput` -/
def prepareTextOutput (settings : Settings) (hash : HashOrder) (tree : OutputTree) : OutputM JavaString := do
  let prefixes ← longestCommonPrefixes settings tree.transmittedMessages
  let receivedPrefixes ← longestCommonPrefixes settings tree.receivedMessages
  let firstTransmitted ← firstMessage tree.transmittedMessages
  let firstReceived ← firstMessage tree.receivedMessages
  let text := settings.textOutputSettings
  let transmitted ← dataStream text hash tree.transmittedMessages firstTransmitted prefixes
  let received ← dataStream text hash tree.receivedMessages firstReceived receivedPrefixes
  return tree.header ++ ":\x7b".toList ++ transmitted ++ "\x7d\x7b".toList ++ received ++ "\x7d".toList

end ApduPlay.TextOutput
