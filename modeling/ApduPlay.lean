import ApduPlay.LeafSpelling
import ApduPlay.NodeCounts
import ApduPlay.DivideCalls
import ApduPlay.HandleOwnership
import ApduPlay.VirtualHandles
import ApduPlay.ReaderListSizes
import ApduPlay.ResponseReadout
import ApduPlay.RuleLengths
import ApduPlay.SuppliedBytes
import ApduPlay.MatchLines
import ApduPlay.RuleValues
import ApduPlay.DataElements
import ApduPlay.OwnReplies
import ApduPlay.ReplyOrder
import ApduPlay.ReaderNames
import ApduPlay.PreferredReader
import ApduPlay.LogExchanges
import ApduPlay.TransmitLog
import ApduPlay.HistoryLookup
import ApduPlay.FiredRules
import ApduPlay.RecordedBytes
import ApduPlay.FaultSites
import ApduPlay.FixedBuffers
import ApduPlay.RuleBounds
import ApduPlay.ReadoutBounds
import ApduPlay.ActionPlaces
import ApduPlay.StatusChange
import ApduPlay.TextPatterns
import ApduPlay.RemoteTransmit
import ApduPlay.RemoteConnections
import ApduPlay.ReportedATRs
import ApduPlay.SerializedLists
import ApduPlay.Base64Loops
import ApduPlay.ReorderedReaders
import ApduPlay.SeparatedNames
import ApduPlay.ConstantLengths
import ApduPlay.RandomColumns
import ApduPlay.OutputTrees
import ApduPlay.WrappedLabels
import ApduPlay.PrintedTrees
import ApduPlay.ByteSeparators
import ApduPlay.FlowFrequencies
import ApduPlay.OuterParentheses
import ApduPlay.WordSimilarity
import ApduPlay.WrappedPieces
import ApduPlay.ForwardedCalls
import ApduPlay.AllocatedMemory
import ApduPlay.RemoteLifetimes
import ApduPlay.NodesGraph
import ApduPlay.RecordedLogs
import ApduPlay.DrawnLogs
import ApduPlay.WrittenFiles
import ApduPlay.LoadedSettings
