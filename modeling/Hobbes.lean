import Hobbes.Boot.BitVectors
import Hobbes.Boot.Joins
import Hobbes.Boot.Merge
import Hobbes.Boot.Ropes
import Hobbes.Boot.Search
import Hobbes.Boot.Sort
import Hobbes.Boot.Subseq
import Hobbes.Core.Align
import Hobbes.Core.Calls
import Hobbes.Core.Codec
import Hobbes.Core.Handler
import Hobbes.Core.Lists
import Hobbes.Core.Ring
import Hobbes.Core.Stream
import Hobbes.Core.Transition
import Hobbes.Db.Definitions
import Hobbes.Db.FileSignals
import Hobbes.Db.FreeSpace
import Hobbes.Db.MappingConsistent
import Hobbes.Db.SeriesContents
import Hobbes.Events.EventLoop
import Hobbes.Hog.BatchRecv
import Hobbes.Hog.FramingTransparent
import Hobbes.Hog.ReadsInside
import Hobbes.Hog.SegmentFolder
import Hobbes.Hog.SessionEntries
import Hobbes.Hog.TransferDelivers
import Hobbes.Ipc.OwnFunctions
import Hobbes.Ipc.RequestStream
import Hobbes.Lang.ConsMember
import Hobbes.Lang.ConstraintReduction
import Hobbes.Lang.EquivalenceClasses
import Hobbes.Lang.ExprCodecRoundTrip
import Hobbes.Lang.InstanceQueries
import Hobbes.Lang.MonoTypeLT
import Hobbes.Lang.OrdLaws
import Hobbes.Lang.RecordLayout
import Hobbes.Lang.RecordRefinement
import Hobbes.Lang.SimplifiedNames
import Hobbes.Lang.TypeCodecExact
import Hobbes.Lang.TypeMapMatches
import Hobbes.Lang.UnifierSubstitutes
import Hobbes.Match.CharArrays
import Hobbes.Match.Interpreted
import Hobbes.Match.TableMatch
import Hobbes.Net.Agreement
import Hobbes.Net.AsyncClient
import Hobbes.Parse.DigraphSums
import Hobbes.Parse.Nullable
import Hobbes.Parse.ParserReads
import Hobbes.Parse.ShiftedPrefix
import Hobbes.Regex.DfaFunctions
import Hobbes.Regex.DisjointRanges
import Hobbes.Regex.EpsClosure
import Hobbes.Regex.Matcher
import Hobbes.Regex.PrintedTree
import Hobbes.Regex.RemoveEquivStates
import Hobbes.Storage.FormatCheck
import Hobbes.Storage.GroupMeta
import Hobbes.Storage.LoggerPages
import Hobbes.Storage.PageLog
import Hobbes.Storage.PipeCalls
import Hobbes.Storage.PipeDelivery
import Hobbes.Storage.Queue
import Hobbes.Storage.QueueRefinement
import Hobbes.Storage.WaitProtocol
import Hobbes.Str.Escape
import Hobbes.Str.PrefixTree
import Hobbes.Str.RankedMatches
import Hobbes.Util.RegionOwnership
