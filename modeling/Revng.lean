import Revng.ADT.SetIterator
import Revng.Binary.SegmentReads
import Revng.CliftEmitC.Ambiguity
import Revng.DataLayout.BrokenLoops
import Revng.DataLayout.CollapsePasses
import Revng.DataLayout.ComparableLeaves
import Revng.DataLayout.CompactedNodes
import Revng.DataLayout.SeparatedComponents
import Revng.DataLayout.TrimmedSizes
import Revng.DataLayout.TypeSystemRuns
import Revng.Lib.Base64
import Revng.Lib.KeyedTable
import Revng.Lib.LabelledGraph
import Revng.Lib.Numeral
import Revng.Lib.OrderedSet
import Revng.Lib.PrefixCode
import Revng.Lib.Reachability
import Revng.Lib.SeparatedText
import Revng.Lib.SortedMerge
import Revng.Lib.Tar
import Revng.Lib.Worklist
import Revng.Mfp.MaximalFixedPoint
import Revng.Naming.CountingNames
import Revng.Pypeline.ConfigurationIdentity
import Revng.Pypeline.CrashConsistency
import Revng.Pypeline.ScheduleRoundTrip
import Revng.Pypeline.StorageAgreement
import Revng.RssServer.LockWakeup
import Revng.RssServer.ModelStability
import Revng.RssServer.ProjectTables
import Revng.RssServer.WireAgreement
import Revng.TupleTree.ApplyErrors
import Revng.TupleTree.DiffLaw
import Revng.TupleTree.PathMatcher
import Revng.TupleTree.PathResolution
import Revng.TupleTree.TrackingLevels
import Revng.TupleTree.TrackingSound
import Revng.Binary.MetaAddressText
import Revng.CliftEmitC.Token
import Revng.Lib.LittleEndian
import Revng.PipeboxCommon.ObjectID
import Revng.Pypeline.Disposal
import Revng.Pypeline.Kinds
import Revng.Pypeline.Responsibility
import Revng.Pypeline.SavepointRanges
import Revng.DataLayout.ComputeNonInterferingComponents
import Revng.DataLayout.NodeRewrites
import Revng.Lib.IntervalGroups
import Revng.ADT.ZipMapIterator
import Revng.Binary.FromUtf8
import Revng.ADT.SmallMapHistory
import Revng.ADT.SortedVectorHistory
import Revng.Binary.AddressArithmetic
import Revng.ADT.BitVectorCopies
import Revng.PipeboxCommon.Identifiers
import Revng.Lib.CStringLiteral
import Revng.PTML.StringLiteral
import Revng.ABI.ArgumentDistribution
import Revng.CliftEmitC.Declarations
import Revng.CliftEmitC.DeclarationReading
import Revng.CliftEmitC.DeclarationRoundTrip
import Revng.CliftEmitC.DeclarationText
import Revng.CliftEmitC.StatementGrammar
import Revng.CliftEmitC.StatementReading
import Revng.CliftEmitC.StatementRoundTrip
import Revng.Lib.CTrivia
import Revng.Lib.DepthFirstIterator
import Revng.Lib.RunningBest
import Revng.Lib.Walks
import Revng.PTML.CommentPlacement
import Revng.PTML.Comments
import Revng.Support.Backedges
import Revng.Support.EntryPoints
import Revng.Support.NodesBetween
import Revng.ABI.RegisterStateDeductions
import Revng.ABI.DeducedRegisters
import Revng.ADT.UniqueLast
import Revng.Lib.FirstValues
import Revng.Lib.PrefixedLines
import Revng.PTML.CommentBuilder
import Revng.PTML.CommentWrapping
import Revng.Support.ApiSetSafety
import Revng.Lib.OnceQueue
import Revng.Model.TypeDefinitions
import Revng.Model.DroppedTypes
import Revng.Lib.FlowPaths
import Revng.RegisterUsage.AnalyzeRegisterUsage
import Revng.RegisterUsage.Simplify
import Revng.Model.PurgedTypes
