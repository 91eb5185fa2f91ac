import Spry.Interval.HalfOpen
import Spry.Interval.Coalesce
import Spry.Interval.Subtract
import Spry.Interval.Clip
import Spry.Interval.ClipTagged
import Spry.Interval.Keys
import Spry.Interval.Parens
import Spry.LevelMap
import Spry.PLRDF
import Spry.PLRDFCoverage
import Spry.Bundle
import Spry.BundleCoverage
import Spry.TrivialMove
import Spry.SuRF
import Spry.StringKey
import Spry.Lsm
import Spry.VersionGet
import Spry.TableGet
import Spry.VersionGetGate
import Spry.VersionGetLatest
import Spry.VersionGetNewest
import Spry.FlushJob
import Spry.VersionGetSnapshot
import Spry.VersionGetMerge
import Spry.PLRDFSplit
import Spry.CompactionDrop
import Spry.BundleSplit
import Spry.CompactionInstall
import Spry.Interval.Closed
import Spry.Interval.ClosedSubtract
import Spry.Interval.ClosedInsert
import Spry.Emulation.EntryList
import Spry.Emulation.SSTFile
import Spry.Emulation.Cascade
import Spry.Emulation.Counters
import Spry.Emulation.DiskMetaFile
import Spry.Emulation.Workload
import Spry.Emulation.Verdict
import Spry.Emulation.Merge
import Spry.Emulation.SplitOut
import Spry.Emulation.History
import Spry.Emulation.Level
import Spry.Emulation.FileBounds
import Spry.Emulation.Reachable
import Spry.Emulation.Relink
import Spry.Emulation.LevelWrite
import Spry.Emulation.Tree
import Spry.Emulation.Search
import Spry.Emulation.Run
import Spry.Emulation.SkylineFilter
import Spry.Emulation.SetFilter
import Spry.Emulation.SetFilterJoin
import Spry.Emulation.SetFilterRun
import Spry.BundleLevel0
import Spry.BundleTopLevel
import Spry.Interval.Skyline
import Spry.Interval.Sweep
import Spry.SkyLineRDF
import Spry.SuRFPoints
import Spry.SuRFPunctured
import Spry.Louds.Words
import Spry.Louds.Levels
import Spry.Louds.Bits
import Spry.Louds.Search
import Spry.SuRFBuilder
import Spry.SuRFWords
import Spry.SuRFLevels
import Spry.LabelVector
import Spry.LoudsSparse
import Spry.LoudsSparsePositions
import Spry.LoudsSparseSeek
import Spry.LoudsDense
import Spry.LoudsDenseBitmaps
import Spry.LoudsDenseSeek
import Spry.SuRFTrie
import Spry.SuRFTrieSeek
import Spry.SuRFTrieShallow
import Spry.LoudsSparseDirect
import Spry.SuRFBase
import Spry.SuRFTrieSparse
import Spry.BundleCommute
import Spry.Interval.Embed
import Spry.PLRDFEmbed
import Spry.Decimal
import Spry.NumericPLRDF
import Spry.Tracing
import Spry.TracingRun
import Spry.SuRFCompaction
import Spry.SuRFBundle
import Spry.Interval.NormalForm
import Spry.PLRDFMerge
import Spry.Loop
import Spry.PLRDFLoop
import Spry.PLRDFReachable
import Spry.TracingClip
import Spry.PLRDFGather
import Spry.PLRDFIndex
import Spry.BundleNormal
import Spry.BundleAssert
import Spry.Emulation.Exits
import Spry.Emulation.NeverExits
import Spry.Emulation.MergeExact
import Spry.Emulation.VectorFilter
import Spry.Emulation.SplitExact
import Spry.Emulation.FlushExact
import Spry.Interval.SkylineMinimal
import Spry.SkyLineMinimal
import Spry.DigitKey
import Spry.CondensedKey
import Spry.SuRFTruncate
import Spry.SuRFDecode
import Spry.SuRFShift
import Spry.SuRFPerLevel
import Spry.FileBoundaries
import Spry.TracingCheck
import Spry.CompactionIterator
import Spry.Emulation.SystemVerifier
import Spry.KeyHistory
