import Spry.Interval.Clip
import Spry.PLRDF
import Spry.SuRF

/-!
# The filters of one version and the deltas applied to them

A flush or compaction hands its effect on the range delete filters to the new version as an
`RDFUpdateMetadata`. `VersionRDFBundle` holds the six per-level filters of a version: three over
string keys `K`, and three over the integers whose keys come from `stoll`, which may throw. The
filters are updated independently of each other. `none` stands for a process that does not get
past the update, because of `exit(1)` or of an exception.
-/

namespace Spry

open HalfOpen

/-- The filters a system can be configured with. -/
inductive RdfType
  | none
  | plrdf
  | splitPlrdf
  | topLevelRdf
  | plrdfStringKey
  | splitPlrdfStringKey
  | topLevelRdfStringKey
  | surfLfRdf
  | surfLfSplitRdf
  deriving DecidableEq, Repr

inductive JobType
  | kFlush
  | kCompaction
  | kCompactionDirectRemoved
  | kCompactionDirectMoved
  deriving DecidableEq, Repr

/-- One flushed file: its number, its ranges and the level-0 file numbers that exist already. -/
structure FlushDelta (K : Type) where
  fileNum : ℕ := 0
  ranges : List (K × K) := []
  existLevel0FileNums : List ℕ := []

structure SourceLevelInfo (K : Type) where
  srcLevel : ℕ
  srcFdList : List ℕ
  rangeTombstonesStr : List (K × K)

structure DestinationLevelInfo (K : Type) where
  fd : ℕ
  fileBoundary : K × K

/-- The input tombstones of a compaction and the boundaries of its output files. -/
structure MovingRDInfo (K : Type) where
  srcLevelInfoList : List (SourceLevelInfo K)
  dstLevel : ℕ
  dstLevelInfoList : List (DestinationLevelInfo K)

structure RDFUpdateMetadata (K : Type) where
  type : JobType
  splitFlag : Bool := false
  plrdfFlushDelta : FlushDelta ℤ := {}
  splitPlrdfFlushDelta : FlushDelta ℤ := {}
  topLevelPlrdfFlushDelta : FlushDelta ℤ := {}
  plrdfStringkeyFlushDelta : FlushDelta K := {}
  splitPlrdfStringkeyFlushDelta : FlushDelta K := {}
  topLevelPlrdfStringkeyFlushDelta : FlushDelta K := {}
  plrdfCompactionDelta : List (LevelFiles ℤ) := []
  splitPlrdfCompactionDelta : List (LevelFiles ℤ) := []
  topLevelPlrdfCompactionDelta : List (LevelFiles ℤ) := []
  plrdfStringkeyCompactionDelta : List (LevelFiles K) := []
  splitPlrdfStringkeyCompactionDelta : List (LevelFiles K) := []
  topLevelPlrdfStringkeyCompactionDelta : List (LevelFiles K) := []
  splitSampledKeys : List ℤ := []
  splitSampledKeysStr : List K := []
  fdRangetombstonesInfo : Option (MovingRDInfo K) := none
  surfFlushInfo : Option (SuRFFlushToLevel0Info K) := none
  splitSurfFlushInfo : Option (SuRFFlushToLevel0Info K) := none

structure VersionRDFBundle (K : Type) where
  plrdf : PLRDF ℤ
  splitPlrdf : PLRDF ℤ
  topLevelRdf : PLRDF ℤ
  plrdfStringkey : PLRDF K
  splitPlrdfStringkey : PLRDF K
  topLevelRdfStringkey : PLRDF K

variable {K : Type} [LinearOrder K]

namespace MovingRDInfo

/-- All input tombstones, in the order of the source levels. -/
def inputTombstones (info : MovingRDInfo K) : List (K × K) :=
  info.srcLevelInfoList.flatMap (fun src => src.rangeTombstonesStr)

def dstBoundaries (info : MovingRDInfo K) : List (K × K) :=
  info.dstLevelInfoList.map (fun dst => dst.fileBoundary)

/-- The source levels with their files, as the two lists handed to the per-file filters. -/
def sources (info : MovingRDInfo K) : List (ℕ × List ℕ) :=
  info.srcLevelInfoList.map fun src => (src.srcLevel, src.srcFdList)

def destinations (info : MovingRDInfo K) : List (ℕ × (K × K)) :=
  info.dstLevelInfoList.map fun dst => (dst.fd, dst.fileBoundary)

end MovingRDInfo

namespace RDFUpdateMetadata

def getOutputLevelRangeTombstonesFilteredByFileRanges (rdMerged boundaries : List (K × K)) :
    List (K × K) :=
  if rdMerged = [] then [] else clip rdMerged boundaries

def rangetombstonesOnOutputLevel (d : RDFUpdateMetadata K) : List (K × K) :=
  match d.fdRangetombstonesInfo with
  | none => []
  | some info =>
    getOutputLevelRangeTombstonesFilteredByFileRanges
      (coalesceAll (sortPairs info.inputTombstones)) info.dstBoundaries

end RDFUpdateMetadata

def stollRanges (stoll : K → Option ℤ) (ranges : List (K × K)) : Option (List (ℤ × ℤ)) :=
  ranges.mapM fun r => do return (← stoll r.1, ← stoll r.2)

namespace PLRDF

def applyFlush (f : PLRDF K) (d : FlushDelta K) : Option (PLRDF K) :=
  if d.fileNum = 0 then some f
  else f.insertRangeDeleteToLevel0 d.fileNum d.ranges d.existLevel0FileNums

def applyNumericCompaction (stoll : K → Option ℤ) (f : PLRDF ℤ)
    (entries : List (LevelFiles ℤ)) (outRanges : List (K × K)) : Option (PLRDF ℤ) :=
  if entries = [] then some f
  else (stollRanges stoll outRanges).bind (f.shiftRDFToOutputLevel entries)

def applySplitCompaction (f : PLRDF K) (entries : List (LevelFiles K))
    (outRanges : List (K × K)) (splitFlag : Bool) (sampledKeys : List K) : Option (PLRDF K) :=
  match entries with
  | [] => some f
  | e :: es => do
    let g ← f.shiftRDFToOutputLevel (e :: es) outRanges
    return if splitFlag ∧ sampledKeys ≠ [] then g.splitRangesOnLevel e.olevel sampledKeys else g

def applyNumericSplitCompaction (stoll : K → Option ℤ) (f : PLRDF ℤ)
    (entries : List (LevelFiles ℤ)) (outRanges : List (K × K)) (splitFlag : Bool)
    (sampledKeys : List ℤ) : Option (PLRDF ℤ) :=
  if entries = [] then some f
  else do
    let out ← stollRanges stoll outRanges
    f.applySplitCompaction entries out splitFlag sampledKeys

/-- The top-level filter only follows a job that splits, samples keys and starts at level 0;
it is split on level 1. -/
def applyTopLevelCompaction (f : PLRDF K) (entries : List (LevelFiles K))
    (outRanges : Option (List (K × K))) (splitFlag : Bool) (sampledKeys : List K) :
    Option (PLRDF K) :=
  match entries with
  | [] => some f
  | e :: es =>
    if splitFlag ∧ sampledKeys ≠ [] ∧ e.clevel = 0 then do
      let out ← outRanges
      let g ← f.shiftRDFToOutputLevel (e :: es) out
      return g.splitRangesOnLevel 1 sampledKeys
    else some f

end PLRDF

namespace VersionRDFBundle

def empty : VersionRDFBundle K :=
  ⟨PLRDF.empty, PLRDF.empty, PLRDF.empty, PLRDF.empty, PLRDF.empty, PLRDF.empty⟩

def applyFlushDelta (b : VersionRDFBundle K) (d : RDFUpdateMetadata K) :
    Option (VersionRDFBundle K) := do
  let plrdf ← b.plrdf.applyFlush d.plrdfFlushDelta
  let plrdfStringkey ← b.plrdfStringkey.applyFlush d.plrdfStringkeyFlushDelta
  let splitPlrdf ← b.splitPlrdf.applyFlush d.splitPlrdfFlushDelta
  let splitPlrdfStringkey ← b.splitPlrdfStringkey.applyFlush d.splitPlrdfStringkeyFlushDelta
  let topLevelRdf ← b.topLevelRdf.applyFlush d.topLevelPlrdfFlushDelta
  let topLevelRdfStringkey ←
    b.topLevelRdfStringkey.applyFlush d.topLevelPlrdfStringkeyFlushDelta
  return { plrdf, splitPlrdf, topLevelRdf, plrdfStringkey, splitPlrdfStringkey,
           topLevelRdfStringkey }

def applyCompactionDelta (stoll : K → Option ℤ) (b : VersionRDFBundle K)
    (d : RDFUpdateMetadata K) : Option (VersionRDFBundle K) := do
  let out := d.rangetombstonesOnOutputLevel
  let plrdf ← PLRDF.applyNumericCompaction stoll b.plrdf d.plrdfCompactionDelta out
  let plrdfStringkey ← b.plrdfStringkey.shiftRDFToOutputLevel d.plrdfStringkeyCompactionDelta out
  let splitPlrdf ←
    PLRDF.applyNumericSplitCompaction stoll b.splitPlrdf d.splitPlrdfCompactionDelta out d.splitFlag
      d.splitSampledKeys
  let splitPlrdfStringkey ←
    b.splitPlrdfStringkey.applySplitCompaction d.splitPlrdfStringkeyCompactionDelta out
      d.splitFlag d.splitSampledKeysStr
  let topLevelRdf ←
    b.topLevelRdf.applyTopLevelCompaction d.topLevelPlrdfCompactionDelta
      (stollRanges stoll out) d.splitFlag d.splitSampledKeys
  let topLevelRdfStringkey ←
    b.topLevelRdfStringkey.applyTopLevelCompaction d.topLevelPlrdfStringkeyCompactionDelta
      (some out) d.splitFlag d.splitSampledKeysStr
  return { plrdf, splitPlrdf, topLevelRdf, plrdfStringkey, splitPlrdfStringkey,
           topLevelRdfStringkey }

def applyDirectRemovalDelta (b : VersionRDFBundle K) (d : RDFUpdateMetadata K) :
    Option (VersionRDFBundle K) := do
  let plrdf ←
    d.plrdfCompactionDelta.foldlM PLRDF.deleteRDFAssociatedWithFilesAtCurrentLevel b.plrdf
  let plrdfStringkey ← d.plrdfStringkeyCompactionDelta.foldlM
    PLRDF.deleteRDFAssociatedWithFilesAtCurrentLevel b.plrdfStringkey
  let splitPlrdf ← d.splitPlrdfCompactionDelta.foldlM
    PLRDF.deleteRDFAssociatedWithFilesAtCurrentLevel b.splitPlrdf
  let splitPlrdfStringkey ← d.splitPlrdfStringkeyCompactionDelta.foldlM
    PLRDF.deleteRDFAssociatedWithFilesAtCurrentLevel b.splitPlrdfStringkey
  return { b with plrdf, plrdfStringkey, splitPlrdf, splitPlrdfStringkey }

def applyDelta (stoll : K → Option ℤ) (b : VersionRDFBundle K) (d : RDFUpdateMetadata K) :
    Option (VersionRDFBundle K) :=
  match d.type with
  | .kFlush => b.applyFlushDelta d
  | .kCompaction => b.applyCompactionDelta stoll d
  | .kCompactionDirectRemoved => b.applyDirectRemovalDelta d
  | .kCompactionDirectMoved => b.applyCompactionDelta stoll d

end VersionRDFBundle

end Spry
