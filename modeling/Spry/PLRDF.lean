import Spry.Interval.Subtract
import Spry.Interval.Keys

/-!
# The per-level range delete filter

`PLRDF K` is the state of the filter template over a key type: a map from level-0 file numbers
to range lists, and for every level a range list and a list of split keys. The numeric filter
class is the instance at the integers. Operations that can end in `exit(1)` return an `Option`.
Assertions are those of a release build and do nothing.
-/

namespace Spry

open HalfOpen

/-- One source level of a compaction: the level, the output level, the boundaries listed for
its files and their numbers. -/
structure LevelFiles (K : Type*) where
  clevel : ℕ
  olevel : ℕ
  boundaries : List (K × K)
  files : List ℕ

structure PLRDF (K : Type*) where
  rdFilterLevel0 : AList (fun _ : ℕ => List (K × K))
  rdFilter : List (List (K × K))
  splitKeys : List (List K)

namespace PLRDF

variable {K : Type*} [LinearOrder K]

def empty : PLRDF K := ⟨∅, [], []⟩

def getLevelRanges (f : PLRDF K) (level : ℕ) : List (K × K) := f.rdFilter.getD level []

def getSplitKeys (f : PLRDF K) (level : ℕ) : List K := f.splitKeys.getD level []

def sortAndMerge (ranges : List (K × K)) : List (K × K) :=
  match sortByStart ranges with
  | [] => []
  | r :: rs => coalesce r (r :: rs)

def purgeKeyOnLevel (f : PLRDF K) (level : ℕ) (ranges : List (K × K)) : PLRDF K :=
  if f.splitKeys.length ≤ level ∨ f.getSplitKeys level = [] then f
  else { f with splitKeys := f.splitKeys.set level (purgeKeys (f.getSplitKeys level) ranges) }

/-- The input list must be ascending by start, otherwise the process exits. -/
def addRangeDelete (rdList rdListIn : List (K × K)) : Option (List (K × K)) :=
  if rdListIn = [] then some rdList
  else if StartSorted rdListIn then some (coalesceAll (interleave rdList rdListIn))
  else none

def growTo (f : PLRDF K) (level : ℕ) : PLRDF K :=
  { f with
    rdFilter := f.rdFilter ++ List.replicate (level + 1 - f.rdFilter.length) []
    splitKeys := f.splitKeys ++ List.replicate (level + 1 - f.rdFilter.length) [] }

def addRangeDeleteInternal (f : PLRDF K) (level : ℕ) (ranges : List (K × K)) :
    Option (PLRDF K) :=
  let g := (f.growTo level).purgeKeyOnLevel level ranges
  (addRangeDelete (g.getLevelRanges level) ranges).map
    fun rdList => { g with rdFilter := g.rdFilter.set level rdList }

def removeRangeDeletesFromLevel0 (f : PLRDF K) (fileNumbers : List ℕ) : PLRDF K :=
  { f with rdFilterLevel0 := fileNumbers.foldl (fun m n => m.erase n) f.rdFilterLevel0 }

/-- One range against the boundaries from the current one on: the pieces that stay, and the
boundaries not yet passed. The last branch is the exit on an unchecked condition. With
`dropEmpty` an untouched range is kept only if it is not empty. -/
def cutAtBoundaries (dropEmpty : Bool) :
    K × K → List (K × K) → Option (List (K × K) × List (K × K))
  | val, [] => some (if dropEmpty ∧ val.1 = val.2 then [] else [val], [])
  | val, fb :: bs =>
    if val.2 ≤ fb.1 then some (if dropEmpty ∧ val.1 = val.2 then [] else [val], fb :: bs)
    else if fb.2 ≤ val.1 then cutAtBoundaries dropEmpty val bs
    else if val.1 < fb.1 ∧ fb.1 < val.2 ∧ val.2 ≤ fb.2 then some ([(val.1, fb.1)], fb :: bs)
    else if fb.1 ≤ val.1 ∧ val.2 ≤ fb.2 then some ([], fb :: bs)
    else if fb.1 ≤ val.1 ∧ val.1 < fb.2 ∧ fb.2 < val.2 then
      cutAtBoundaries dropEmpty (fb.2, val.2) bs
    else if val.1 < fb.1 ∧ fb.2 < val.2 then
      (cutAtBoundaries dropEmpty (fb.2, val.2) bs).map
        fun p => ((val.1, fb.1) :: p.1, p.2)
    else none

def rangesOutside (dropEmpty : Bool) :
    List (K × K) → List (K × K) → Option (List (K × K))
  | [], _ => some []
  | val :: rs, bs => do
    let p ← cutAtBoundaries dropEmpty val bs
    let rest ← rangesOutside dropEmpty rs p.2
    return p.1 ++ rest

def restrictLevel (f : PLRDF K) (level : ℕ) (newRanges : List (K × K)) : PLRDF K :=
  { f with
    rdFilter := f.rdFilter.set level newRanges
    splitKeys := f.splitKeys.set level (retainKeys (f.getSplitKeys level) newRanges) }

def removeRangeDeletesAndSplitKeyFromLevel (f : PLRDF K) (clevel : ℕ)
    (boundaries : List (K × K)) : Option (PLRDF K) :=
  if f.rdFilter.length ≤ clevel ∨ boundaries = [] then some f
  else (rangesOutside true (f.getLevelRanges clevel) boundaries).map (f.restrictLevel clevel)

/-- A file number found in the sorted list of existing numbers exits the process. -/
def insertRangeDeleteToLevel0 (f : PLRDF K) (fileNum : ℕ) (ranges : List (K × K))
    (existLevel0FileNums : List ℕ) : Option (PLRDF K) :=
  if fileNum ∈ existLevel0FileNums then none
  else some { f with rdFilterLevel0 := f.rdFilterLevel0.insert fileNum (sortAndMerge ranges) }

/-- The loop body of `shiftRDFToOutputLevel` for one source level. -/
def shiftSource (f : PLRDF K) (e : LevelFiles K) : Option (PLRDF K) :=
  if e.clevel = 0 then some (f.removeRangeDeletesFromLevel0 e.files)
  else f.removeRangeDeletesAndSplitKeyFromLevel e.clevel (sortAndMerge e.boundaries)

def shiftRDFToOutputLevel (f : PLRDF K) (entries : List (LevelFiles K))
    (outRanges : List (K × K)) : Option (PLRDF K) :=
  match entries with
  | [] => some f
  | e :: es => do
    let g ← (e :: es).foldlM shiftSource f
    if outRanges = [] then return g else g.addRangeDeleteInternal e.olevel outRanges

/-- Every listed level-0 file must be present in the map, otherwise the process exits. -/
def eraseLevel0OrExit (m : AList (fun _ : ℕ => List (K × K))) (fd : ℕ) :
    Option (AList (fun _ : ℕ => List (K × K))) :=
  if fd ∈ m then some (m.erase fd) else none

def deleteRDFAssociatedWithFilesAtCurrentLevel (f : PLRDF K) (e : LevelFiles K) :
    Option (PLRDF K) :=
  if e.clevel = 0 then
    (e.files.foldlM eraseLevel0OrExit f.rdFilterLevel0).map
      fun m => { f with rdFilterLevel0 := m }
  else if f.rdFilter.length ≤ e.clevel then some f
  else
    (rangesOutside false (f.getLevelRanges e.clevel) (sortAndMerge e.boundaries)).map
      (f.restrictLevel e.clevel)

def deleteLastLevelIfEqualsBottomLevel (f : PLRDF K) (bottomLevel : ℕ) : PLRDF K :=
  if f.rdFilter.length = bottomLevel + 1 then
    { f with
      rdFilter := f.rdFilter.set bottomLevel []
      splitKeys := f.splitKeys.set bottomLevel [] }
  else f

def splitRangesOnLevel (f : PLRDF K) (level : ℕ) (keys : List K) : PLRDF K :=
  if f.rdFilter.length ≤ level then f
  else
    { f with
      splitKeys := f.splitKeys.set level
        (collectKeys (unionKeys (f.getSplitKeys level) keys) (f.getLevelRanges level) none) }

/-- A level that does not exist or is empty deletes nothing, nor does a key found by the lower
bound search on the split keys. Otherwise the range reached by stepping back from the upper
bound decides. -/
def isEntryAlive (f : PLRDF K) (level : ℕ) (key : K) : Bool :=
  match f.getLevelRanges level with
  | [] => true
  | r :: rs =>
    if ((f.getSplitKeys level).dropWhile (fun k => k < key)).head? = some key then true
    else
      let it := stepBack r rs key
      !decide (it.1 ≤ key ∧ key < it.2)

end PLRDF

end Spry
