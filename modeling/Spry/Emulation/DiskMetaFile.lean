import Spry.Emulation.SSTFile

/-!
# The tree on disk of the emulator and its range delete filters

`sortAndWrite` puts a list of entries into a level and then pushes files one level down while
the level holds too many. The two are recursive in the source; here the number of levels below
bounds the recursion down, and the number of files of a level bounds the pushes out of it.
-/

namespace Spry.Emulation

open ClosedRange
open HalfOpen (StartSorted coalesceBy sortByStart stepBack)

namespace PerlevelRangeDeleteFilter

def addRangeDelete (rdList insertList : List (ℤ × ℤ)) : Option (List (ℤ × ℤ)) :=
  if EntryList.ascending rdList ∧ EntryList.ascending insertList then
    some (uniteAll rdList insertList)
  else none

def removeRangeDelete (rdList discardList : List (ℤ × ℤ)) : Option (List (ℤ × ℤ)) :=
  if EntryList.ascending rdList ∧ EntryList.ascending discardList ∧
      rdList.IsChain (fun a b => a.2 < b.1) ∧ discardList.IsChain (fun a b => a.2 ≤ b.1) then
    some (subtract rdList discardList)
  else none

def splitRangeByPointEntries (rdList : List (ℤ × ℤ)) (points : List PointEntry) :
    List (ℤ × ℤ) :=
  puncture rdList (points.map PointEntry.sortKey)

def isEntryAlive (rdList : List (ℤ × ℤ)) (key : ℤ) : Bool :=
  match rdList with
  | [] => true
  | r :: rs => ¬ ((stepBack r rs key).1 ≤ key ∧ key ≤ (stepBack r rs key).2)

end PerlevelRangeDeleteFilter

open PerlevelRangeDeleteFilter

/-- An operation on the filter of a level. The next level is appended on demand, a level further
down exits. -/
def updateFilterAtLevel (level : ℕ) (op : List (ℤ × ℤ) → Option (List (ℤ × ℤ)))
    (filters : List (List (ℤ × ℤ))) : Option (List (List (ℤ × ℤ))) :=
  if filters.length < level then none
  else
    let grown := if level = filters.length then filters ++ [[]] else filters
    (op (grown.getD level [])).map (grown.set level)

def splitRangesAtLevel (level : ℕ) (l : EntryList) (filters : List (List (ℤ × ℤ))) :
    List (List (ℤ × ℤ)) :=
  if filters.length ≤ level then filters
  else filters.set level (splitRangeByPointEntries (filters.getD level []) l.points)

def isAliveAtLevel (filters : List (List (ℤ × ℤ))) (level : ℕ) (key : ℤ) : Option Bool :=
  if filters.length ≤ level ∨ level = 0 then none
  else some (isEntryAlive (filters.getD level []) key)

/-- The files of a level in the order of their chain, and for every level the filter and the
split filter. The array of levels has 32 entries, of which the first is not used. -/
structure DiskMetaFile where
  levelHead : ℕ → List SSTFile
  filter : List (List (ℤ × ℤ))
  filterSplit : List (List (ℤ × ℤ))

namespace DiskMetaFile

def initial : DiskMetaFile := ⟨fun _ => [], [[]], [[]]⟩

def setSSTFileHead (d : DiskMetaFile) (level : ℕ) (files : List SSTFile) : DiskMetaFile :=
  { d with levelHead := Function.update d.levelHead level files }

/-- The number of levels in use from `level` on; entry 32 lies outside of the array. -/
def countLevels (d : DiskMetaFile) : (below level : ℕ) → Option ℕ
  | 0, _ => none
  | below + 1, level =>
    if d.levelHead level = [] then some 0 else (countLevels d below (level + 1)).map (· + 1)

def getTotalLevelCount (d : DiskMetaFile) : Option ℕ := d.countLevels 31 1

def checkOverlapping (f : SSTFile) (files : List SSTFile) : ℕ :=
  files.countP fun g =>
    ¬ (g.getMaxSortKey ≤ f.getMinSortKey ∨ f.getMaxSortKey ≤ g.getMinSortKey)

/-- The position of the first file with the least overlap; `i` is the position of the head of
the list, and `best` the one found so far. -/
def minOverlapFile (next : List SSTFile) : List SSTFile → (i minOverlap best : ℕ) → ℕ
  | [], _, _, best => best
  | f :: fs, i, minOverlap, best =>
    if checkOverlapping f next < minOverlap then
      minOverlapFile next fs (i + 1) (checkOverlapping f next) i
    else minOverlapFile next fs (i + 1) minOverlap best

end DiskMetaFile

section Write

variable (env : EmuEnv)

/-- The files written for a list of entries, split off one after the other. Every file takes an
entry, so their number bounds the loop. -/
def writeFiles (level : ℕ) : ℕ → EntryList → Option (List SSTFile)
  | 0, l => if l.empty then some [] else none
  | n + 1, l =>
    if l.empty then some []
    else (l.splitOutBySizeInByte env).bind fun (out, rest) =>
      (writeFiles level n rest).map (populateFile env level out :: ·)

/-- The chain up to and including `moving_head`: the last of the passed files that ends before
`min`, and the head of the chain if there is none. -/
def upToMovingHead (head : SSTFile) (passed : List SSTFile) (min : ℤ) : List SSTFile :=
  match (passed.reverse.dropWhile fun f => ¬ f.getSSTMaxKey < min).reverse with
  | [] => [head]
  | f :: fs => f :: fs

def relink (files new : List SSTFile) (min max : ℤ) : List SSTFile :=
  match files, new with
  | [], _ => new
  | _ :: _, [] => files
  | head :: _, tmpHead :: _ =>
    let passed := files.takeWhile fun f => f.getSSTMinKey ≤ max
    let movingEnd := files.dropWhile fun f => f.getSSTMinKey ≤ max
    if tmpHead.getSSTMinKey ≤ head.getSSTMaxKey then new ++ movingEnd
    else upToMovingHead head passed min ++ new ++ movingEnd

def compactAndFlush (level : ℕ) (files : List SSTFile) (l : EntryList) :
    Option (List SSTFile) :=
  if l.empty then some files
  else (writeFiles env level (l.points.length + l.ranges.length) l).map fun new =>
    relink files new l.getMinKey l.getMaxKey

def sortEntries (level : ℕ) (l : EntryList) : Option EntryList :=
  let sorted := l.sortPointEntryVectorOnSortKey.sortRangeEntryVectorOnStartKey
  if level = 1 then sorted.mergeItsOwnRangeEntry else some sorted

def removeFromUpperLevel (level : ℕ) (l : EntryList) (d : DiskMetaFile) : Option DiskMetaFile :=
  if 1 < level then do
    let filter ← updateFilterAtLevel (level - 1) (removeRangeDelete · l.ranges) d.filter
    let filterSplit ← updateFilterAtLevel (level - 1) (removeRangeDelete · l.ranges) d.filterSplit
    return { d with filter, filterSplit }
  else some d

/-- The ranges enter the filters of the level, the split filter is split at the points, `rounds`
times, and the files are written. -/
def installEntries (level rounds : ℕ) (l : EntryList) (d : DiskMetaFile) :
    Option DiskMetaFile := do
  let filter ← updateFilterAtLevel level (addRangeDelete · l.ranges) d.filter
  let filterSplit ← updateFilterAtLevel level (addRangeDelete · l.ranges) d.filterSplit
  let files ← compactAndFlush env level (d.levelHead level) l.sortRangeEntryVectorOnEndKey
  return { levelHead := Function.update d.levelHead level files
           filter := filter
           filterSplit := (splitRangesAtLevel level l)^[rounds] filterSplit }

def mergeOverlapped (files : List SSTFile) (l : EntryList) : Option EntryList := do
  let extracted ← l.getMinmaxRangeOverlappedEntriesFromFiles files
  let merged ← l.mergeWithAnotherPointEntryVector
    (EntryList.applyRangeDelete l.ranges extracted.points)
  merged.mergeWithAnotherRangeEntryVector extracted.ranges

/-- A remainder by zero ends the process like an exit. -/
def writeLevel (level : ℕ) (l : EntryList) (d : DiskMetaFile) : Option DiskMetaFile :=
  if d.levelHead level = [] then
    if env.getDeleteTileSize level = 0 ∨
        (l.points.length % env.getDeleteTileSize level ≠ 0 ∧
          l.points.length / env.getDeleteTileSize level < 1) then none
    else installEntries env level 1 l d
  else (mergeOverlapped (d.levelHead level) l).bind fun merged =>
    installEntries env level 2 merged d

/-- While the level has too many files, the one with the least overlap is unlinked and `push`ed
down. With no file left there is none to choose. -/
def checkAndAdjustLevelSaturation (push : EntryList → DiskMetaFile → Option DiskMetaFile)
    (level : ℕ) : ℕ → DiskMetaFile → Option DiskMetaFile
  | 0, d => if env.levelMaxFileCount level ≤ (d.levelHead level).length then none else some d
  | n + 1, d =>
    if env.levelMaxFileCount level ≤ (d.levelHead level).length then
      let i := DiskMetaFile.minOverlapFile (d.levelHead (level + 1)) (d.levelHead level) 0
        (2 ^ 31 - 1) 0
      ((d.levelHead level)[i]?).bind fun f =>
        (push f.entries (d.setSSTFileHead level ((d.levelHead level).eraseIdx i))).bind
          (checkAndAdjustLevelSaturation push level n)
    else some d

def sortAndWrite : (below level : ℕ) → EntryList → DiskMetaFile → Option DiskMetaFile
  | 0, _, _, _ => none
  | below + 1, level, l, d => do
    let sorted ← sortEntries level l
    let d ← removeFromUpperLevel level sorted d
    let d ← writeLevel env level sorted d
    checkAndAdjustLevelSaturation env (sortAndWrite below (level + 1)) level
      (d.levelHead level).length d

end Write

end Spry.Emulation
