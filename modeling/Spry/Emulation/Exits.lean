import Spry.Checked
import Spry.Emulation.Workload

/-!
# Where a run of the emulator exits

The functions of a flush and of a compaction check what they are given and call `exit(1)` if a
check fails. The models of these functions return `none` for that and for every other way to end:
an access outside of a vector, a remainder by zero, a recursion below the last level. Here every
function makes its checks explicitly, in the order of the source, so that an exit can be told
from a crash. Forgetting the difference gives the models back.
-/

namespace Spry.Emulation

open ClosedRange Fallible

/-- The checks that end in `exit(1)`. -/
inductive Check where
  /-- a vector is in ascending order -/
  | ascending
  /-- a vector of points has no key twice in a row -/
  | repetitive
  /-- neighbouring ranges do not overlap -/
  | overlapped
  /-- the least key of a list is at most the greatest one -/
  | minMax
  /-- a file may hold one point entry and one range entry -/
  | fileSize
  /-- the level has a filter or is the next one to get one -/
  | filterLevel
  /-- the points written to a level without files fill a delete tile, or there are none -/
  | deleteTile
  deriving DecidableEq, Repr

/-- How a computation can end without a value. -/
inductive Halt where
  | exit (check : Check)
  | crash
  deriving DecidableEq, Repr

def require (p : Prop) [Decidable p] (check : Check) : Except Halt Unit :=
  if p then .ok () else .error (.exit check)

def orCrash {α : Type} : Option α → Except Halt α
  | none => .error .crash
  | some a => .ok a

namespace Checked

def mergeItsOwnRangeEntry (l : EntryList) : Except Halt EntryList := do
  require (EntryList.ascending l.ranges) .ascending
  orCrash l.mergeItsOwnRangeEntry

def mergeWithAnotherPointEntryVector (l : EntryList) (lower : List PointEntry) :
    Except Halt EntryList := do
  require (EntryList.distinctPoints l.points) .repetitive
  require (EntryList.distinctPoints lower) .repetitive
  orCrash (l.mergeWithAnotherPointEntryVector lower)

def mergeWithAnotherRangeEntryVector (l : EntryList) (lower : List (ℤ × ℤ)) :
    Except Halt EntryList := do
  require (EntryList.ascending l.ranges) .ascending
  require (EntryList.ascending lower) .ascending
  orCrash (l.mergeWithAnotherRangeEntryVector lower)

def getMinmaxRangeOverlappedEntriesFromFiles (l : EntryList) (files : List SSTFile) :
    Except Halt EntryList :=
  if l.empty then .ok EntryList.clear
  else do
    require (EntryList.ascendingPoints l.points) .ascending
    require (EntryList.ascending l.ranges) .ascending
    require (l.ranges.IsChain fun a b => a.2 ≤ b.1) .overlapped
    require (l.getMinKey ≤ l.getMaxKey) .minMax
    orCrash (l.getMinmaxRangeOverlappedEntriesFromFiles files)

def splitOutBySizeInByte (env : EmuEnv) (l : EntryList) : Except Halt (EntryList × EntryList) := do
  require (EntryList.ascendingPoints l.points) .ascending
  require (EntryList.ascending l.ranges) .ascending
  require (l.ranges.IsChain fun a b => a.2 < b.1) .overlapped
  require (env.perKvSize + env.perRangeDeleteSize ≤ env.fileSize) .fileSize
  orCrash (l.splitOutBySizeInByte env)

def addRangeDelete (rdList insertList : List (ℤ × ℤ)) : Except Halt (List (ℤ × ℤ)) := do
  require (EntryList.ascending rdList) .ascending
  require (EntryList.ascending insertList) .ascending
  orCrash (PerlevelRangeDeleteFilter.addRangeDelete rdList insertList)

def removeRangeDelete (rdList discardList : List (ℤ × ℤ)) : Except Halt (List (ℤ × ℤ)) := do
  require (EntryList.ascending rdList) .ascending
  require (EntryList.ascending discardList) .ascending
  require (rdList.IsChain fun a b => a.2 < b.1) .overlapped
  require (discardList.IsChain fun a b => a.2 ≤ b.1) .overlapped
  orCrash (PerlevelRangeDeleteFilter.removeRangeDelete rdList discardList)

def updateFilterAtLevel (level : ℕ) (op : List (ℤ × ℤ) → Except Halt (List (ℤ × ℤ)))
    (filters : List (List (ℤ × ℤ))) : Except Halt (List (List (ℤ × ℤ))) := do
  require (level ≤ filters.length) .filterLevel
  let grown := if level = filters.length then filters ++ [[]] else filters
  let out ← op (grown.getD level [])
  return grown.set level out

def sortEntries (level : ℕ) (l : EntryList) : Except Halt EntryList :=
  let sorted := l.sortPointEntryVectorOnSortKey.sortRangeEntryVectorOnStartKey
  if level = 1 then mergeItsOwnRangeEntry sorted else .ok sorted

def removeFromUpperLevel (level : ℕ) (l : EntryList) (d : DiskMetaFile) :
    Except Halt DiskMetaFile :=
  if 1 < level then do
    let filter ← updateFilterAtLevel (level - 1) (removeRangeDelete · l.ranges) d.filter
    let filterSplit ← updateFilterAtLevel (level - 1) (removeRangeDelete · l.ranges) d.filterSplit
    return { d with filter, filterSplit }
  else .ok d

def mergeOverlapped (files : List SSTFile) (l : EntryList) : Except Halt EntryList := do
  let extracted ← getMinmaxRangeOverlappedEntriesFromFiles l files
  let merged ← mergeWithAnotherPointEntryVector l
    (EntryList.applyRangeDelete l.ranges extracted.points)
  mergeWithAnotherRangeEntryVector merged extracted.ranges

section Write

variable (env : EmuEnv)

def writeFiles (level : ℕ) : ℕ → EntryList → Except Halt (List SSTFile)
  | 0, l => if l.empty then .ok [] else .error .crash
  | n + 1, l =>
    if l.empty then .ok []
    else do
      let (out, rest) ← splitOutBySizeInByte env l
      let files ← writeFiles level n rest
      return populateFile env level out :: files

def compactAndFlush (level : ℕ) (files : List SSTFile) (l : EntryList) :
    Except Halt (List SSTFile) :=
  if l.empty then .ok files
  else do
    let new ← writeFiles env level (l.points.length + l.ranges.length) l
    return relink files new l.getMinKey l.getMaxKey

def installEntries (level rounds : ℕ) (l : EntryList) (d : DiskMetaFile) :
    Except Halt DiskMetaFile := do
  let filter ← updateFilterAtLevel level (addRangeDelete · l.ranges) d.filter
  let filterSplit ← updateFilterAtLevel level (addRangeDelete · l.ranges) d.filterSplit
  let files ← compactAndFlush env level (d.levelHead level) l.sortRangeEntryVectorOnEndKey
  return { levelHead := Function.update d.levelHead level files
           filter := filter
           filterSplit := (splitRangesAtLevel level l)^[rounds] filterSplit }

def writeLevel (level : ℕ) (l : EntryList) (d : DiskMetaFile) : Except Halt DiskMetaFile :=
  if d.levelHead level = [] then
    if env.getDeleteTileSize level = 0 then .error .crash
    else do
      require (¬ (l.points.length % env.getDeleteTileSize level ≠ 0 ∧
        l.points.length / env.getDeleteTileSize level < 1)) .deleteTile
      installEntries env level 1 l d
  else do
    let merged ← mergeOverlapped (d.levelHead level) l
    installEntries env level 2 merged d

def checkAndAdjustLevelSaturation (push : EntryList → DiskMetaFile → Except Halt DiskMetaFile)
    (level : ℕ) : ℕ → DiskMetaFile → Except Halt DiskMetaFile
  | 0, d =>
    if env.levelMaxFileCount level ≤ (d.levelHead level).length then .error .crash else .ok d
  | n + 1, d =>
    if env.levelMaxFileCount level ≤ (d.levelHead level).length then do
      let i := DiskMetaFile.minOverlapFile (d.levelHead (level + 1)) (d.levelHead level) 0
        (2 ^ 31 - 1) 0
      let f ← orCrash ((d.levelHead level)[i]?)
      let d ← push f.entries (d.setSSTFileHead level ((d.levelHead level).eraseIdx i))
      checkAndAdjustLevelSaturation push level n d
    else .ok d

def sortAndWrite : (below level : ℕ) → EntryList → DiskMetaFile → Except Halt DiskMetaFile
  | 0, _, _, _ => .error .crash
  | below + 1, level, l, d => do
    let sorted ← sortEntries level l
    let d ← removeFromUpperLevel level sorted d
    let d ← writeLevel env level sorted d
    checkAndAdjustLevelSaturation env (sortAndWrite below (level + 1)) level
      (d.levelHead level).length d

def checkBufferFlush (s : Emulator) : Except Halt Emulator :=
  if env.saturated s.currentBufferSize then do
    let d ← sortAndWrite env 31 1 s.buffer s.disk
    return ⟨EntryList.clear, 0, d⟩
  else .ok s

def step (s : Emulator) : Op → Except Halt Emulator
  | .insert key value => checkBufferFlush env (s.bufferInsert key value)
  | .rangeDelete startKey endKey => checkBufferFlush env (s.bufferRangeDelete startKey endKey)

def run (ops : List Op) : Except Halt Emulator := ops.foldlM (step env) Emulator.initial

end Write

end Checked

section Forget

variable {α : Type} {env : EmuEnv}

theorem toOption_orCrash (x : Option α) : (orCrash x).toOption = x := by
  cases x with
  | none => rfl
  | some a => rfl

theorem toOption_require {p : Prop} [Decidable p] {check : Check} {x : Except Halt α}
    {x' : Option α} (hx : p → x.toOption = x') (hnone : ¬ p → x' = none) :
    (require p check >>= fun _ => x).toOption = x' := by
  rw [require]
  by_cases hp : p
  · rw [if_pos hp]
    exact hx hp
  · rw [if_neg hp, hnone hp]
    rfl

namespace Checked

theorem toOption_mergeItsOwnRangeEntry (l : EntryList) :
    (mergeItsOwnRangeEntry l).toOption = l.mergeItsOwnRangeEntry :=
  toOption_require (fun _ => toOption_orCrash _) fun h => if_neg h

theorem toOption_mergeWithAnotherPointEntryVector (l : EntryList) (lower : List PointEntry) :
    (mergeWithAnotherPointEntryVector l lower).toOption =
      l.mergeWithAnotherPointEntryVector lower := by
  refine toOption_require (fun _ => toOption_require (fun _ => toOption_orCrash _) fun h => ?_)
    fun h => ?_
  · exact if_neg fun hboth => h hboth.2
  · exact if_neg fun hboth => h hboth.1

theorem toOption_mergeWithAnotherRangeEntryVector (l : EntryList) (lower : List (ℤ × ℤ)) :
    (mergeWithAnotherRangeEntryVector l lower).toOption =
      l.mergeWithAnotherRangeEntryVector lower := by
  refine toOption_require (fun _ => toOption_require (fun _ => toOption_orCrash _) fun h => ?_)
    fun h => ?_
  · exact if_neg fun hboth => h hboth.2
  · exact if_neg fun hboth => h hboth.1

theorem toOption_getMinmaxRangeOverlappedEntriesFromFiles (l : EntryList)
    (files : List SSTFile) : (getMinmaxRangeOverlappedEntriesFromFiles l files).toOption =
      l.getMinmaxRangeOverlappedEntriesFromFiles files := by
  rw [getMinmaxRangeOverlappedEntriesFromFiles]
  by_cases hempty : l.empty = true
  · rw [if_pos hempty, EntryList.getMinmaxRangeOverlappedEntriesFromFiles, if_pos hempty]
    rfl
  · have hmodel : l.getMinmaxRangeOverlappedEntriesFromFiles files =
        if EntryList.ascendingPoints l.points ∧ EntryList.ascending l.ranges ∧
          l.ranges.IsChain (fun a b => a.2 ≤ b.1) ∧ l.getMinKey ≤ l.getMaxKey then
          some (overlappedEntries l.getMinKey l.getMaxKey files)
        else none := if_neg hempty
    rw [if_neg hempty, hmodel]
    refine toOption_require (fun _ => toOption_require (fun _ => toOption_require (fun _ =>
      toOption_require (fun _ => toOption_orCrash _) fun h => ?_) fun h => ?_) fun h => ?_)
      fun h => ?_
    · exact if_neg fun hall => h hall.2.2.2
    · exact if_neg fun hall => h hall.2.2.1
    · exact if_neg fun hall => h hall.2.1
    · exact if_neg fun hall => h hall.1

theorem toOption_splitOutBySizeInByte (l : EntryList) :
    (splitOutBySizeInByte env l).toOption = l.splitOutBySizeInByte env := by
  refine toOption_require (fun _ => toOption_require (fun _ => toOption_require (fun _ =>
    toOption_require (fun _ => toOption_orCrash _) fun h => ?_) fun h => ?_) fun h => ?_)
    fun h => ?_
  · exact if_neg fun hall => h hall.2.2.2
  · exact if_neg fun hall => h hall.2.2.1
  · exact if_neg fun hall => h hall.2.1
  · exact if_neg fun hall => h hall.1

theorem toOption_addRangeDelete (rdList insertList : List (ℤ × ℤ)) :
    (addRangeDelete rdList insertList).toOption =
      PerlevelRangeDeleteFilter.addRangeDelete rdList insertList := by
  refine toOption_require (fun _ => toOption_require (fun _ => toOption_orCrash _) fun h => ?_)
    fun h => ?_
  · exact if_neg fun hboth => h hboth.2
  · exact if_neg fun hboth => h hboth.1

theorem toOption_removeRangeDelete (rdList discardList : List (ℤ × ℤ)) :
    (removeRangeDelete rdList discardList).toOption =
      PerlevelRangeDeleteFilter.removeRangeDelete rdList discardList := by
  refine toOption_require (fun _ => toOption_require (fun _ => toOption_require (fun _ =>
    toOption_require (fun _ => toOption_orCrash _) fun h => ?_) fun h => ?_) fun h => ?_)
    fun h => ?_
  · exact if_neg fun hall => h hall.2.2.2
  · exact if_neg fun hall => h hall.2.2.1
  · exact if_neg fun hall => h hall.2.1
  · exact if_neg fun hall => h hall.1

theorem toOption_updateFilterAtLevel (level : ℕ)
    {op : List (ℤ × ℤ) → Except Halt (List (ℤ × ℤ))} {op' : List (ℤ × ℤ) → Option (List (ℤ × ℤ))}
    (hop : ∀ rs, (op rs).toOption = op' rs) (filters : List (List (ℤ × ℤ))) :
    (updateFilterAtLevel level op filters).toOption =
      Emulation.updateFilterAtLevel level op' filters := by
  refine toOption_require (fun hlevel => ?_) fun h => if_pos (not_le.mp h)
  rw [Emulation.updateFilterAtLevel, if_neg (not_lt.mpr hlevel)]
  exact toOption_bind_pure (hop _) _

theorem toOption_sortEntries (level : ℕ) (l : EntryList) :
    (sortEntries level l).toOption = Emulation.sortEntries level l := by
  rw [sortEntries, Emulation.sortEntries]
  split_ifs
  · exact toOption_mergeItsOwnRangeEntry _
  · rfl

theorem toOption_removeFromUpperLevel (level : ℕ) (l : EntryList) (d : DiskMetaFile) :
    (removeFromUpperLevel level l d).toOption = Emulation.removeFromUpperLevel level l d := by
  have hremove := fun filters => toOption_updateFilterAtLevel (level - 1)
    (fun rd => toOption_removeRangeDelete rd l.ranges) filters
  rw [removeFromUpperLevel, Emulation.removeFromUpperLevel]
  split_ifs
  · exact toOption_bind (hremove _) fun filter => toOption_bind (hremove _) fun filterSplit => rfl
  · rfl

theorem toOption_mergeOverlapped (files : List SSTFile) (l : EntryList) :
    (mergeOverlapped files l).toOption = Emulation.mergeOverlapped files l :=
  toOption_bind (toOption_getMinmaxRangeOverlappedEntriesFromFiles l files) fun extracted =>
    toOption_bind (toOption_mergeWithAnotherPointEntryVector l _) fun merged =>
      toOption_mergeWithAnotherRangeEntryVector merged extracted.ranges

theorem toOption_writeFiles (level n : ℕ) (l : EntryList) :
    (writeFiles env level n l).toOption = Emulation.writeFiles env level n l := by
  induction n generalizing l with
  | zero =>
    rw [writeFiles, Emulation.writeFiles]
    split_ifs
    · rfl
    · rfl
  | succ n ih =>
    rw [writeFiles, Emulation.writeFiles]
    split_ifs
    · rfl
    · refine toOption_bind (toOption_splitOutBySizeInByte l) fun (out, rest) => ?_
      exact toOption_bind_pure (ih rest) _

theorem toOption_compactAndFlush (level : ℕ) (files : List SSTFile) (l : EntryList) :
    (compactAndFlush env level files l).toOption =
      Emulation.compactAndFlush env level files l := by
  rw [compactAndFlush, Emulation.compactAndFlush]
  split_ifs
  · rfl
  · exact toOption_bind_pure (toOption_writeFiles level _ l) _

theorem toOption_installEntries (level rounds : ℕ) (l : EntryList) (d : DiskMetaFile) :
    (installEntries env level rounds l d).toOption =
      Emulation.installEntries env level rounds l d := by
  have hadd := fun filters => toOption_updateFilterAtLevel level
    (fun rd => toOption_addRangeDelete rd l.ranges) filters
  exact toOption_bind (hadd _) fun filter => toOption_bind (hadd _) fun filterSplit =>
    toOption_bind (toOption_compactAndFlush level _ _) fun files => rfl

theorem toOption_writeLevel (level : ℕ) (l : EntryList) (d : DiskMetaFile) :
    (writeLevel env level l d).toOption = Emulation.writeLevel env level l d := by
  rw [writeLevel, Emulation.writeLevel]
  by_cases hnew : d.levelHead level = []
  · rw [if_pos hnew, if_pos hnew]
    by_cases hzero : env.getDeleteTileSize level = 0
    · rw [if_pos hzero, if_pos (Or.inl hzero)]
      rfl
    · rw [if_neg hzero]
      by_cases htile : l.points.length % env.getDeleteTileSize level ≠ 0 ∧
          l.points.length / env.getDeleteTileSize level < 1
      · rw [if_pos (Or.inr htile), require, if_neg (not_not_intro htile)]
        rfl
      · rw [if_neg (not_or.mpr ⟨hzero, htile⟩), require, if_pos htile]
        exact toOption_installEntries level 1 l d
  · rw [if_neg hnew, if_neg hnew]
    exact toOption_bind (toOption_mergeOverlapped _ l) fun merged =>
      toOption_installEntries level 2 merged d

theorem toOption_checkAndAdjustLevelSaturation
    {push : EntryList → DiskMetaFile → Except Halt DiskMetaFile}
    {push' : EntryList → DiskMetaFile → Option DiskMetaFile}
    (hpush : ∀ l d, (push l d).toOption = push' l d) (level n : ℕ) (d : DiskMetaFile) :
    (checkAndAdjustLevelSaturation env push level n d).toOption =
      Emulation.checkAndAdjustLevelSaturation env push' level n d := by
  induction n generalizing d with
  | zero =>
    rw [checkAndAdjustLevelSaturation, Emulation.checkAndAdjustLevelSaturation]
    split_ifs
    · rfl
    · rfl
  | succ n ih =>
    rw [checkAndAdjustLevelSaturation, Emulation.checkAndAdjustLevelSaturation]
    split_ifs
    · exact toOption_bind (toOption_orCrash _) fun f => toOption_bind (hpush _ _) ih
    · rfl

theorem toOption_sortAndWrite (below level : ℕ) (l : EntryList) (d : DiskMetaFile) :
    (sortAndWrite env below level l d).toOption = Emulation.sortAndWrite env below level l d := by
  induction below generalizing level l d with
  | zero => rfl
  | succ below ih =>
    refine toOption_bind (toOption_sortEntries level l) fun sorted => ?_
    refine toOption_bind (toOption_removeFromUpperLevel level sorted d) fun d => ?_
    refine toOption_bind (toOption_writeLevel level sorted d) fun d => ?_
    exact toOption_checkAndAdjustLevelSaturation (ih (level + 1)) level _ d

theorem toOption_run (ops : List Op) : (run env ops).toOption = Emulator.run env ops := by
  have hflush : ∀ s : Emulator, (checkBufferFlush env s).toOption = s.checkBufferFlush env := by
    intro s
    rw [checkBufferFlush, Emulator.checkBufferFlush]
    split_ifs
    · exact toOption_bind_pure (toOption_sortAndWrite 31 1 s.buffer s.disk) _
    · rfl
  refine toOption_foldlM (fun s op => ?_) ops Emulator.initial
  cases op with
  | insert key value => exact hflush _
  | rangeDelete startKey endKey => exact hflush _

end Checked

end Forget

end Spry.Emulation
