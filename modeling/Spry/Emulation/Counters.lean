import Spry.Emulation.Workload

/-!
# The entry counters of the emulator

Global counters record what the loops insert, overwrite, drop and split. Every loop that counts
has a companion here with the same branches that returns what it adds to its counter. The counted
run carries the counters along the run, and `checkEquation` compares them with what the buffer
and the files hold.
-/

namespace Spry.Emulation

open ClosedRange
open HalfOpen (coalesceBy sortByStart)

section Loops

/-- The points that `apply_range_delete_on_point_entry_vector` drops. -/
def rangeDeletedPoints : List (ℤ × ℤ) → List PointEntry → ℕ
  | _, [] => 0
  | rs, p :: ps =>
    match rs.dropWhile (fun r => r.2 < p.sortKey) with
    | [] => rangeDeletedPoints [] ps
    | r :: rs' =>
      if r.1 ≤ p.sortKey ∧ p.sortKey ≤ r.2 then rangeDeletedPoints (r :: rs') ps + 1
      else rangeDeletedPoints (r :: rs') ps

def mergeHeadDeleted (a : PointEntry) (rest : List PointEntry → ℕ) : List PointEntry → ℕ
  | [] => rest []
  | b :: bs =>
    if a.sortKey < b.sortKey then rest (b :: bs)
    else if a.sortKey = b.sortKey then rest bs + 1
    else mergeHeadDeleted a rest bs

/-- The lower points that `merge_with_another_point_entry_vector` drops. -/
def mergeDeletedPoints : List PointEntry → List PointEntry → ℕ
  | [], _ => 0
  | a :: as, bs => mergeHeadDeleted a (mergeDeletedPoints as) bs

def coalescedRanges : ℤ × ℤ → List (ℤ × ℤ) → ℕ
  | _, [] => 0
  | cur, r :: rs =>
    if joins cur.2 r.1 then coalescedRanges (grow cur r) rs + 1 else coalescedRanges r rs

/-- The ranges that `merge_its_own_range_entry` joins to earlier ones. -/
def ownDeletedRanges : List (ℤ × ℤ) → ℕ
  | [] => 0
  | r :: rs => coalescedRanges r rs

def uniteHeadDeleted (a : ℤ × ℤ) (rest : ℤ × ℤ → List (ℤ × ℤ) → ℕ) :
    ℤ × ℤ → List (ℤ × ℤ) → ℕ
  | cur, [] => if joins cur.2 a.1 then rest (grow cur a) [] + 1 else rest a []
  | cur, b :: bs =>
    if joins cur.2 a.1 then rest (grow cur a) (b :: bs) + 1
    else if joins cur.2 b.1 then uniteHeadDeleted a rest (grow cur b) bs + 1
    else if a.1 ≤ b.1 then rest a (b :: bs)
    else uniteHeadDeleted a rest b bs

def uniteDeleted : List (ℤ × ℤ) → ℤ × ℤ → List (ℤ × ℤ) → ℕ
  | [], cur, bs => coalescedRanges cur bs
  | a :: as, cur, bs => uniteHeadDeleted a (uniteDeleted as) cur bs

/-- The ranges that `merge_with_another_range_entry_vector` joins to earlier ones. -/
def mergeDeletedRanges : List (ℤ × ℤ) → List (ℤ × ℤ) → ℕ
  | [], [] => 0
  | [], b :: bs => uniteDeleted [] b bs
  | a :: as, [] => uniteDeleted as a []
  | a :: as, b :: bs =>
    if a.1 ≤ b.1 then uniteDeleted as a (b :: bs) else uniteDeleted (a :: as) b bs

def Fill.boundarySplits (env : EmuEnv) (f : Fill) : ℕ :=
  match f.out.points.reverse, f.rest.ranges with
  | p :: before, r :: _ =>
    (shrink env r.1 p before f.rest.points f.size).elim 0 fun (q, _, _) =>
      if r.1 ≤ q.sortKey then 1 else 0
  | _, _ => 0

def fileBoundarySplits (env : EmuEnv) : ℕ → EntryList → ℕ
  | 0, _ => 0
  | n + 1, l =>
    if l.empty then 0
    else (l.splitOutBySizeInByte env).elim 0 fun (_, rest) =>
      (fill env l.ranges 0 l.points).boundarySplits env + fileBoundarySplits env n rest

end Loops

structure TreeCounters where
  totalMergeDeletedPointEntryCount : ℕ
  totalMergeDeletedRangeEntryCount : ℕ
  totalRangeDeletedPointEntryCount : ℕ
  totalFileBoundarySplitRangeEntryCount : ℕ
  deriving DecidableEq, Repr

/-- The tree on disk together with its counters. -/
abbrev Tree := DiskMetaFile × TreeCounters

section Tree

variable (env : EmuEnv)

namespace TreeCounters

def droppedPoints (c : TreeCounters) : ℕ :=
  c.totalMergeDeletedPointEntryCount + c.totalRangeDeletedPointEntryCount

def noteSorting (level : ℕ) (l : EntryList) (c : TreeCounters) : TreeCounters :=
  if level = 1 then
    { c with
      totalMergeDeletedRangeEntryCount :=
        c.totalMergeDeletedRangeEntryCount + ownDeletedRanges (sortByStart l.ranges) }
  else c

def noteMerge (l extracted : EntryList) (c : TreeCounters) : TreeCounters :=
  { c with
    totalRangeDeletedPointEntryCount :=
      c.totalRangeDeletedPointEntryCount + rangeDeletedPoints l.ranges extracted.points
    totalMergeDeletedPointEntryCount :=
      c.totalMergeDeletedPointEntryCount +
        mergeDeletedPoints l.points (EntryList.applyRangeDelete l.ranges extracted.points)
    totalMergeDeletedRangeEntryCount :=
      c.totalMergeDeletedRangeEntryCount + mergeDeletedRanges l.ranges extracted.ranges }

def noteFiles (l : EntryList) (c : TreeCounters) : TreeCounters :=
  { c with
    totalFileBoundarySplitRangeEntryCount :=
      c.totalFileBoundarySplitRangeEntryCount +
        fileBoundarySplits env (l.points.length + l.ranges.length) l }

def noteWrite (files : List SSTFile) (l : EntryList) (c : TreeCounters) : TreeCounters :=
  if files = [] then c.noteFiles env l.sortRangeEntryVectorOnEndKey
  else
    match l.getMinmaxRangeOverlappedEntriesFromFiles files, mergeOverlapped files l with
    | some extracted, some merged =>
      (c.noteMerge l extracted).noteFiles env merged.sortRangeEntryVectorOnEndKey
    | _, _ => c

end TreeCounters

def countedWriteLevel (level : ℕ) (l : EntryList) (x : Tree) : Option Tree :=
  (writeLevel env level l x.1).map fun d => (d, x.2.noteWrite env (x.1.levelHead level) l)

def countedAdjust (push : EntryList → Tree → Option Tree) (level : ℕ) : ℕ → Tree → Option Tree
  | 0, x => if env.levelMaxFileCount level ≤ (x.1.levelHead level).length then none else some x
  | n + 1, x =>
    if env.levelMaxFileCount level ≤ (x.1.levelHead level).length then
      let i := DiskMetaFile.minOverlapFile (x.1.levelHead (level + 1)) (x.1.levelHead level) 0
        (2 ^ 31 - 1) 0
      ((x.1.levelHead level)[i]?).bind fun f =>
        (push f.entries (x.1.setSSTFileHead level ((x.1.levelHead level).eraseIdx i), x.2)).bind
          (countedAdjust push level n)
    else some x

def countedSortAndWrite : (below level : ℕ) → EntryList → Tree → Option Tree
  | 0, _, _, _ => none
  | below + 1, level, l, x => do
    let sorted ← sortEntries level l
    let d ← removeFromUpperLevel level sorted x.1
    let y ← countedWriteLevel env level sorted (d, x.2.noteSorting level l)
    countedAdjust env (countedSortAndWrite below (level + 1)) level (y.1.levelHead level).length y

end Tree

/-- All the counters of a run; the ones of the buffer are statistics kept next to it. -/
structure Counters where
  totalInsertCount : ℤ
  bufferUpdateCount : ℤ
  totalRangeTombstoneCount : ℤ
  totalBufferRangeTombstoneDeletedPointEntryCount : ℤ
  currentBufferPointEntryCount : ℤ
  currentBufferRangeEntryCount : ℤ
  tree : TreeCounters
  deriving DecidableEq, Repr

namespace Counters

def initial : Counters := ⟨0, 0, 0, 0, 0, 0, ⟨0, 0, 0, 0⟩⟩

def noteInsert (s : Emulator) (key : ℤ) (value : Bytes) (c : Counters) : Counters :=
  match setValue key value s.buffer.points with
  | some _ =>
    { c with
      totalInsertCount := c.totalInsertCount + 1
      bufferUpdateCount := c.bufferUpdateCount + 1 }
  | none =>
    { c with
      totalInsertCount := c.totalInsertCount + 1
      currentBufferPointEntryCount := c.currentBufferPointEntryCount + 1 }

def noteRangeDelete (s : Emulator) (startKey endKey : ℤ) (c : Counters) : Counters :=
  let removed := s.buffer.points.filter fun p => startKey ≤ p.sortKey ∧ p.sortKey ≤ endKey
  { c with
    totalRangeTombstoneCount := c.totalRangeTombstoneCount + 1
    currentBufferRangeEntryCount := c.currentBufferRangeEntryCount + 1
    currentBufferPointEntryCount := c.currentBufferPointEntryCount - removed.length
    totalBufferRangeTombstoneDeletedPointEntryCount :=
      c.totalBufferRangeTombstoneDeletedPointEntryCount + removed.length }

end Counters

namespace DiskMetaFile

variable (d : DiskMetaFile)

def getLevelPointEntryCount (level : ℕ) : ℕ :=
  ((d.levelHead level).map fun f =>
    (f.pointDeleteTiles.map fun tile => (tile.map List.length).sum).sum).sum

def getLevelRangeEntryCount (level : ℕ) : ℕ :=
  ((d.levelHead level).map fun f =>
    (f.rangeDeleteTiles.map fun tile => (tile.map List.length).sum).sum).sum

def getTotalPointEntryCount : Option ℕ :=
  d.getTotalLevelCount.map fun n =>
    ((List.range n).map fun i => d.getLevelPointEntryCount (i + 1)).sum

def getTotalRangeEntryCount : Option ℕ :=
  d.getTotalLevelCount.map fun n =>
    ((List.range n).map fun i => d.getLevelRangeEntryCount (i + 1)).sum

end DiskMetaFile

namespace Emulator

variable (env : EmuEnv)

def countedCheckBufferFlush (s : Emulator) (c : Counters) : Option (Emulator × Counters) :=
  if env.saturated s.currentBufferSize then
    (countedSortAndWrite env 31 1 s.buffer (s.disk, c.tree)).map fun x =>
      (⟨EntryList.clear, 0, x.1⟩,
        { c with
          currentBufferPointEntryCount := 0
          currentBufferRangeEntryCount := 0
          tree := x.2 })
  else some (s, c)

def countedStep (x : Emulator × Counters) : Op → Option (Emulator × Counters)
  | .insert key value =>
    (x.1.bufferInsert key value).countedCheckBufferFlush env (x.2.noteInsert x.1 key value)
  | .rangeDelete startKey endKey =>
    (x.1.bufferRangeDelete startKey endKey).countedCheckBufferFlush env
      (x.2.noteRangeDelete x.1 startKey endKey)

def countedRun (ops : List Op) : Option (Emulator × Counters) :=
  ops.foldlM (countedStep env) (initial, Counters.initial)

def checkEquation (s : Emulator) (c : Counters) : Option Bool := do
  let points ← s.disk.getTotalPointEntryCount
  let ranges ← s.disk.getTotalRangeEntryCount
  return c.currentBufferPointEntryCount + c.bufferUpdateCount + points +
        c.tree.totalMergeDeletedPointEntryCount + c.tree.totalRangeDeletedPointEntryCount +
        c.totalBufferRangeTombstoneDeletedPointEntryCount = c.totalInsertCount ∧
      c.currentBufferRangeEntryCount + ranges + c.tree.totalMergeDeletedRangeEntryCount -
        c.tree.totalFileBoundarySplitRangeEntryCount = c.totalRangeTombstoneCount

end Emulator

section Erase

variable {env : EmuEnv}

theorem map_bind_of {α α' β β' : Type} {π : α → α'} {ρ : β → β'} {x : Option α} {x' : Option α'}
    {f : α → Option β} {f' : α' → Option β'} (hx : x.map π = x')
    (hf : ∀ a, (f a).map ρ = f' (π a)) : (x.bind f).map ρ = x'.bind f' := by
  subst hx
  cases x with
  | none => rfl
  | some a => exact hf a

theorem map_foldlM_of {α α' β : Type} {π : α → α'} {f : α → β → Option α} {f' : α' → β → Option α'}
    (hf : ∀ a b, (f a b).map π = f' (π a) b) (bs : List β) (a : α) :
    (bs.foldlM f a).map π = bs.foldlM f' (π a) := by
  induction bs generalizing a with
  | nil => rfl
  | cons b bs ih =>
    rw [List.foldlM_cons, List.foldlM_cons]
    exact map_bind_of (hf a b) ih

theorem map_countedWriteLevel (level : ℕ) (l : EntryList) (d : DiskMetaFile) (c : TreeCounters) :
    (countedWriteLevel env level l (d, c)).map Prod.fst = writeLevel env level l d := by
  unfold countedWriteLevel
  rw [Option.map_map]
  exact Option.map_id'

theorem map_countedAdjust {push : EntryList → Tree → Option Tree}
    {push' : EntryList → DiskMetaFile → Option DiskMetaFile}
    (hpush : ∀ l d c, (push l (d, c)).map Prod.fst = push' l d) (level n : ℕ) (x : Tree) :
    (countedAdjust env push level n x).map Prod.fst =
      checkAndAdjustLevelSaturation env push' level n x.1 := by
  induction n generalizing x with
  | zero =>
    rw [countedAdjust, checkAndAdjustLevelSaturation]
    split_ifs
    · rfl
    · rfl
  | succ n ih =>
    rw [countedAdjust, checkAndAdjustLevelSaturation]
    split_ifs
    · exact map_bind_of Option.map_id' fun f => map_bind_of (hpush _ _ _) ih
    · rfl

theorem map_countedSortAndWrite (below level : ℕ) (l : EntryList) (d : DiskMetaFile)
    (c : TreeCounters) :
    (countedSortAndWrite env below level l (d, c)).map Prod.fst =
      sortAndWrite env below level l d := by
  induction below generalizing level l d c with
  | zero => rfl
  | succ below ih =>
    rw [countedSortAndWrite, sortAndWrite]
    refine map_bind_of Option.map_id' fun sorted => map_bind_of Option.map_id' fun d => ?_
    exact map_bind_of (map_countedWriteLevel _ _ _ _) fun y =>
      map_countedAdjust (ih (level + 1)) level _ y

theorem map_countedCheckBufferFlush (s : Emulator) (c : Counters) :
    (s.countedCheckBufferFlush env c).map Prod.fst = s.checkBufferFlush env := by
  rw [Emulator.countedCheckBufferFlush, Emulator.checkBufferFlush]
  split_ifs
  · rw [← map_countedSortAndWrite 31 1 s.buffer s.disk c.tree, Option.map_map, Option.map_map]
    rfl
  · rfl

theorem map_countedRun (ops : List Op) :
    (Emulator.countedRun env ops).map Prod.fst = Emulator.run env ops := by
  refine map_foldlM_of (fun x op => ?_) ops (Emulator.initial, Counters.initial)
  cases op with
  | insert key value => exact map_countedCheckBufferFlush _ _
  | rangeDelete startKey endKey => exact map_countedCheckBufferFlush _ _

theorem exists_countedRun {ops : List Op} {s : Emulator} (h : Emulator.run env ops = some s) :
    ∃ c, Emulator.countedRun env ops = some (s, c) := by
  rw [← map_countedRun] at h
  obtain ⟨⟨_, c⟩, hrun, rfl⟩ := Option.map_eq_some_iff.mp h
  exact ⟨c, hrun⟩

end Erase

section Lengths

theorem length_applyRangeDelete (rs : List (ℤ × ℤ)) (ps : List PointEntry) :
    (EntryList.applyRangeDelete rs ps).length + rangeDeletedPoints rs ps = ps.length := by
  induction ps generalizing rs with
  | nil => rfl
  | cons p ps ih =>
    rw [EntryList.applyRangeDelete, rangeDeletedPoints, List.length_cons]
    cases rs.dropWhile fun r => r.2 < p.sortKey with
    | nil =>
      have := ih []
      simp only [List.length_cons]
      omega
    | cons r rs' =>
      have := ih (r :: rs')
      simp only
      split_ifs
      · omega
      · simp only [List.length_cons]
        omega

theorem length_mergeHead {a : PointEntry} {rest : List PointEntry → List PointEntry}
    {count : List PointEntry → ℕ} {n : ℕ}
    (hrest : ∀ bs, (rest bs).length + count bs = n + bs.length) (bs : List PointEntry) :
    (EntryList.mergeHead a rest bs).length + mergeHeadDeleted a count bs = n + 1 + bs.length := by
  induction bs with
  | nil =>
    have := hrest []
    simp only [EntryList.mergeHead, mergeHeadDeleted, List.length_cons]
    omega
  | cons b bs ih =>
    have h₁ := hrest bs
    have h₂ := hrest (b :: bs)
    rw [EntryList.mergeHead, mergeHeadDeleted]
    simp only [List.length_cons] at h₂ ⊢
    split_ifs
    · rw [List.length_cons]
      omega
    · rw [List.length_cons]
      omega
    · rw [List.length_cons]
      omega

theorem length_mergePoints (as bs : List PointEntry) :
    (EntryList.mergePoints as bs).length + mergeDeletedPoints as bs = as.length + bs.length := by
  induction as generalizing bs with
  | nil => simp [EntryList.mergePoints, mergeDeletedPoints]
  | cons a as ih =>
    rw [EntryList.mergePoints, mergeDeletedPoints, List.length_cons]
    exact length_mergeHead ih bs

theorem length_coalesceBy (cur : ℤ × ℤ) (rs : List (ℤ × ℤ)) :
    (coalesceBy joins cur rs).length + coalescedRanges cur rs = rs.length + 1 := by
  induction rs generalizing cur with
  | nil => rfl
  | cons r rs ih =>
    have h₁ := ih (grow cur r)
    have h₂ := ih r
    rw [grow] at h₁
    rw [coalesceBy, coalescedRanges, grow, List.length_cons]
    split_ifs
    · omega
    · rw [List.length_cons]
      omega

theorem length_uniteHead {a : ℤ × ℤ} {rest : ℤ × ℤ → List (ℤ × ℤ) → List (ℤ × ℤ)}
    {count : ℤ × ℤ → List (ℤ × ℤ) → ℕ} {n : ℕ}
    (hrest : ∀ cur bs, (rest cur bs).length + count cur bs = n + bs.length + 1) (cur : ℤ × ℤ)
    (bs : List (ℤ × ℤ)) :
    (uniteHead a rest cur bs).length + uniteHeadDeleted a count cur bs =
      n + 1 + bs.length + 1 := by
  induction bs generalizing cur with
  | nil =>
    have h₁ := hrest (grow cur a) []
    have h₂ := hrest a []
    rw [uniteHead, uniteHeadDeleted]
    split_ifs
    · omega
    · rw [List.length_cons]
      omega
  | cons b bs ih =>
    have h₁ := hrest (grow cur a) (b :: bs)
    have h₂ := hrest a (b :: bs)
    have h₃ := ih (grow cur b)
    have h₄ := ih b
    rw [uniteHead, uniteHeadDeleted]
    simp only [List.length_cons] at h₁ h₂ ⊢
    split_ifs
    · omega
    · omega
    · rw [List.length_cons]
      omega
    · rw [List.length_cons]
      omega

theorem length_unite (as : List (ℤ × ℤ)) (cur : ℤ × ℤ) (bs : List (ℤ × ℤ)) :
    (unite as cur bs).length + uniteDeleted as cur bs = as.length + bs.length + 1 := by
  induction as generalizing cur bs with
  | nil =>
    rw [unite, uniteDeleted, length_coalesceBy, List.length_nil, Nat.zero_add]
  | cons a as ih =>
    rw [unite, uniteDeleted, List.length_cons]
    exact length_uniteHead ih cur bs

theorem length_uniteAll (as bs : List (ℤ × ℤ)) :
    (uniteAll as bs).length + mergeDeletedRanges as bs = as.length + bs.length := by
  cases as with
  | nil =>
    cases bs with
    | nil => rfl
    | cons b bs => simpa [uniteAll, mergeDeletedRanges] using length_unite [] b bs
  | cons a as =>
    cases bs with
    | nil => simpa [uniteAll, mergeDeletedRanges] using length_unite as a []
    | cons b bs =>
      have h₁ := length_unite as a (b :: bs)
      have h₂ := length_unite (a :: as) b bs
      rw [uniteAll, mergeDeletedRanges]
      simp only [List.length_cons] at h₁ h₂ ⊢
      split_ifs
      · omega
      · omega

theorem noteSorting_eq (level : ℕ) (l : EntryList) (c : TreeCounters) :
    (c.noteSorting level l).droppedPoints = c.droppedPoints ∧
      (c.noteSorting level l).totalFileBoundarySplitRangeEntryCount =
        c.totalFileBoundarySplitRangeEntryCount := by
  rw [TreeCounters.noteSorting]
  split_ifs
  · exact ⟨rfl, rfl⟩
  · exact ⟨rfl, rfl⟩

theorem length_sortEntries {l s : EntryList} {level : ℕ} (h : sortEntries level l = some s)
    (c : TreeCounters) :
    s.points.length = l.points.length ∧
      s.ranges.length + (c.noteSorting level l).totalMergeDeletedRangeEntryCount =
        l.ranges.length + c.totalMergeDeletedRangeEntryCount := by
  have hpoints := (List.perm_insertionSort (fun a b : PointEntry => a.sortKey ≤ b.sortKey)
    l.points).length_eq
  have hranges := (HalfOpen.sortByStart_perm l.ranges).length_eq
  rw [sortEntries] at h
  rw [TreeCounters.noteSorting]
  split_ifs at h ⊢ with hlevel
  · obtain ⟨_, h⟩ := Option.ite_none_right_eq_some.mp h
    rw [← Option.some.inj h]
    refine ⟨hpoints, ?_⟩
    simp only [EntryList.sortRangeEntryVectorOnStartKey, EntryList.sortPointEntryVectorOnSortKey]
    rw [← hranges]
    cases sortByStart l.ranges with
    | nil => simp [ownDeletedRanges]
    | cons r rs =>
      have := length_coalesceBy r rs
      simp only [ownDeletedRanges, List.length_cons]
      omega
  · rw [← Option.some.inj h]
    exact ⟨hpoints, by simp [EntryList.sortRangeEntryVectorOnStartKey,
      EntryList.sortPointEntryVectorOnSortKey, hranges]⟩

theorem length_splitLast {env : EmuEnv} {f : Fill} {out rest : EntryList}
    (h : f.splitLast env = some (out, rest)) :
    out.ranges.length + rest.ranges.length =
      f.out.ranges.length + f.rest.ranges.length + f.boundarySplits env := by
  rw [Fill.splitLast] at h
  rw [Fill.boundarySplits]
  cases hp : f.out.points.reverse with
  | nil =>
    simp only [hp, Option.some.injEq, Prod.mk.injEq] at h
    obtain ⟨rfl, rfl⟩ := h
    rfl
  | cons p before =>
    cases hr : f.rest.ranges with
    | nil =>
      simp only [hp, hr, Option.some.injEq, Prod.mk.injEq] at h
      obtain ⟨rfl, rfl⟩ := h
      rw [hr]
      rfl
    | cons r rs =>
      simp only [hp, hr] at h ⊢
      obtain ⟨⟨q, before', rest'⟩, hshrink, heq⟩ := Option.map_eq_some_iff.mp h
      rw [hshrink, Option.elim_some]
      simp only at heq ⊢
      split_ifs at heq ⊢ with hstart
      · obtain ⟨rfl, rfl⟩ := Prod.mk.inj heq
        simp only [List.length_append, List.length_cons, List.length_nil]
        omega
      · obtain ⟨rfl, rfl⟩ := Prod.mk.inj heq
        simp only [List.length_cons]
        omega

end Lengths

end Spry.Emulation
