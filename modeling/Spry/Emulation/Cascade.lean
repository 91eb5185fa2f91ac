import Spry.Emulation.Tree

/-!
# Flushes as a write and a sequence of pushes

The recursion of `sortAndWrite` through the levels does one write and then pushes single files one
level down, in some order. What a push keeps is therefore kept by every flush: exact filters and
separate files, the segments of the workload that the levels hold, and the balance of the
counters with the entries of the tree.
-/

namespace Spry.Emulation

open ClosedRange Relation

def Push (env : EmuEnv) (x y : Tree) : Prop :=
  ∃ level pre f post d, 1 ≤ level ∧ level < 31 ∧
    env.levelMaxFileCount level ≤ (x.1.levelHead level).length ∧
    x.1.levelHead level = pre ++ f :: post ∧
    removeFromUpperLevel (level + 1) f.entries (x.1.setSSTFileHead level (pre ++ post)) = some d ∧
    countedWriteLevel env (level + 1) f.entries (d, x.2) = some y

/-- The tree before a push of the file `f`, without the file, and after the push. -/
structure Moves (env : EmuEnv) (level : ℕ) (pre : List SSTFile) (f : SSTFile)
    (post : List SSTFile) (x z y : Tree) : Prop where
  level_pos : 1 ≤ level
  level_lt : level < 31
  full : env.levelMaxFileCount level ≤ (x.1.levelHead level).length
  source : x.1.levelHead level = pre ++ f :: post
  source_ok : LevelOk (pre ++ f :: post)
  unlinked : z.1.levelHead = Function.update x.1.levelHead level (pre ++ post)
  unlinked_ok : TreeOk z.1
  counters_eq : z.2 = x.2
  writes : Writes (level + 1) f.entries z y

section Step

variable {env : EmuEnv} {x z y : Tree} {level : ℕ} {pre post : List SSTFile} {f : SSTFile}

theorem Push.moves (hstores : env.StoresAll) (hx : TreeOk x.1) (h : Push env x y) :
    ∃ level pre f post z, Moves env level pre f post x z y := by
  obtain ⟨level, pre, f, post, d, hlevel, hlt, hfull, hfiles, hremove, hwrite⟩ := h
  have hok := hx.level_ok level
  rw [hfiles] at hok
  have hf : f ∈ pre ++ f :: post := by simp
  obtain ⟨hd, hheads⟩ := removeFromUpperLevel_spec hx hlevel hfiles hremove
  exact ⟨level, pre, f, post, (d, x.2), hlevel, hlt, hfull, hfiles, hok, hheads, hd, rfl,
    countedWriteLevel_spec hstores (hok.sorted f hf) (hok.inRange f hf) (hok.nonempty f hf)
      (hd.level_ok (level + 1)) (hd.filter_ok (level + 1)) hwrite⟩

namespace Moves

theorem treeOk (h : Moves env level pre f post x z y) : TreeOk y.1 := h.writes.treeOk h.unlinked_ok

theorem unlinked_self (h : Moves env level pre f post x z y) :
    z.1.levelHead level = pre ++ post := by
  rw [h.unlinked, Function.update_self]

theorem unlinked_other (h : Moves env level pre f post x z y) {i : ℕ} (hi : i ≠ level) :
    z.1.levelHead i = x.1.levelHead i := by
  rw [h.unlinked, Function.update_of_ne hi]

theorem diskOk (h : Moves env level pre f post x z y) (hx : DiskOk x.1)
    (hmax : 2 ≤ env.levelMaxFileCount level) : DiskOk y.1 := by
  have hne : pre ++ post ≠ [] := by
    have hfull := h.full
    rw [h.source, List.length_append, List.length_cons] at hfull
    rw [Ne, ← List.length_eq_zero_iff, List.length_append]
    omega
  refine h.writes.diskOk ⟨h.unlinked_ok, fun i hi hnext => ?_⟩ fun _ => ?_
  · by_cases hil : i = level
    · rwa [hil, h.unlinked_self]
    · rw [h.unlinked_other hil]
      refine hx.occupied i hi ?_
      by_cases hnextl : i + 1 = level
      · rw [hnextl, h.source]
        simp
      · rwa [h.unlinked_other hnextl] at hnext
  · rwa [Nat.add_sub_cancel, h.unlinked_self]

theorem traced (h : Moves env level pre f post x z y) {buffer : EntryList} {ops : List Op} {k : ℤ}
    (hx : Traced (stack buffer x.1) ops k) : Traced (stack buffer y.1) ops k := by
  have hstack : ∀ (d : DiskMetaFile) i, 1 ≤ i →
      stack buffer d i = levelEntries (d.levelHead i) := by
    intro d i hi
    obtain ⟨j, rfl⟩ := Nat.exists_eq_add_of_le' hi
    rfl
  have hlevel := h.level_pos
  have hself : y.1.levelHead level = pre ++ post := by
    rw [(h.writes.other level (by omega)).1, h.unlinked_self]
  refine hx.moveDown (f := f.entries) h.level_lt (fun j hj hj' => ?_) ?_ ?_ ?_
  · cases j with
    | zero => rfl
    | succ j => rw [stack, stack, (h.writes.other _ hj').1, h.unlinked_other hj]
  · rw [hstack _ _ hlevel, hstack _ _ hlevel, hself, h.source]
    exact overAt_unlink h.source_ok k
  · rw [hstack _ _ (by omega), hstack _ _ (by omega), ← h.unlinked_other (by omega)]
    exact h.writes.overAt k
  · rw [hstack _ _ hlevel, hself]
    exact notMem_support_unlink h.source_ok

end Moves

end Step

section Balance

def DiskMetaFile.entryCount (d : DiskMetaFile) (count : EntryList → ℕ) : ℕ :=
  ∑ i ∈ Finset.Icc 1 31, count (levelEntries (d.levelHead i))

theorem entryCount_replace (count : EntryList → ℕ) {d d' : DiskMetaFile} {level : ℕ}
    (hlevel : 1 ≤ level) (hle : level ≤ 31)
    (h : ∀ i, i ≠ level → d'.levelHead i = d.levelHead i) :
    d'.entryCount count + count (levelEntries (d.levelHead level)) =
      d.entryCount count + count (levelEntries (d'.levelHead level)) := by
  have hmem : level ∈ Finset.Icc 1 31 := Finset.mem_Icc.mpr ⟨hlevel, hle⟩
  have hrest : ∑ i ∈ (Finset.Icc 1 31).erase level, count (levelEntries (d'.levelHead i)) =
      ∑ i ∈ (Finset.Icc 1 31).erase level, count (levelEntries (d.levelHead i)) :=
    Finset.sum_congr rfl fun i hi => by rw [h i (Finset.ne_of_mem_erase hi)]
  rw [DiskMetaFile.entryCount, DiskMetaFile.entryCount, ← Finset.add_sum_erase _ _ hmem,
    ← Finset.add_sum_erase _ _ hmem, hrest]
  omega

/-- Entries that enter the tree are in it afterwards or have been counted as dropped; a split
makes two ranges of one. -/
structure Balances (points ranges : ℕ) (x y : Tree) : Prop where
  points_eq : y.1.entryCount (·.points.length) + y.2.droppedPoints =
    points + x.1.entryCount (·.points.length) + x.2.droppedPoints
  ranges_eq : y.1.entryCount (·.ranges.length) + y.2.totalMergeDeletedRangeEntryCount +
      x.2.totalFileBoundarySplitRangeEntryCount =
    ranges + x.1.entryCount (·.ranges.length) + x.2.totalMergeDeletedRangeEntryCount +
      y.2.totalFileBoundarySplitRangeEntryCount

variable {x y z : Tree} {points ranges level : ℕ} {l : EntryList}

theorem Balances.trans (h : Balances points ranges x y) (h' : Balances 0 0 y z) :
    Balances points ranges x z := by
  obtain ⟨hp, hr⟩ := h
  obtain ⟨hp', hr'⟩ := h'
  exact ⟨by omega, by omega⟩

theorem Writes.balances (h : Writes level l x y) (hlevel : 1 ≤ level) (hle : level ≤ 31) :
    Balances l.points.length l.ranges.length x y := by
  have hother : ∀ i, i ≠ level → y.1.levelHead i = x.1.levelHead i := fun i hi => (h.other i hi).1
  have hp := entryCount_replace (·.points.length) hlevel hle hother
  have hr := entryCount_replace (·.ranges.length) hlevel hle hother
  have := h.points_length
  have := h.ranges_length
  exact ⟨by omega, by omega⟩

theorem Moves.balances {env : EmuEnv} {pre post : List SSTFile} {f : SSTFile}
    (h : Moves env level pre f post x z y) : Balances 0 0 x y := by
  have hlevel := h.level_pos
  have hlt := h.level_lt
  have hp := entryCount_replace (·.points.length) hlevel hlt.le
    fun i hi => h.unlinked_other hi
  have hr := entryCount_replace (·.ranges.length) hlevel hlt.le
    fun i hi => h.unlinked_other hi
  obtain ⟨hp', hr'⟩ := h.writes.balances (by omega) (by omega)
  have h₁ := length_levelEntries_append pre (f :: post)
  have h₂ := length_levelEntries_append pre post
  simp only [levelEntries, EntryList.append, List.length_append] at h₁
  rw [h.source, h.unlinked_self] at hp hr
  rw [h.counters_eq] at hp' hr'
  exact ⟨by omega, by omega⟩

end Balance

section Cascade

variable {env : EmuEnv}

theorem pushes_treeOk (hstores : env.StoresAll) {x y : Tree} (h : ReflTransGen (Push env) x y)
    (hx : TreeOk x.1) : TreeOk y.1 := by
  induction h with
  | refl => exact hx
  | tail _ hpush ih =>
    obtain ⟨level, pre, f, post, z, hmoves⟩ := hpush.moves hstores ih
    exact hmoves.treeOk

theorem pushes_induction (hstores : env.StoresAll) {P : Tree → Prop} {x y : Tree}
    (hstep : ∀ {level pre f post x z y}, Moves env level pre f post x z y → P x → P y)
    (h : ReflTransGen (Push env) x y) (hx : TreeOk x.1) (hP : P x) : P y := by
  induction h with
  | refl => exact hP
  | tail hpushes hpush ih =>
    obtain ⟨level, pre, f, post, z, hmoves⟩ := hpush.moves hstores
      (pushes_treeOk hstores hpushes hx)
    exact hstep hmoves ih

/-- A list that has been sorted and removed from where it came from goes into a level, and the
level is adjusted. -/
def countedWriteAndAdjust (env : EmuEnv) (below level : ℕ) (l : EntryList) (x : Tree) :
    Option Tree :=
  (countedWriteLevel env level l x).bind fun y =>
    countedAdjust env (countedSortAndWrite env below (level + 1)) level
      (y.1.levelHead level).length y

theorem countedSortAndWrite_succ (below level : ℕ) (l : EntryList) (x : Tree) :
    countedSortAndWrite env (below + 1) level l x = (sortEntries level l).bind fun sorted =>
      (removeFromUpperLevel level sorted x.1).bind fun d =>
        countedWriteAndAdjust env below level sorted (d, x.2.noteSorting level l) := rfl

theorem countedSortAndWrite_sorted {below level : ℕ} {l : EntryList} {x : Tree} (hl : l.Sorted)
    (hlevel : level ≠ 1) :
    countedSortAndWrite env (below + 1) level l x = (removeFromUpperLevel level l x.1).bind fun d =>
      countedWriteAndAdjust env below level l (d, x.2) := by
  rw [countedSortAndWrite_succ, sortEntries, if_neg hlevel, sort_sorted hl, Option.bind_some,
    TreeCounters.noteSorting, if_neg hlevel]

theorem exists_eraseIdx_eq {files : List SSTFile} {i : ℕ} {f : SSTFile}
    (h : files[i]? = some f) :
    ∃ pre post, files = pre ++ f :: post ∧ files.eraseIdx i = pre ++ post := by
  obtain ⟨hi, hget⟩ := List.getElem?_eq_some_iff.mp h
  have hfiles := (List.take_append_drop i files).symm
  rw [List.drop_eq_getElem_cons hi, hget] at hfiles
  exact ⟨_, _, hfiles, List.eraseIdx_eq_take_drop_succ files i⟩

/-- The statement of the induction over the levels below: the recursion is a write and pushes. -/
def Cascades (env : EmuEnv) (below level : ℕ) : Prop :=
  ∀ {l : EntryList} {x y : Tree}, TreeOk x.1 → l.Sorted → l.InRange → l.support.Nonempty →
    countedWriteAndAdjust env below level l x = some y →
    ∃ x₁, countedWriteLevel env level l x = some x₁ ∧ ReflTransGen (Push env) x₁ y

theorem push_pushes {below level i : ℕ} (hlevel : 1 ≤ level)
    (hsum : below + level ≤ 31) (hbelow : ∀ b, below = b + 1 → Cascades env b (level + 1))
    {x y : Tree} {f : SSTFile} (hx : TreeOk x.1)
    (hfull : env.levelMaxFileCount level ≤ (x.1.levelHead level).length)
    (hf : (x.1.levelHead level)[i]? = some f)
    (h : countedSortAndWrite env below (level + 1) f.entries
      (x.1.setSSTFileHead level ((x.1.levelHead level).eraseIdx i), x.2) = some y) :
    ReflTransGen (Push env) x y := by
  have hok := hx.level_ok level
  have hmem : f ∈ x.1.levelHead level := List.mem_of_getElem? hf
  obtain ⟨pre, post, hfiles, herase⟩ := exists_eraseIdx_eq hf
  cases below with
  | zero => cases h
  | succ b =>
    rw [herase, countedSortAndWrite_sorted (hok.sorted f hmem) (by omega)] at h
    obtain ⟨d, hremove, h⟩ := Option.bind_eq_some_iff.mp h
    obtain ⟨hd, _⟩ := removeFromUpperLevel_spec hx hlevel hfiles hremove
    obtain ⟨x₁, hwrite, hpushes⟩ := hbelow b rfl hd (hok.sorted f hmem) (hok.inRange f hmem)
      (hok.nonempty f hmem) h
    have hstep : Push env x x₁ :=
      ⟨level, pre, f, post, d, hlevel, by omega, hfull, hfiles, hremove, hwrite⟩
    exact hpushes.head hstep

theorem adjust_pushes (hstores : env.StoresAll) {below level : ℕ} (hlevel : 1 ≤ level)
    (hsum : below + level ≤ 31) (hbelow : ∀ b, below = b + 1 → Cascades env b (level + 1)) {n : ℕ}
    {x y : Tree} (hx : TreeOk x.1)
    (h : countedAdjust env (countedSortAndWrite env below (level + 1)) level n x = some y) :
    ReflTransGen (Push env) x y := by
  induction n generalizing x with
  | zero =>
    rw [countedAdjust, Option.ite_none_left_eq_some] at h
    exact Option.some.inj h.2 ▸ ReflTransGen.refl
  | succ n ih =>
    rw [countedAdjust] at h
    split_ifs at h with hfull
    · obtain ⟨f, hf, h⟩ := Option.bind_eq_some_iff.mp h
      obtain ⟨x₁, hpush, h⟩ := Option.bind_eq_some_iff.mp h
      have hpushes := push_pushes hlevel hsum hbelow hx hfull hf hpush
      exact hpushes.trans (ih (pushes_treeOk hstores hpushes hx) h)
    · exact Option.some.inj h ▸ ReflTransGen.refl

theorem cascades (hstores : env.StoresAll) (below : ℕ) {level : ℕ} (hlevel : 1 ≤ level)
    (hsum : below + level ≤ 31) : Cascades env below level := by
  induction below using Nat.strong_induction_on generalizing level with
  | _ below ih =>
    intro l x y hx hl hr hne h
    obtain ⟨x₁, hwrite, h⟩ := Option.bind_eq_some_iff.mp h
    have hwrites := countedWriteLevel_spec hstores hl hr hne (hx.level_ok level)
      (hx.filter_ok level) hwrite
    exact ⟨x₁, hwrite, adjust_pushes hstores hlevel hsum
      (fun b hb => ih b (by omega) (by omega) (by omega)) (hwrites.treeOk hx) h⟩

theorem writeAndAdjust_eq_none (hstores : env.StoresAll) (below : ℕ) {level : ℕ}
    (hlevel : 1 ≤ level) (hmax : ∀ i, level ≤ i → env.levelMaxFileCount i ≤ 1) {l : EntryList}
    {x : Tree} (hx : TreeOk x.1) (hl : l.Sorted) (hr : l.InRange) (hne : l.support.Nonempty) :
    countedWriteAndAdjust env below level l x = none := by
  induction below using Nat.strong_induction_on generalizing level l x with
  | _ below ih =>
    rw [countedWriteAndAdjust, Option.bind_eq_none_iff]
    intro y hwrite
    have hwrites := countedWriteLevel_spec hstores hl hr hne (hx.level_ok level)
      (hx.filter_ok level) hwrite
    have hy := hwrites.treeOk hx
    have hok := hy.level_ok level
    obtain ⟨n, hn⟩ := Nat.exists_eq_add_of_le' (List.length_pos_iff.mpr hwrites.occupied)
    have hfull : env.levelMaxFileCount level ≤ (y.1.levelHead level).length :=
      (hmax level le_rfl).trans (List.length_pos_iff.mpr hwrites.occupied)
    rw [hn, countedAdjust, if_pos hfull, Option.bind_eq_none_iff]
    intro f hf
    have hmem : f ∈ y.1.levelHead level := List.mem_of_getElem? hf
    obtain ⟨pre, post, hfiles, herase⟩ := exists_eraseIdx_eq hf
    cases below with
    | zero => rfl
    | succ b =>
      rw [herase, countedSortAndWrite_sorted (hok.sorted f hmem) (by omega), Option.bind_assoc,
        Option.bind_eq_none_iff]
      intro d hremove
      obtain ⟨hd, _⟩ := removeFromUpperLevel_spec hy hlevel hfiles hremove
      rw [ih b (by omega) (by omega) (fun i hi => hmax i (by omega)) hd (hok.sorted f hmem)
        (hok.inRange f hmem) (hok.nonempty f hmem), Option.bind_none]

theorem countedAdjust_eq_none {push : EntryList → Tree → Option Tree} {level : ℕ}
    (hmax : env.levelMaxFileCount level = 0) (n : ℕ) (x : Tree) :
    countedAdjust env push level n x = none := by
  induction n generalizing x with
  | zero => rw [countedAdjust, if_pos (by omega)]
  | succ n ih =>
    rw [countedAdjust, if_pos (by omega), Option.bind_eq_none_iff]
    intro f _
    rw [Option.bind_eq_none_iff]
    exact fun y _ => ih y

theorem sortEntries_flush {l sorted : EntryList} (hl : l.Raw) (hr : l.InRange)
    (hne : l.support.Nonempty) (h : sortEntries 1 l = some sorted) :
    sorted.Sorted ∧ sorted.InRange ∧ sorted.support.Nonempty := by
  obtain ⟨hsorted, _, hverdict⟩ := sortEntries_raw hl h
  have hsupport : sorted.support = l.support := by
    ext k
    rw [← not_iff_not, ← EntryList.verdict_eq_none_iff, ← EntryList.verdict_eq_none_iff, hverdict]
  exact ⟨hsorted, by rwa [EntryList.InRange, hsupport], hsupport ▸ hne⟩

theorem flush_pushes (hstores : env.StoresAll) {l : EntryList} {x y : Tree} (hx : TreeOk x.1)
    (hl : l.Raw) (hr : l.InRange) (hne : l.support.Nonempty)
    (h : countedSortAndWrite env 31 1 l x = some y) :
    ∃ sorted x₁, sortEntries 1 l = some sorted ∧
      Writes 1 sorted (x.1, x.2.noteSorting 1 l) x₁ ∧ ReflTransGen (Push env) x₁ y := by
  rw [countedSortAndWrite_succ] at h
  obtain ⟨sorted, hsort, h⟩ := Option.bind_eq_some_iff.mp h
  obtain ⟨d, hremove, h⟩ := Option.bind_eq_some_iff.mp h
  rw [removeFromUpperLevel, if_neg (lt_irrefl 1)] at hremove
  obtain rfl := Option.some.inj hremove
  obtain ⟨hsorted, hinRange, hnonempty⟩ := sortEntries_flush hl hr hne hsort
  have hx' : TreeOk (x.1, x.2.noteSorting 1 l).1 := hx
  obtain ⟨x₁, hwrite, hpushes⟩ := cascades hstores 30 le_rfl (by omega) hx' hsorted hinRange
    hnonempty h
  exact ⟨sorted, x₁, hsort, countedWriteLevel_spec hstores hsorted hinRange hnonempty
    (hx'.level_ok 1) (hx'.filter_ok 1) hwrite, hpushes⟩

theorem flush_eq_none (hstores : env.StoresAll) {T : ℤ} (hT : T ≤ 1)
    (hlimits : ∀ i, env.levelMaxFileCount i = (T ^ i).toNat) {l : EntryList} {x : Tree}
    (hx : TreeOk x.1) (hl : l.Raw) (hr : l.InRange) (hne : l.support.Nonempty) :
    countedSortAndWrite env 31 1 l x = none := by
  rw [countedSortAndWrite_succ, Option.bind_eq_none_iff]
  intro sorted hsort
  obtain ⟨hsorted, hinRange, hnonempty⟩ := sortEntries_flush hl hr hne hsort
  rw [removeFromUpperLevel, if_neg (lt_irrefl 1), Option.bind_some]
  rcases Int.lt_or_eq_of_le hT with hT | rfl
  · rw [countedWriteAndAdjust, Option.bind_eq_none_iff]
    intro y _
    refine countedAdjust_eq_none ?_ _ _
    rw [hlimits, pow_one, Int.toNat_of_nonpos (by omega)]
  · refine writeAndAdjust_eq_none hstores 30 le_rfl (fun i _ => ?_) hx hsorted hinRange hnonempty
    rw [hlimits, one_pow, Int.toNat_one]

theorem Writes.traced {l sorted : EntryList} {x y : Tree} (h : Writes 1 sorted x y)
    (hcoverage : coverage sorted.ranges = coverage l.ranges)
    (hverdict : ∀ k, sorted.verdict k = l.verdict k) {ops : List Op} {k : ℤ}
    (htraced : Traced (stack l x.1) ops k) : Traced (stack EntryList.clear y.1) ops k := by
  have hover := h.overAt k
  refine htraced.moveDown (i := 0) (f := l) (by omega) (fun j hj hj' => ?_) ⟨?_, ?_⟩ ⟨?_, ?_⟩
    fun _ => ?_
  · cases j with
    | zero => exact absurd rfl hj
    | succ j => rw [stack, stack, (h.other (j + 1) hj').1]
  · rw [stack, stack, EntryList.verdict_clear, Option.or_none]
  · simp [stack, EntryList.clear]
  · rw [← hverdict]
    exact hover.verdict_eq
  · rw [← hcoverage]
    exact hover.covered_iff
  · rw [stack, EntryList.support_clear]
    exact Set.notMem_empty k

/-- The tree before and after the entries of the buffer have been flushed. -/
structure Flushes (env : EmuEnv) (l : EntryList) (x y : Tree) : Prop where
  tree_ok : TreeOk y.1
  disk_ok : (∀ i, 1 ≤ i → i ≤ 31 → 2 ≤ env.levelMaxFileCount i) → DiskOk x.1 → DiskOk y.1
  traced : ∀ ops k, Traced (stack l x.1) ops k → Traced (stack EntryList.clear y.1) ops k
  balances : Balances l.points.length l.ranges.length x y

theorem flush_spec (hstores : env.StoresAll) {l : EntryList} {x y : Tree} (hx : TreeOk x.1)
    (hl : l.Raw) (hr : l.InRange) (hne : l.support.Nonempty)
    (h : countedSortAndWrite env 31 1 l x = some y) : Flushes env l x y := by
  obtain ⟨sorted, x₁, hsort, hwrites, hpushes⟩ := flush_pushes hstores hx hl hr hne h
  obtain ⟨hsorted, hcoverage, hverdict⟩ := sortEntries_raw hl hsort
  have hx₁ := hwrites.treeOk hx
  refine ⟨pushes_treeOk hstores hpushes hx₁, fun hmax hdisk => ?_, fun ops k htraced => ?_, ?_⟩
  · refine pushes_induction hstores (P := fun z => DiskOk z.1) (fun hmoves hz => ?_) hpushes hx₁
      (hwrites.diskOk hdisk fun h => absurd h (lt_irrefl 1))
    exact hmoves.diskOk hz (hmax _ hmoves.level_pos hmoves.level_lt.le)
  · exact pushes_induction hstores (P := fun z => Traced (stack EntryList.clear z.1) ops k)
      (fun hmoves hz => hmoves.traced hz) hpushes hx₁
      (hwrites.traced hcoverage hverdict htraced)
  · refine Balances.trans ?_ (pushes_induction hstores (P := Balances 0 0 x₁)
      (fun hmoves hz => hz.trans hmoves.balances) hpushes hx₁ ⟨by omega, by omega⟩)
    obtain ⟨hpoints, hranges⟩ := hwrites.balances le_rfl (by omega)
    obtain ⟨hlength, hlength'⟩ := length_sortEntries hsort x.2
    obtain ⟨hdropped, hsplits⟩ := noteSorting_eq 1 l x.2
    simp only at hpoints hranges
    exact ⟨by omega, by omega⟩

end Cascade

end Spry.Emulation
