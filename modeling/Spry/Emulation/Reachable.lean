import Spry.Emulation.Run

/-!
# Reachable states of the emulator

In every state that a workload reaches the filters of a level are exact, the files of a level are
sorted and separate, and the levels hold consecutive segments of the workload, the deepest one
the oldest. The counters always balance with the whole tree. `checkEquation` counts the levels up
to the first empty one only, so it fails as soon as a file lies below an empty level.
-/

namespace Spry.Emulation

open ClosedRange PerlevelRangeDeleteFilter

variable {env : EmuEnv} {ops : List Op} {s : Emulator} {c : Counters}

section Filters

theorem isAliveAtLevel_eq_some {filters : List (List (ℤ × ℤ))} {level : ℕ} {k : ℤ} {alive : Bool}
    (h : Ordered (filters.getD level [])) (halive : isAliveAtLevel filters level k = some alive) :
    alive = true ↔ k ∉ coverage (filters.getD level []) := by
  rw [isAliveAtLevel, Option.ite_none_left_eq_some] at halive
  rw [← Option.some.inj halive.2]
  exact isEntryAlive_iff h

/-- The filter of a level covers the range entries of its files, the split filter covers them
without the keys of its points, and a query of either filter answers accordingly. -/
theorem filters_exact (hstores : env.StoresAll) (hops : ∀ op ∈ ops, op.Valid)
    (hrun : Emulator.run env ops = some s) (level : ℕ) (k : ℤ) :
    (k ∈ coverage (s.disk.filter.getD level []) ↔
      ∃ f ∈ s.disk.levelHead level, k ∈ coverage f.entries.ranges) ∧
    (k ∈ coverage (s.disk.filterSplit.getD level []) ↔
      (∃ f ∈ s.disk.levelHead level, k ∈ coverage f.entries.ranges) ∧
        ¬ ∃ f ∈ s.disk.levelHead level, k ∈ pointKeys f.entries.points) ∧
    (∀ alive, isAliveAtLevel s.disk.filter level k = some alive →
      (alive = true ↔ ¬ ∃ f ∈ s.disk.levelHead level, k ∈ coverage f.entries.ranges)) ∧
    ∀ alive, isAliveAtLevel s.disk.filterSplit level k = some alive →
      (alive = true ↔ ¬ ((∃ f ∈ s.disk.levelHead level, k ∈ coverage f.entries.ranges) ∧
        ¬ ∃ f ∈ s.disk.levelHead level, k ∈ pointKeys f.entries.points)) := by
  obtain ⟨c, hs⟩ := run_spec hstores hops hrun
  have hfilter := hs.tree_ok.filter_ok level
  have hcoverage : k ∈ coverage (s.disk.filter.getD level []) ↔
      ∃ f ∈ s.disk.levelHead level, k ∈ coverage f.entries.ranges := by
    rw [hfilter.coverage_eq, mem_coverage_levelEntries]
  have hsplit : k ∈ coverage (s.disk.filterSplit.getD level []) ↔
      (∃ f ∈ s.disk.levelHead level, k ∈ coverage f.entries.ranges) ∧
        ¬ ∃ f ∈ s.disk.levelHead level, k ∈ pointKeys f.entries.points := by
    rw [hfilter.coverage_split, Set.mem_sdiff, mem_coverage_levelEntries,
      mem_pointKeys_levelEntries]
  refine ⟨hcoverage, hsplit, fun alive halive => ?_, fun alive halive => ?_⟩
  · rw [isAliveAtLevel_eq_some hfilter.ordered halive, hcoverage]
  · rw [isAliveAtLevel_eq_some hfilter.ordered_split halive, hsplit]

theorem filters_exact_sampleOps : ∃ s, Emulator.run sampleEnv sampleOps = some s ∧
    s.disk.filter.getD 2 [] = [(5, 8)] ∧
    ∃ f ∈ s.disk.levelHead 2, 5 ∈ coverage f.entries.ranges := by
  have hfilter : ((Emulator.run sampleEnv sampleOps).map fun s => s.disk.filter.getD 2 []) =
      some [(5, 8)] := by decide
  obtain ⟨s, hrun, hfilter⟩ := Option.map_eq_some_iff.mp hfilter
  have hexact := filters_exact storesAll_sampleEnv valid_sampleOps hrun 2 5
  refine ⟨s, hrun, hfilter, hexact.1.mp ?_⟩
  rw [hfilter]
  decide

end Filters

section Order

/-- The files of a level have bounds in order, and so have the entries along the level. -/
structure LevelSorted (files : List SSTFile) : Prop where
  min_le_max : ∀ f ∈ files, f.getSSTMinKey ≤ f.getSSTMaxKey
  separate : files.Pairwise fun f g => f.getSSTMaxKey < g.getSSTMinKey
  points : (files.flatMap fun f => f.entries.points).Pairwise fun p q => p.sortKey < q.sortKey
  ranges : (files.flatMap fun f => f.entries.ranges).Pairwise fun a b =>
    Disjoint (Set.Icc a.1 a.2) (Set.Icc b.1 b.2)

theorem levelEntries_eq (files : List SSTFile) :
    levelEntries files = ⟨files.flatMap fun f => f.entries.points,
      files.flatMap fun f => f.entries.ranges⟩ := by
  induction files with
  | nil => rfl
  | cons f fs ih => rw [levelEntries, ih, EntryList.append, List.flatMap_cons, List.flatMap_cons]

theorem LevelOk.levelSorted {files : List SSTFile} (h : LevelOk files) : LevelSorted files := by
  have hsorted := h.sorted_levelEntries
  rw [levelEntries_eq] at hsorted
  refine ⟨fun f hf => h.min_le_max hf, ?_, hsorted.points, ?_⟩
  · refine h.apart.imp_of_mem fun {f g} hf hg hbefore => ?_
    exact hbefore _ (h.isGreatest_max hf).1 _ (h.isLeast_min hg).1
  · refine hsorted.ranges.disjoint.imp fun {a b} hab => ?_
    rw [Set.disjoint_left]
    intro k hka hkb
    exact absurd (hka.2.trans_lt (hab.trans_le hkb.1)) (lt_irrefl k)

/-- Every level is sorted. For every key the workload consists of consecutive segments, one for
each level and the last one for the buffer: the points and the covering ranges of a level are the
ones its segment issued, and the segments of shallower levels come later. -/
theorem levels_sorted_and_recent (hstores : env.StoresAll) (hops : ∀ op ∈ ops, op.Valid)
    (hrun : Emulator.run env ops = some s) :
    (∀ level, LevelSorted (s.disk.levelHead level)) ∧
    ∀ k, ∃ seg, replay seg 32 = ops ∧ ∀ i, i < 32 →
      (∀ v, ⟨k, v⟩ ∈ (stack s.buffer s.disk i).points ↔ Latest (seg i) k v) ∧
      (k ∈ coverage (stack s.buffer s.disk i).ranges ↔ Deletes (seg i) k) := by
  obtain ⟨c, hs⟩ := run_spec hstores hops hrun
  refine ⟨fun level => (hs.tree_ok.level_ok level).levelSorted, fun k => ?_⟩
  obtain ⟨seg, hreplay, hrecords⟩ := hs.traced k
  refine ⟨seg, hreplay, fun i hi => ⟨fun v => ?_, (hrecords i hi).covered_iff⟩⟩
  refine (hrecords i hi).mem_points_iff ?_
  cases i with
  | zero => exact hs.raw.distinct
  | succ i => exact (hs.tree_ok.level_ok (i + 1)).sorted_levelEntries.points.distinct

theorem levels_sorted_and_recent_sampleOps : ∃ s, Emulator.run sampleEnv sampleOps = some s ∧
    LevelSorted (s.disk.levelHead 2) ∧
    ∃ seg, replay seg 32 = sampleOps ∧ Latest (seg 2) 7 [9] ∧ Deletes (seg 2) 7 := by
  have hlevel : ((Emulator.run sampleEnv sampleOps).map fun s => stack s.buffer s.disk 2) =
      some ⟨[⟨7, [9]⟩], [(5, 8)]⟩ := by decide
  obtain ⟨s, hrun, hlevel⟩ := Option.map_eq_some_iff.mp hlevel
  obtain ⟨hsorted, hrecent⟩ := levels_sorted_and_recent storesAll_sampleEnv valid_sampleOps hrun
  obtain ⟨seg, hreplay, hseg⟩ := hrecent 7
  obtain ⟨hpoints, hranges⟩ := hseg 2 (by omega)
  rw [hlevel] at hpoints hranges
  exact ⟨s, hrun, hsorted 2, seg, hreplay, (hpoints [9]).mp (by simp), hranges.mp (by decide)⟩

end Order

section Equation

def DiskMetaFile.Gapless (d : DiskMetaFile) : Prop :=
  ∀ i, 1 ≤ i → i < 31 → d.levelHead (i + 1) ≠ [] → d.levelHead i ≠ []

theorem countLevels_eq_some {d : DiskMetaFile} {below level n : ℕ}
    (h : d.countLevels below level = some n) :
    n < below ∧ (∀ i, level ≤ i → i < level + n → d.levelHead i ≠ []) ∧
      d.levelHead (level + n) = [] := by
  induction below generalizing level n with
  | zero => cases h
  | succ below ih =>
    rw [DiskMetaFile.countLevels] at h
    split_ifs at h with hempty
    · obtain rfl := Option.some.inj h
      exact ⟨Nat.succ_pos below, fun i h₁ h₂ => absurd h₂ (by omega), hempty⟩
    · obtain ⟨m, hm, rfl⟩ := Option.map_eq_some_iff.mp h
      obtain ⟨hlt, hne, hnil⟩ := ih hm
      refine ⟨by omega, fun i h₁ h₂ => ?_, by rwa [Nat.add_right_comm] at hnil⟩
      by_cases hi : i = level
      · exact hi ▸ hempty
      · exact hne i (by omega) (by omega)

theorem gapless_iff {d : DiskMetaFile} {n : ℕ} (h : d.getTotalLevelCount = some n) :
    d.Gapless ↔ ∀ i ∈ Finset.Ico n 31, d.levelHead (i + 1) = [] := by
  obtain ⟨_, hne, hnil⟩ := countLevels_eq_some h
  constructor
  · intro hgapless i hi
    rw [Finset.mem_Ico] at hi
    obtain ⟨hni, hlt⟩ := hi
    induction i, hni using Nat.le_induction with
    | base => rwa [Nat.add_comm]
    | succ i hni ih =>
      by_contra hnext
      exact hgapless (i + 1) (by omega) hlt hnext (ih (by omega))
  · intro hempty i hi hlt hnext
    by_cases hin : i < 1 + n
    · exact hne i hi hin
    · exact absurd (hempty i (Finset.mem_Ico.mpr ⟨by omega, hlt⟩)) hnext

theorem sum_pages {α : Type} (tiles : List (List (List α))) :
    (tiles.map fun tile => (tile.map List.length).sum).sum = tiles.flatten.flatten.length := by
  rw [List.length_flatten, List.map_flatten, List.sum_flatten, List.map_map]
  rfl

theorem getLevelPointEntryCount_eq (d : DiskMetaFile) (level : ℕ) :
    d.getLevelPointEntryCount level = (levelEntries (d.levelHead level)).points.length := by
  simp only [DiskMetaFile.getLevelPointEntryCount, levelEntries_eq, List.length_flatMap,
    SSTFile.entries, sum_pages]

theorem getLevelRangeEntryCount_eq (d : DiskMetaFile) (level : ℕ) :
    d.getLevelRangeEntryCount level = (levelEntries (d.levelHead level)).ranges.length := by
  simp only [DiskMetaFile.getLevelRangeEntryCount, levelEntries_eq, List.length_flatMap,
    SSTFile.entries, sum_pages]

/-- The entries of the tree are those of the first `n` levels and those below. -/
theorem entryCount_eq (d : DiskMetaFile) (count : EntryList → ℕ) {n : ℕ} (hn : n ≤ 31) :
    d.entryCount count =
      ((List.range n).map fun i => count (levelEntries (d.levelHead (i + 1)))).sum +
        ∑ i ∈ Finset.Ico n 31, count (levelEntries (d.levelHead (i + 1))) := by
  have hshift : d.entryCount count =
      ∑ i ∈ Finset.range 31, count (levelEntries (d.levelHead (i + 1))) := by
    rw [DiskMetaFile.entryCount, Finset.range_eq_Ico]
    exact (Finset.sum_Ico_add' (fun i => count (levelEntries (d.levelHead i))) 0 31 1).symm
  rw [hshift, ← Finset.sum_range_add_sum_Ico _ hn, ← List.sum_toFinset _ List.nodup_range,
    List.toFinset_range]

theorem levelEntries_lengths_eq_zero {files : List SSTFile} (h : LevelOk files) :
    (levelEntries files).points.length = 0 ∧ (levelEntries files).ranges.length = 0 ↔
      files = [] := by
  rw [List.length_eq_zero_iff, List.length_eq_zero_iff, ← EntryList.empty_iff]
  constructor
  · intro hempty
    by_contra hne
    obtain ⟨f, hf⟩ := List.exists_mem_of_ne_nil _ hne
    obtain ⟨k, hk⟩ := h.nonempty f hf
    exact EntryList.not_empty_of_nonempty ⟨k, mem_support_levelEntries.mpr ⟨f, hf, hk⟩⟩ hempty
  · rintro rfl
    rfl

/-- The identities that `checkEquation` asserts hold in a reached state exactly if no file lies
below an empty level. -/
theorem checkEquation_iff_gapless (hs : Replays env ops s c)
    (hcount : s.disk.getTotalLevelCount ≠ none) :
    s.checkEquation c = some true ↔ s.disk.Gapless := by
  obtain ⟨n, hn⟩ := Option.ne_none_iff_exists'.mp hcount
  have hlt : n < 31 := (countLevels_eq_some hn).1
  obtain ⟨_, _, hpoints, hranges⟩ := hs.balanced
  rw [entryCount_eq _ _ hlt.le, TreeCounters.droppedPoints] at hpoints
  rw [entryCount_eq _ _ hlt.le] at hranges
  have hrest : s.disk.Gapless ↔
      ∑ i ∈ Finset.Ico n 31, (levelEntries (s.disk.levelHead (i + 1))).points.length = 0 ∧
      ∑ i ∈ Finset.Ico n 31, (levelEntries (s.disk.levelHead (i + 1))).ranges.length = 0 := by
    rw [gapless_iff hn, Finset.sum_eq_zero_iff, Finset.sum_eq_zero_iff]
    simp only [← forall_and, ← levelEntries_lengths_eq_zero (hs.tree_ok.level_ok _)]
  unfold Emulator.checkEquation DiskMetaFile.getTotalPointEntryCount
    DiskMetaFile.getTotalRangeEntryCount
  simp only [hn, Option.map_some, Option.bind_eq_bind, Option.bind_some, Option.pure_def,
    Option.some.injEq, decide_eq_true_eq, getLevelPointEntryCount_eq, getLevelRangeEntryCount_eq]
  rw [hrest]
  omega

theorem disk_eq_initial (hstores : env.StoresAll)
    (hflush : ∀ {l : EntryList} {x : Tree}, TreeOk x.1 → l.Raw → l.InRange →
      l.support.Nonempty → countedSortAndWrite env 31 1 l x = none)
    (hops : ∀ op ∈ ops, op.Valid) (hrun : Emulator.countedRun env ops = some (s, c)) :
    s.disk = DiskMetaFile.initial := by
  induction ops using List.reverseRecOn generalizing s c with
  | nil => exact (Prod.mk.inj (Option.some.inj hrun)).1 ▸ rfl
  | append_singleton ops op ih =>
    have hops' : ∀ o ∈ ops, o.Valid := fun o ho => hops o (by simp [ho])
    obtain ⟨s₀, c₀, hrun₀, hstep⟩ := countedRun_snoc hrun
    obtain ⟨s₁, c₁, hs₁, hne, hdisk, heq⟩ :=
      exists_countedStep_eq (countedRun_spec hstores hops' hrun₀) (hops op (by simp))
    rw [heq, Emulator.countedCheckBufferFlush] at hstep
    split_ifs at hstep
    · rw [hflush (x := (s₁.disk, c₁.tree)) hs₁.tree_ok hs₁.raw hs₁.inRange hne] at hstep
      cases hstep
    · rw [← (Prod.mk.inj (Option.some.inj hstep)).1, hdisk, ih hops' hrun₀]

/-- The limits of the levels are the powers of the size ratio. With a ratio of at least two no
level runs empty again, and with a smaller one no flush ends. -/
theorem checkEquation_eq_true {T : ℤ} (hlimits : ∀ i, env.levelMaxFileCount i = (T ^ i).toNat)
    (hstores : env.StoresAll) (hops : ∀ op ∈ ops, op.Valid)
    (hrun : Emulator.countedRun env ops = some (s, c))
    (hcount : s.disk.getTotalLevelCount ≠ none) : s.checkEquation c = some true := by
  have hs := countedRun_spec hstores hops hrun
  rw [checkEquation_iff_gapless hs hcount]
  intro i hi _
  by_cases hT : T ≤ 1
  · rw [disk_eq_initial hstores (flush_eq_none hstores hT hlimits) hops hrun]
    exact fun h => h
  · refine (hs.disk_ok fun j hj _ => ?_).occupied i hi
    have hpow : T ≤ T ^ j := le_self_pow₀ (by omega) (by omega)
    rw [hlimits]
    omega

def ratioEnv : EmuEnv := { sampleEnv with levelMaxFileCount := fun i => 2 ^ i }

/-- An update in place, a range delete over a point of the buffer, points dropped by a merge and
by ranges on disk, and two levels in use. -/
def ratioOps : List Op :=
  sampleOps ++ [.insert 2 [7], .rangeDelete 1 2, .insert 3 [3], .insert 3 [4, 5], .insert 8 [1]]

theorem checkEquation_eq_true_ratioOps : ∃ s c,
    Emulator.countedRun ratioEnv ratioOps = some (s, c) ∧
    s.disk.getTotalLevelCount = some 2 ∧ s.checkEquation c = some true := by
  have hcount : ((Emulator.countedRun ratioEnv ratioOps).bind fun x =>
      x.1.disk.getTotalLevelCount) = some 2 := by decide
  obtain ⟨⟨s, c⟩, hrun, hcount⟩ := Option.bind_eq_some_iff.mp hcount
  have hlimits : ∀ i, ratioEnv.levelMaxFileCount i = ((2 : ℤ) ^ i).toNat := fun i => by
    simp [ratioEnv, Int.toNat_pow_of_nonneg]
  have hvalid : ∀ op ∈ ratioOps, op.Valid := by simp [ratioOps, sampleOps, Op.Valid]
  exact ⟨s, c, hrun, hcount, checkEquation_eq_true hlimits storesAll_sampleEnv hvalid hrun
    (by simp [hcount])⟩

end Equation

end Spry.Emulation
