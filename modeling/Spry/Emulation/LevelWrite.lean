import Spry.Emulation.Relink

/-!
# Writing a list of entries into a level

The filter of a level covers what its range entries cover, and the split filter covers that
without the keys of its points. Writing a list into a level keeps both, and the level then
answers like the list over what it held before.
-/

namespace Spry.Emulation

open ClosedRange PerlevelRangeDeleteFilter

structure FilterOk (rd rdSplit : List (ℤ × ℤ)) (l : EntryList) : Prop where
  ordered : Ordered rd
  ordered_split : Ordered rdSplit
  coverage_eq : coverage rd = coverage l.ranges
  coverage_split : coverage rdSplit = coverage l.ranges \ pointKeys l.points

section Update

variable {filters filters' : List (List (ℤ × ℤ))} {level : ℕ}
  {op : List (ℤ × ℤ) → Option (List (ℤ × ℤ))}

/-- What an operation on the filter of one level does to the vector of filters. -/
structure Updates (level : ℕ) (filters filters' : List (List (ℤ × ℤ))) (out : List (ℤ × ℤ)) :
    Prop where
  getD_level : filters'.getD level [] = out
  level_lt : level < filters'.length
  length_le : filters.length ≤ filters'.length
  getD_other : ∀ i, i ≠ level → filters'.getD i [] = filters.getD i []

theorem updates_set (out : List (ℤ × ℤ)) (h : level < filters.length) :
    Updates level filters (filters.set level out) out := by
  refine ⟨?_, by simpa using h, by simp, fun i hi => ?_⟩
  · simp [List.getD, h]
  · simp [List.getD, List.getElem?_set_ne (Ne.symm hi)]

theorem getD_snoc_nil (i : ℕ) : (filters ++ [[]]).getD i [] = filters.getD i [] := by
  rw [List.getD_eq_getElem?_getD, List.getD_eq_getElem?_getD]
  rcases Nat.lt_trichotomy i filters.length with h | rfl | h
  · rw [List.getElem?_append_left h]
  · simp
  · rw [List.getElem?_eq_none (by simp; omega), List.getElem?_eq_none (by omega)]

theorem updateFilterAtLevel_eq_some (h : updateFilterAtLevel level op filters = some filters') :
    ∃ out, op (filters.getD level []) = some out ∧ Updates level filters filters' out := by
  rw [updateFilterAtLevel] at h
  split_ifs at h with h₁ h₂
  · obtain ⟨out, hop, rfl⟩ := Option.map_eq_some_iff.mp h
    rw [getD_snoc_nil] at hop
    have hset : level < (filters ++ [[]]).length := by simp [h₂]
    obtain ⟨h₃, h₄, h₅, h₆⟩ := updates_set out hset
    refine ⟨out, hop, h₃, h₄, ?_, fun i hi => (h₆ i hi).trans (getD_snoc_nil i)⟩
    simp only [List.length_append, List.length_cons, List.length_nil] at h₅
    omega
  · obtain ⟨out, hop, rfl⟩ := Option.map_eq_some_iff.mp h
    exact ⟨out, hop, updates_set out (by omega)⟩

theorem updates_splitRangesAtLevel (l : EntryList) (h : level < filters.length) :
    Updates level filters (splitRangesAtLevel level l filters)
      (puncture (filters.getD level []) (l.points.map PointEntry.sortKey)) := by
  rw [splitRangesAtLevel, if_neg (by omega)]
  exact updates_set _ h

theorem iterate_splitRangesAtLevel {l : EntryList} (hl : l.Sorted) (h : level < filters.length)
    (hord : Ordered (filters.getD level [])) {rounds : ℕ} (hrounds : 0 < rounds) :
    ∃ out, Updates level filters ((splitRangesAtLevel level l)^[rounds] filters) out ∧
      Ordered out ∧ coverage out = coverage (filters.getD level []) \ pointKeys l.points := by
  have hkeys : {k | k ∈ l.points.map PointEntry.sortKey} = pointKeys l.points := by
    ext k
    simp [pointKeys]
  have hasc : (l.points.map PointEntry.sortKey).Pairwise (· < ·) := List.pairwise_map.mpr hl.points
  induction rounds with
  | zero => exact absurd hrounds (lt_irrefl 0)
  | succ n ih =>
    rw [Function.iterate_succ_apply']
    cases n with
    | zero =>
      obtain ⟨hcov, hout⟩ := puncture_spec hord hasc
      exact ⟨_, updates_splitRangesAtLevel l h, hout, hcov.trans (by rw [hkeys])⟩
    | succ n =>
      obtain ⟨mid, ⟨h₁, h₂, h₃, h₄⟩, hmid, hcovmid⟩ := ih (Nat.succ_pos n)
      obtain ⟨hcov, hout⟩ := puncture_spec hmid hasc
      obtain ⟨h₅, h₆, h₇, h₈⟩ := updates_splitRangesAtLevel l h₂
      rw [h₁] at h₅
      refine ⟨_, ⟨h₅, h₆, h₃.trans h₇, fun i hi => (h₈ i hi).trans (h₄ i hi)⟩, hout, ?_⟩
      rw [hcov, hcovmid, hkeys, sdiff_idem]

end Update

theorem addRangeDelete_spec {rd rs out : List (ℤ × ℤ)} (hrd : Ordered rd) (hrs : Ordered rs)
    (h : addRangeDelete rd rs = some out) :
    coverage out = coverage rd ∪ coverage rs ∧ Ordered out := by
  rw [addRangeDelete, Option.ite_none_right_eq_some] at h
  rw [← Option.some.inj h.2]
  exact uniteAll_spec hrd.startSorted hrs.startSorted hrd.valid hrs.valid

theorem removeRangeDelete_spec {rd rs out : List (ℤ × ℤ)} (hrd : Ordered rd) (hrs : Ordered rs)
    (h : removeRangeDelete rd rs = some out) :
    coverage out = coverage rd \ coverage rs ∧ Ordered out := by
  rw [removeRangeDelete, Option.ite_none_right_eq_some] at h
  rw [← Option.some.inj h.2]
  obtain ⟨hcov, hord, _⟩ := subtract_spec hrd hrs
  exact ⟨hcov, hord⟩

/-- The tree before and after a list has been written into one level. -/
structure Writes (level : ℕ) (l : EntryList) (x y : Tree) : Prop where
  level_ok : LevelOk (y.1.levelHead level)
  filter_ok : FilterOk (y.1.filter.getD level []) (y.1.filterSplit.getD level [])
    (levelEntries (y.1.levelHead level))
  occupied : y.1.levelHead level ≠ []
  level_lt : level < y.1.filter.length ∧ level < y.1.filterSplit.length
  length_le : x.1.filter.length ≤ y.1.filter.length ∧
    x.1.filterSplit.length ≤ y.1.filterSplit.length
  other : ∀ i, i ≠ level → y.1.levelHead i = x.1.levelHead i ∧
    y.1.filter.getD i [] = x.1.filter.getD i [] ∧
    y.1.filterSplit.getD i [] = x.1.filterSplit.getD i []
  verdict_eq : ∀ k, (levelEntries (y.1.levelHead level)).verdict k =
    (l.verdict k).or ((levelEntries (x.1.levelHead level)).verdict k)
  coverage_eq : coverage (levelEntries (y.1.levelHead level)).ranges =
    coverage l.ranges ∪ coverage (levelEntries (x.1.levelHead level)).ranges
  points_length : (levelEntries (y.1.levelHead level)).points.length + y.2.droppedPoints =
    l.points.length + (levelEntries (x.1.levelHead level)).points.length + x.2.droppedPoints
  ranges_length : (levelEntries (y.1.levelHead level)).ranges.length +
      y.2.totalMergeDeletedRangeEntryCount + x.2.totalFileBoundarySplitRangeEntryCount =
    l.ranges.length + (levelEntries (x.1.levelHead level)).ranges.length +
      x.2.totalMergeDeletedRangeEntryCount + y.2.totalFileBoundarySplitRangeEntryCount

section Install

variable {env : EmuEnv} {level rounds : ℕ} {d d' : DiskMetaFile}

theorem pointKeys_levelEntries_append (files gs : List SSTFile) :
    pointKeys (levelEntries (files ++ gs)).points =
      pointKeys (levelEntries files).points ∪ pointKeys (levelEntries gs).points := by
  rw [levelEntries_append, EntryList.append, EntryList.pointKeys_append]

theorem coverage_levelEntries_append (files gs : List SSTFile) :
    coverage (levelEntries (files ++ gs)).ranges =
      coverage (levelEntries files).ranges ∪ coverage (levelEntries gs).ranges := by
  rw [levelEntries_append, EntryList.append, coverage_append]

theorem EntryList.Before.disjoint {l m : EntryList} (h : l.Before m) :
    Disjoint l.support m.support :=
  Set.disjoint_left.mpr fun k hl hm => absurd (h k hl k hm) (lt_irrefl k)

/-- Splitting the united ranges at the points of `m` is enough when `m` replaces `x` between `p`
and `q`: the points of the others lie outside of it, and the old split ranges know them. -/
theorem splitCoverage_replace {p x q m : EntryList}
    (hxm : coverage x.ranges ⊆ coverage m.ranges) (hpm : Disjoint p.support m.support)
    (hqm : Disjoint q.support m.support) (hpx : Disjoint p.support x.support)
    (hqx : Disjoint q.support x.support) :
    ((coverage p.ranges ∪ coverage x.ranges ∪ coverage q.ranges) \
        (pointKeys p.points ∪ pointKeys x.points ∪ pointKeys q.points) ∪ coverage m.ranges) \
        pointKeys m.points =
      (coverage p.ranges ∪ coverage m.ranges ∪ coverage q.ranges) \
        (pointKeys p.points ∪ pointKeys m.points ∪ pointKeys q.points) := by
  ext k
  constructor
  · rintro ⟨(⟨hk, hn⟩ | hk), hnm⟩
    · refine ⟨?_, ?_⟩
      · rcases hk with (hk | hk) | hk
        · exact Or.inl (Or.inl hk)
        · exact Or.inl (Or.inr (hxm hk))
        · exact Or.inr hk
      · rintro ((h | h) | h)
        · exact hn (Or.inl (Or.inl h))
        · exact hnm h
        · exact hn (Or.inr h)
    · refine ⟨Or.inl (Or.inr hk), ?_⟩
      rintro ((h | h) | h)
      · exact Set.disjoint_left.mp hpm (Or.inl h) (Or.inr hk)
      · exact hnm h
      · exact Set.disjoint_left.mp hqm (Or.inl h) (Or.inr hk)
  · rintro ⟨hk, hn⟩
    refine ⟨?_, fun h => hn (Or.inl (Or.inr h))⟩
    rcases hk with (hk | hk) | hk
    · refine Or.inl ⟨Or.inl (Or.inl hk), ?_⟩
      rintro ((h | h) | h)
      · exact hn (Or.inl (Or.inl h))
      · exact Set.disjoint_left.mp hpx (Or.inr hk) (Or.inl h)
      · exact hn (Or.inr h)
    · exact Or.inr hk
    · refine Or.inl ⟨Or.inr hk, ?_⟩
      rintro ((h | h) | h)
      · exact hn (Or.inl (Or.inl h))
      · exact Set.disjoint_left.mp hqx (Or.inr hk) (Or.inl h)
      · exact hn (Or.inr h)

/-- A level before and after new files with the content of `m` have taken the place of its
middle part. -/
structure Installs (env : EmuEnv) (level : ℕ) (m : EntryList) (d d' : DiskMetaFile)
    (pre new post : List SSTFile) : Prop where
  files_eq : d'.levelHead level = pre ++ new ++ post
  written : writeFiles env level (m.points.length + m.ranges.length) m = some new
  same : EntryList.SameContent (levelEntries new) m
  level_ok : LevelOk (d'.levelHead level)
  occupied : d'.levelHead level ≠ []
  filter_ok : FilterOk (d'.filter.getD level []) (d'.filterSplit.getD level [])
    (levelEntries (d'.levelHead level))
  level_lt : level < d'.filter.length ∧ level < d'.filterSplit.length
  length_le : d.filter.length ≤ d'.filter.length ∧ d.filterSplit.length ≤ d'.filterSplit.length
  other : ∀ i, i ≠ level → d'.levelHead i = d.levelHead i ∧
    d'.filter.getD i [] = d.filter.getD i [] ∧ d'.filterSplit.getD i [] = d.filterSplit.getD i []

/-- A merged list that covers the ranges of the middle part of its level is installed in the
place of it. -/
theorem installEntries_spec {m : EntryList} {pre mid post : List SSTFile}
    (hstores : env.StoresAll) (hm : m.Sorted) (hr : m.InRange) (hne : m.support.Nonempty)
    (hok : LevelOk (d.levelHead level))
    (hfilter : FilterOk (d.filter.getD level []) (d.filterSplit.getD level [])
      (levelEntries (d.levelHead level)))
    (hfiles : d.levelHead level = pre ++ mid ++ post)
    (hparts : Parts m.getMinKey m.getMaxKey pre mid post)
    (hmid : coverage (levelEntries mid).ranges ⊆ coverage m.ranges) (hrounds : 0 < rounds)
    (h : installEntries env level rounds m d = some d') :
    ∃ new, Installs env level m d d' pre new post := by
  obtain ⟨filter, h₁, h⟩ := Option.bind_eq_some_iff.mp h
  obtain ⟨filterSplit, h₂, h⟩ := Option.bind_eq_some_iff.mp h
  obtain ⟨files, h₃, h⟩ := Option.bind_eq_some_iff.mp h
  obtain rfl := Option.some.inj h
  obtain ⟨out, hout, hup⟩ := updateFilterAtLevel_eq_some h₁
  obtain ⟨outSplit, houtSplit, hupSplit⟩ := updateFilterAtLevel_eq_some h₂
  obtain ⟨hcov, hord⟩ := addRangeDelete_spec hfilter.ordered hm.ranges hout
  obtain ⟨hcovSplit, hordSplit⟩ := addRangeDelete_spec hfilter.ordered_split hm.ranges houtSplit
  obtain ⟨last, huplast, hordlast, hcovlast⟩ := iterate_splitRangesAtLevel hm hupSplit.level_lt
    (hupSplit.getD_level ▸ hordSplit) hrounds
  rw [sortEnd_sorted hm] at h₃
  obtain ⟨new, rfl, hnewne, hwritten, hsame, hnewok⟩ :=
    compactAndFlush_spec hstores hm hr hne hok hfiles hparts h₃
  rw [hfiles] at hok
  obtain ⟨hpm, _, hpmpost⟩ := LevelOk.append_iff.mp hok
  obtain ⟨_, _, hpremid⟩ := LevelOk.append_iff.mp hpm
  obtain ⟨hpn, _, hpnpost⟩ := LevelOk.append_iff.mp hnewok
  obtain ⟨_, _, hprenew⟩ := LevelOk.append_iff.mp hpn
  have hmidpost : Disjoint (levelEntries post).support (levelEntries mid).support := by
    have := hpmpost.disjoint
    rw [levelEntries_append, EntryList.support_append] at this
    exact (this.mono_left Set.subset_union_right).symm
  have hnewpost : Disjoint (levelEntries post).support m.support := by
    have := hpnpost.disjoint
    rw [levelEntries_append, EntryList.support_append, hsame.support_eq] at this
    exact (this.mono_left Set.subset_union_right).symm
  have hcovnew := hsame.coverage_eq
  refine ⟨new, by simp, hwritten, hsame, by simpa using hnewok, by simp [hnewne], ?_, ?_, ?_, ?_⟩
  · simp only [Function.update_self]
    refine ⟨hup.getD_level ▸ hord, huplast.getD_level ▸ hordlast, ?_, ?_⟩
    · -- the ranges of the middle part are among the merged ones
      rw [hup.getD_level, hcov, hfilter.coverage_eq, hfiles, coverage_levelEntries_append,
        coverage_levelEntries_append, coverage_levelEntries_append, coverage_levelEntries_append,
        hcovnew]
      rw [Set.union_right_comm, Set.union_right_comm (coverage (levelEntries pre).ranges),
        Set.union_assoc _ (coverage m.ranges), Set.union_eq_self_of_subset_right hmid]
    · rw [huplast.getD_level, hcovlast, hupSplit.getD_level, hcovSplit, hfilter.coverage_split,
        hfiles]
      simp only [coverage_levelEntries_append, pointKeys_levelEntries_append, hcovnew]
      rw [hsame.points_eq]
      exact splitCoverage_replace hmid (hsame.support_eq ▸ hprenew.disjoint) hnewpost
        hpremid.disjoint hmidpost
  · exact ⟨hup.level_lt, huplast.level_lt⟩
  · exact ⟨hup.length_le, hupSplit.length_le.trans huplast.length_le⟩
  · intro i hi
    exact ⟨Function.update_of_ne hi _ _, hup.getD_other i hi,
      (huplast.getD_other i hi).trans (hupSplit.getD_other i hi)⟩

theorem length_levelEntries_append (files gs : List SSTFile) :
    (levelEntries (files ++ gs)).points.length =
        (levelEntries files).points.length + (levelEntries gs).points.length ∧
      (levelEntries (files ++ gs)).ranges.length =
        (levelEntries files).ranges.length + (levelEntries gs).ranges.length := by
  rw [levelEntries_append]
  exact ⟨List.length_append, List.length_append⟩

/-- Installing the merge of a list and the middle part writes the list into the level. The
counters are those after the merge. -/
theorem Installs.writes {m l : EntryList} {pre mid new post : List SSTFile} {c c' : TreeCounters}
    (h : Installs env level m d d' pre new post) (hstores : env.StoresAll) (hm : m.Sorted)
    (hok : LevelOk (d.levelHead level)) (hfiles : d.levelHead level = pre ++ mid ++ post)
    (hpre : ∀ k ∈ l.support, k ∉ (levelEntries pre).support)
    (hcoverage : coverage m.ranges = coverage l.ranges ∪ coverage (levelEntries mid).ranges)
    (hverdict : ∀ k, m.verdict k = (l.verdict k).or ((levelEntries mid).verdict k))
    (hpoints : m.points.length + c'.droppedPoints =
      l.points.length + (levelEntries mid).points.length + c.droppedPoints)
    (hranges : m.ranges.length + c'.totalMergeDeletedRangeEntryCount =
      l.ranges.length + (levelEntries mid).ranges.length + c.totalMergeDeletedRangeEntryCount)
    (hsplits : c'.totalFileBoundarySplitRangeEntryCount =
      c.totalFileBoundarySplitRangeEntryCount) :
    Writes level l (d, c) (d', c'.noteFiles env m) := by
  have hnewok := h.level_ok
  have hsplit := length_writeFiles hstores hm h.written
  have hnew := length_levelEntries_append (pre ++ new) post
  have hnew' := length_levelEntries_append pre new
  have hold := length_levelEntries_append (pre ++ mid) post
  have hold' := length_levelEntries_append pre mid
  have hsame := congrArg List.length h.same.points_eq
  rw [hfiles] at hok
  rw [h.files_eq] at hnewok
  refine ⟨h.level_ok, h.filter_ok, h.occupied, h.level_lt, h.length_le, h.other, fun k => ?_, ?_,
    ?_, ?_⟩
  · have hpm := (LevelOk.append_iff.mp hok).1
    have hpn := (LevelOk.append_iff.mp hnewok).1
    simp only [h.files_eq, hfiles]
    rw [hnewok.verdict_append, hpn.verdict_append, h.same.verdict_eq, hverdict,
      hok.verdict_append, hpm.verdict_append]
    -- a key the list speaks about is unknown to the files before it
    by_cases hk : k ∈ l.support
    · rw [EntryList.verdict_eq_none_iff.mpr (hpre k hk), Option.none_or, Option.none_or,
        Option.or_assoc]
    · rw [EntryList.verdict_eq_none_iff.mpr hk, Option.none_or, Option.none_or]
  · simp only [h.files_eq, hfiles, coverage_levelEntries_append, h.same.coverage_eq, hcoverage]
    rw [Set.union_left_comm, Set.union_assoc, Set.union_assoc]
  · simp only [h.files_eq, hfiles, TreeCounters.noteFiles, TreeCounters.droppedPoints]
      at hpoints ⊢
    omega
  · simp only [h.files_eq, hfiles, TreeCounters.noteFiles]
    omega

theorem noteMerge_length {l m x : EntryList} (c : TreeCounters)
    (hpoints : m.points = EntryList.mergePoints l.points
      (EntryList.applyRangeDelete l.ranges x.points))
    (hranges : m.ranges = uniteAll l.ranges x.ranges) :
    m.points.length + (c.noteMerge l x).droppedPoints =
        l.points.length + x.points.length + c.droppedPoints ∧
      m.ranges.length + (c.noteMerge l x).totalMergeDeletedRangeEntryCount =
        l.ranges.length + x.ranges.length + c.totalMergeDeletedRangeEntryCount := by
  have h₁ := length_applyRangeDelete l.ranges x.points
  have h₂ := length_mergePoints l.points (EntryList.applyRangeDelete l.ranges x.points)
  have h₃ := length_uniteAll l.ranges x.ranges
  rw [← hpoints] at h₂
  rw [← hranges] at h₃
  simp only [TreeCounters.noteMerge, TreeCounters.droppedPoints]
  omega

theorem Parts.merge {l m : EntryList} {pre mid post : List SSTFile}
    (hparts : Parts l.getMinKey l.getMaxKey pre mid post) (hok : LevelOk (pre ++ mid ++ post))
    (hl : l.Sorted) (hr : l.InRange) (hne : l.support.Nonempty) (hm : m.Sorted) (hmr : m.InRange)
    (hsupport : m.support = l.support ∪ (levelEntries mid).support) :
    Parts m.getMinKey m.getMaxKey pre mid post := by
  obtain ⟨hpm, hpost, hpmpost⟩ := LevelOk.append_iff.mp hok
  obtain ⟨hpre, _, hpremid⟩ := LevelOk.append_iff.mp hpm
  have hmne : m.support.Nonempty := hsupport ▸ hne.inl
  have hlo := EntryList.isLeast_getMinKey hl hr hne
  have hhi := EntryList.isGreatest_getMaxKey hl hr hne
  have hmlo := EntryList.isLeast_getMinKey hm hmr hmne
  have hmhi := EntryList.isGreatest_getMaxKey hm hmr hmne
  have hlo' : m.getMinKey ≤ l.getMinKey := hmlo.2 (hsupport ▸ Or.inl hlo.1)
  have hhi' : l.getMaxKey ≤ m.getMaxKey := hmhi.2 (hsupport ▸ Or.inl hhi.1)
  refine ⟨fun f hf => ?_, fun f hf => ?_, fun f hf => ?_⟩
  · rcases hsupport ▸ hmlo.1 with hk | hk
    · have := hlo.2 hk
      have := hparts.pre_lt f hf
      omega
    · have hfg := (levelEntries_before_iff.mp hpremid) f hf
      exact hfg _ (hpre.isGreatest_max hf).1 _ hk
  · have := hparts.mid_le f hf
    omega
  · rcases hsupport ▸ hmhi.1 with hk | hk
    · have := hhi.2 hk
      have := hparts.post_lt f hf
      omega
    · have hfg := (before_levelEntries_iff.mp hpmpost) f hf
      refine hfg _ ?_ _ (hpost.isLeast_min hf).1
      rw [levelEntries_append, EntryList.support_append]
      exact Or.inr hk

theorem countedWriteLevel_spec {l : EntryList} {x y : Tree} (hstores : env.StoresAll)
    (hl : l.Sorted) (hr : l.InRange) (hne : l.support.Nonempty)
    (hok : LevelOk (x.1.levelHead level))
    (hfilter : FilterOk (x.1.filter.getD level []) (x.1.filterSplit.getD level [])
      (levelEntries (x.1.levelHead level)))
    (h : countedWriteLevel env level l x = some y) : Writes level l x y := by
  obtain ⟨d', hwrite, rfl⟩ := Option.map_eq_some_iff.mp h
  unfold writeLevel at hwrite
  rw [TreeCounters.noteWrite]
  by_cases hnew : x.1.levelHead level = []
  · rw [if_pos hnew, Option.ite_none_left_eq_some] at hwrite
    rw [if_pos hnew, sortEnd_sorted hl]
    have hfiles : x.1.levelHead level = [] ++ [] ++ [] := hnew
    have hparts : Parts l.getMinKey l.getMaxKey [] [] [] := ⟨by simp, by simp, by simp⟩
    obtain ⟨new, hinstalls⟩ := installEntries_spec hstores hl hr hne hok hfilter hfiles hparts
      (by simp [levelEntries, EntryList.clear]) one_pos hwrite.2
    refine hinstalls.writes hstores hl hok hfiles ?_ ?_ ?_ rfl rfl rfl
    · simp [levelEntries, EntryList.support_clear]
    · simp [levelEntries, EntryList.clear]
    · simp [levelEntries, EntryList.verdict_clear]
  · rw [if_neg hnew] at hwrite
    obtain ⟨m, hmerge, hinstall⟩ := Option.bind_eq_some_iff.mp hwrite
    have hlo := EntryList.isLeast_getMinKey hl hr hne
    have hhi := EntryList.isGreatest_getMaxKey hl hr hne
    obtain ⟨pre, mid, post, hfiles, hparts⟩ := exists_parts hok.ascends l.getMinKey l.getMaxKey
    have hok' : LevelOk (pre ++ mid ++ post) := hfiles ▸ hok
    have hpre := (LevelOk.append_iff.mp (LevelOk.append_iff.mp hok').1).1
    have hmid := (LevelOk.append_iff.mp (LevelOk.append_iff.mp hok').1).2.1
    obtain ⟨e, hextract, he, hpoints, hranges⟩ :=
      EntryList.mergeOverlapped_eq_some hmerge (EntryList.not_empty_of_nonempty hne)
    rw [if_neg hnew, hextract, hmerge]
    rw [hfiles, overlappedEntries_eq hparts (hlo.2 hhi.1) fun f hf =>
      hok'.min_le_max (by simp [hf])] at he
    subst he
    obtain ⟨hm, hcoverage, hverdict⟩ :=
      EntryList.merge_spec hl hmid.sorted_levelEntries hpoints hranges
    have hsupport := EntryList.support_of_verdict hverdict
    have hmr : m.InRange := by
      rw [EntryList.InRange, hsupport]
      exact Set.union_subset hr hmid.inRange_levelEntries
    obtain ⟨new, hinstalls⟩ := installEntries_spec hstores hm hmr (hsupport ▸ hne.inl) hok hfilter
      hfiles (hparts.merge hok' hl hr hne hm hmr hsupport)
      (hcoverage ▸ Set.subset_union_right) Nat.two_pos hinstall
    obtain ⟨hlength, hlength'⟩ := noteMerge_length x.2 hpoints hranges
    simp only [sortEnd_sorted hm]
    refine hinstalls.writes hstores hm hok hfiles (fun k hk hkpre => ?_) hcoverage hverdict hlength
      hlength' rfl
    obtain ⟨f, hf, hkf⟩ := mem_support_levelEntries.mp hkpre
    have := (hpre.isGreatest_max hf).2 hkf
    have := hparts.pre_lt f hf
    have := hlo.2 hk
    omega

end Install

end Spry.Emulation
