import Spry.Emulation.History
import Spry.Emulation.LevelWrite

/-!
# The tree under flushes and compactions

Every level is sorted into separate files and has exact filters. Writing a list into a level and
taking a file out of one keep this. A file that is taken out has keys that no other file of its
level has.
-/

namespace Spry.Emulation

open ClosedRange PerlevelRangeDeleteFilter

structure TreeOk (d : DiskMetaFile) : Prop where
  level_ok : ∀ i, LevelOk (d.levelHead i)
  filter_ok : ∀ i, FilterOk (d.filter.getD i []) (d.filterSplit.getD i [])
    (levelEntries (d.levelHead i))
  filter_lt : ∀ i, d.levelHead i ≠ [] → i < d.filter.length ∧ i < d.filterSplit.length

structure DiskOk (d : DiskMetaFile) : Prop extends TreeOk d where
  occupied : ∀ i, 1 ≤ i → d.levelHead (i + 1) ≠ [] → d.levelHead i ≠ []

/-- What `below` levels from `level` on say about a key, the upper ones first. -/
def diskVerdict (d : DiskMetaFile) (k : ℤ) : (below level : ℕ) → Verdict
  | 0, _ => none
  | below + 1, level =>
    ((levelEntries (d.levelHead level)).verdict k).or (diskVerdict d k below (level + 1))

theorem diskVerdict_succ (d : DiskMetaFile) (k : ℤ) (below level : ℕ) :
    diskVerdict d k (below + 1) level = (diskVerdict d k below level).or
      ((levelEntries (d.levelHead (level + below))).verdict k) := by
  induction below generalizing level with
  | zero => exact Option.or_none
  | succ below ih =>
    rw [diskVerdict, ih, diskVerdict, Option.or_assoc, Nat.add_right_comm, Nat.add_assoc]

def stack (buffer : EntryList) (d : DiskMetaFile) : ℕ → EntryList
  | 0 => buffer
  | i + 1 => levelEntries (d.levelHead (i + 1))

/-- Segments for the buffer and the levels make up the workload, so the buffer over the tree says
what the workload says. -/
theorem Traced.verdict_eq {buffer : EntryList} {d : DiskMetaFile} {ops : List Op} {k : ℤ}
    (h : Traced (stack buffer d) ops k) :
    (buffer.verdict k).or (diskVerdict d k 31 1) = history ops k := by
  obtain ⟨seg, rfl, hrecords⟩ := h
  have hupTo : ∀ n, n < 32 →
      (buffer.verdict k).or (diskVerdict d k n 1) = history (replay seg (n + 1)) k := by
    intro n hn
    induction n with
    | zero =>
      rw [diskVerdict, Option.or_none, replay, replay, List.append_nil]
      exact (hrecords 0 hn).verdict_eq
    | succ n ih =>
      have hreplay : replay seg (n + 2) = seg (n + 1) ++ replay seg (n + 1) := rfl
      have hlevel := (hrecords (n + 1) hn).verdict_eq
      rw [stack] at hlevel
      rw [diskVerdict_succ, ← Option.or_assoc, ih (by omega), hreplay, history_append, ← hlevel,
        Nat.add_comm 1 n]
  exact hupTo 31 (by omega)

theorem diskOk_initial : DiskOk DiskMetaFile.initial := by
  refine ⟨⟨fun i => LevelOk.nil, fun i => ?_, fun i hi => absurd rfl hi⟩,
    fun i _ hi => absurd rfl hi⟩
  have hget : ([[]] : List (List (ℤ × ℤ))).getD i [] = [] := by
    cases i with
    | zero => rfl
    | succ i => simp [List.getD]
  simp only [DiskMetaFile.initial, hget]
  exact ⟨Ordered.nil, Ordered.nil, rfl, by simp [levelEntries, EntryList.clear]⟩

section Write

variable {level : ℕ} {l : EntryList} {x y : Tree}

theorem Writes.treeOk (h : Writes level l x y) (hx : TreeOk x.1) : TreeOk y.1 := by
  refine ⟨fun i => ?_, fun i => ?_, fun i hi => ?_⟩
  · by_cases hil : i = level
    · exact hil ▸ h.level_ok
    · rw [(h.other i hil).1]
      exact hx.level_ok i
  · by_cases hil : i = level
    · exact hil ▸ h.filter_ok
    · obtain ⟨h₁, h₂, h₃⟩ := h.other i hil
      rw [h₁, h₂, h₃]
      exact hx.filter_ok i
  · by_cases hil : i = level
    · exact hil ▸ h.level_lt
    · rw [(h.other i hil).1] at hi
      have := hx.filter_lt i hi
      have := h.length_le
      omega

theorem Writes.diskOk (h : Writes level l x y) (hx : DiskOk x.1)
    (hupper : 1 < level → x.1.levelHead (level - 1) ≠ []) : DiskOk y.1 := by
  refine ⟨h.treeOk hx.toTreeOk, fun i hi hnext => ?_⟩
  by_cases hil : i = level
  · exact hil ▸ h.occupied
  · rw [(h.other i hil).1]
    by_cases hnextl : i + 1 = level
    · have := hupper (by omega)
      rwa [← hnextl, Nat.add_sub_cancel] at this
    · rw [(h.other (i + 1) hnextl).1] at hnext
      exact hx.occupied i hi hnext

theorem Writes.overAt (h : Writes level l x y) (k : ℤ) :
    EntryList.OverAt k l (levelEntries (x.1.levelHead level))
      (levelEntries (y.1.levelHead level)) :=
  ⟨h.verdict_eq k, by rw [h.coverage_eq, Set.mem_union]⟩

end Write

section Unlink

variable {pre post : List SSTFile} {f : SSTFile}

theorem LevelOk.unlink (h : LevelOk (pre ++ f :: post)) :
    LevelOk (pre ++ post) ∧ Disjoint (levelEntries pre).support f.entries.support ∧
      Disjoint (levelEntries post).support f.entries.support := by
  obtain ⟨_, hfpost, hpre⟩ := LevelOk.append_iff.mp h
  obtain ⟨_, hf, _⟩ := LevelOk.cons_iff.mp hfpost
  refine ⟨h.sublist (List.Sublist.append_left (List.sublist_cons_self _ _) _), ?_,
    hf.disjoint.symm⟩
  have := hpre.disjoint
  rw [levelEntries, EntryList.support_append] at this
  exact this.mono_right Set.subset_union_left

/-- The filters that still know the ranges of an unlinked file are exact for the level without it
once these ranges are removed. -/
theorem FilterOk.remove {rd rdSplit out outSplit : List (ℤ × ℤ)}
    (h : FilterOk rd rdSplit (levelEntries (pre ++ f :: post))) (hok : LevelOk (pre ++ f :: post))
    (hout : removeRangeDelete rd f.entries.ranges = some out)
    (houtSplit : removeRangeDelete rdSplit f.entries.ranges = some outSplit) :
    FilterOk out outSplit (levelEntries (pre ++ post)) := by
  have hranges := (hok.sorted f (by simp)).ranges
  obtain ⟨hcov, hord⟩ := removeRangeDelete_spec h.ordered hranges hout
  obtain ⟨hcovSplit, hordSplit⟩ := removeRangeDelete_spec h.ordered_split hranges houtSplit
  obtain ⟨_, hpre, hpost⟩ := hok.unlink
  have hcover : ∀ files, Disjoint (levelEntries files).support f.entries.support →
      coverage (levelEntries files).ranges \ coverage f.entries.ranges =
        coverage (levelEntries files).ranges := fun files hdis =>
    sdiff_eq_left.mpr (hdis.mono Set.subset_union_right Set.subset_union_right)
  have hwhole : coverage (levelEntries (pre ++ f :: post)).ranges =
      coverage (levelEntries pre).ranges ∪
        (coverage f.entries.ranges ∪ coverage (levelEntries post).ranges) := by
    rw [coverage_levelEntries_append, levelEntries, EntryList.append, coverage_append]
  have hkeys : pointKeys (levelEntries (pre ++ f :: post)).points =
      pointKeys (levelEntries pre).points ∪
        (pointKeys f.entries.points ∪ pointKeys (levelEntries post).points) := by
    rw [pointKeys_levelEntries_append, levelEntries, EntryList.append, EntryList.pointKeys_append]
  have hrest : coverage (levelEntries (pre ++ f :: post)).ranges \ coverage f.entries.ranges =
      coverage (levelEntries (pre ++ post)).ranges := by
    rw [hwhole, Set.union_sdiff_distrib, Set.union_sdiff_distrib, sdiff_self, hcover pre hpre,
      hcover post hpost, coverage_levelEntries_append]
    simp
  refine ⟨hord, hordSplit, by rw [hcov, h.coverage_eq, hrest], ?_⟩
  rw [hcovSplit, h.coverage_split, sdiff_right_comm, hrest, hkeys, pointKeys_levelEntries_append]
  -- the points of the file lie outside of what the others cover
  ext k
  simp only [Set.mem_sdiff, Set.mem_union, not_or]
  refine and_congr_right fun hk => ⟨fun h => ⟨h.1, h.2.2⟩, fun h => ⟨h.1, fun hkf => ?_, h.2⟩⟩
  rw [coverage_levelEntries_append] at hk
  rcases hk with hk | hk
  · exact Set.disjoint_left.mp hpre (Or.inr hk) (Or.inl hkf)
  · exact Set.disjoint_left.mp hpost (Or.inr hk) (Or.inl hkf)

theorem overAt_unlink (h : LevelOk (pre ++ f :: post)) (k : ℤ) :
    EntryList.OverAt k f.entries (levelEntries (pre ++ post))
      (levelEntries (pre ++ f :: post)) := by
  obtain ⟨hok, hpre, _⟩ := h.unlink
  have htail := (LevelOk.append_iff.mp h).2.1
  have hsingle : levelEntries (f :: post) = f.entries.append (levelEntries post) := rfl
  refine ⟨?_, ?_⟩
  · rw [hok.verdict_append, h.verdict_append, hsingle,
      EntryList.verdict_append (LevelOk.cons_iff.mp htail).2.1]
    -- the keys of the file are unknown to the files before it
    by_cases hk : k ∈ f.entries.support
    · have hnone : (levelEntries pre).verdict k = none := EntryList.verdict_eq_none_iff.mpr
        fun hp => Set.disjoint_left.mp hpre hp hk
      rw [hnone, Option.none_or, Option.none_or]
    · rw [EntryList.verdict_eq_none_iff.mpr hk, Option.none_or, Option.none_or]
  · rw [coverage_levelEntries_append, coverage_levelEntries_append, hsingle, EntryList.append,
      coverage_append]
    exact or_left_comm

theorem notMem_support_unlink (h : LevelOk (pre ++ f :: post)) {k : ℤ}
    (hk : k ∈ f.entries.support) : k ∉ (levelEntries (pre ++ post)).support := by
  obtain ⟨_, hpre, hpost⟩ := h.unlink
  rw [levelEntries_append, EntryList.support_append]
  rintro (hp | hp)
  · exact Set.disjoint_left.mp hpre hp hk
  · exact Set.disjoint_left.mp hpost hp hk

/-- The tree after a file has been unlinked and its ranges have left the filters of its level. -/
theorem removeFromUpperLevel_spec {level : ℕ} {d d' : DiskMetaFile} (hd : TreeOk d)
    (hlevel : 1 ≤ level) (hfiles : d.levelHead level = pre ++ f :: post)
    (h : removeFromUpperLevel (level + 1) f.entries (d.setSSTFileHead level (pre ++ post)) =
      some d') :
    TreeOk d' ∧ d'.levelHead = Function.update d.levelHead level (pre ++ post) := by
  rw [removeFromUpperLevel, if_pos (by omega), Nat.add_sub_cancel] at h
  obtain ⟨filter, h₁, h⟩ := Option.bind_eq_some_iff.mp h
  obtain ⟨filterSplit, h₂, h⟩ := Option.bind_eq_some_iff.mp h
  obtain rfl := Option.some.inj h
  obtain ⟨out, hout, hup⟩ := updateFilterAtLevel_eq_some h₁
  obtain ⟨outSplit, houtSplit, hupSplit⟩ := updateFilterAtLevel_eq_some h₂
  have hok := hd.level_ok level
  have hfilter := hd.filter_ok level
  rw [hfiles] at hok hfilter
  refine ⟨⟨fun i => ?_, fun i => ?_, fun i hi => ?_⟩, rfl⟩
  · by_cases hil : i = level
    · subst hil
      simpa [DiskMetaFile.setSSTFileHead] using hok.unlink.1
    · simpa [DiskMetaFile.setSSTFileHead, hil] using hd.level_ok i
  · by_cases hil : i = level
    · subst hil
      simp only [DiskMetaFile.setSSTFileHead, Function.update_self]
      rw [hup.getD_level, hupSplit.getD_level]
      exact hfilter.remove hok hout houtSplit
    · simp only [DiskMetaFile.setSSTFileHead, Function.update_of_ne hil]
      rw [hup.getD_other i hil, hupSplit.getD_other i hil]
      exact hd.filter_ok i
  · by_cases hil : i = level
    · subst hil
      exact ⟨hup.level_lt, hupSplit.level_lt⟩
    · simp only [DiskMetaFile.setSSTFileHead, Function.update_of_ne hil] at hi
      have h₃ := hd.filter_lt i hi
      exact ⟨h₃.1.trans_le hup.length_le, h₃.2.trans_le hupSplit.length_le⟩

end Unlink

end Spry.Emulation
