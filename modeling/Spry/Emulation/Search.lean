import Spry.Emulation.Tree

/-!
# The answers of point queries

A search goes down the levels in use until one of them says something about the key. The filter
of a level is asked after its files, the split filter before them; with exact filters both
searches return what the levels say together.
-/

namespace Spry.Emulation

open ClosedRange PerlevelRangeDeleteFilter

def answer : Verdict → Bool × Bytes
  | some (some v) => (true, v)
  | some none => (false, [])
  | none => (false, [])

section Search

variable {d : DiskMetaFile} {k : ℤ}

theorem isEntryAlive_iff {rd : List (ℤ × ℤ)} (h : Ordered rd) :
    isEntryAlive rd k = true ↔ k ∉ coverage rd := by
  cases rd with
  | nil => simp [isEntryAlive, coverage]
  | cons r rs => rw [isEntryAlive, decide_eq_true_eq, mem_stepBack_iff h]

theorem isAliveAtLevel_eq {filters : List (List (ℤ × ℤ))} {level : ℕ} (hlevel : 1 ≤ level)
    (h : level < filters.length) :
    isAliveAtLevel filters level k = some (isEntryAlive (filters.getD level []) k) := by
  rw [isAliveAtLevel, if_neg (by omega)]

theorem DiskOk.empty_below (hd : DiskOk d) {level : ℕ} (hlevel : 1 ≤ level)
    (h : d.levelHead level = []) (n : ℕ) : d.levelHead (level + n) = [] := by
  induction n with
  | zero => exact h
  | succ n ih =>
    by_contra hne
    exact hd.occupied (level + n) (by omega) hne ih

theorem diskVerdict_eq_none (hd : DiskOk d) {level : ℕ} (hlevel : 1 ≤ level)
    (h : d.levelHead level = []) (below : ℕ) : diskVerdict d k below level = none := by
  induction below generalizing level with
  | zero => rfl
  | succ below ih =>
    rw [diskVerdict, ih (by omega) (hd.empty_below hlevel h 1), h, levelEntries,
      EntryList.verdict_clear, Option.or_none]

/-- One level of a search: what the level says about the key, and the levels below if it says
nothing. -/
def SearchStep (d : DiskMetaFile) (k : ℤ) (search : (count i : ℕ) → Option (Bool × Bytes)) :
    Prop :=
  ∀ n level, 1 ≤ level → d.levelHead level ≠ [] → search (n + 1) level =
    match (levelEntries (d.levelHead level)).verdict k with
    | some v => some (answer (some v))
    | none => search n (level + 1)

theorem searchDisk_step (hd : DiskOk d) : SearchStep d k (Query.searchDisk d k) := by
  intro n level hlevel hne
  have hfilter := hd.filter_ok level
  have halive := isEntryAlive_iff (k := k) hfilter.ordered
  rw [hfilter.coverage_eq] at halive
  rw [Query.searchDisk, searchFiles_eq (hd.level_ok level),
    isAliveAtLevel_eq hlevel (hd.filter_lt level hne).1, Option.bind_some]
  cases hlookup : lookup k (levelEntries (d.levelHead level)).points with
  | some v => rw [EntryList.verdict_of_mem_points hlookup]; rfl
  | none =>
    rw [EntryList.verdict_of_notMem_points hlookup]
    by_cases hcov : k ∈ coverage (levelEntries (d.levelHead level)).ranges
    · rw [if_pos hcov]
      exact if_neg fun h => halive.mp h hcov
    · rw [if_neg hcov]
      exact if_pos (halive.mpr hcov)

theorem searchDiskSplit_step (hd : DiskOk d) : SearchStep d k (Query.searchDiskSplit d k) := by
  intro n level hlevel hne
  have hfilter := hd.filter_ok level
  have halive := isEntryAlive_iff (k := k) hfilter.ordered_split
  rw [hfilter.coverage_split, Set.mem_sdiff, ← lookup_eq_none_iff] at halive
  rw [Query.searchDiskSplit, searchFiles_eq (hd.level_ok level),
    isAliveAtLevel_eq hlevel (hd.filter_lt level hne).2, Option.bind_some]
  cases hlookup : lookup k (levelEntries (d.levelHead level)).points with
  | some v =>
    rw [EntryList.verdict_of_mem_points hlookup]
    exact if_pos (halive.mpr (by simp [hlookup]))
  | none =>
    rw [EntryList.verdict_of_notMem_points hlookup]
    by_cases hcov : k ∈ coverage (levelEntries (d.levelHead level)).ranges
    · rw [if_pos hcov]
      exact if_neg fun h => halive.mp h ⟨hcov, hlookup⟩
    · rw [if_neg hcov]
      exact if_pos (halive.mpr fun h => hcov h.1)

theorem search_eq (hd : DiskOk d) {search : (count i : ℕ) → Option (Bool × Bytes)}
    (hzero : ∀ level, search 0 level = some (false, [])) (hstep : SearchStep d k search)
    {below level count : ℕ} (hlevel : 1 ≤ level)
    (hcount : d.countLevels below level = some count) :
    search count level = some (answer (diskVerdict d k below level)) := by
  induction below generalizing level count with
  | zero => cases hcount
  | succ below ih =>
    rw [DiskMetaFile.countLevels] at hcount
    split_ifs at hcount with hempty
    · obtain rfl := Option.some.inj hcount
      rw [diskVerdict_eq_none hd hlevel hempty, hzero]
      rfl
    · obtain ⟨n, hn, rfl⟩ := Option.map_eq_some_iff.mp hcount
      rw [hstep n level hlevel hempty, diskVerdict, ih (by omega) hn]
      cases (levelEntries (d.levelHead level)).verdict k with
      | some v => rfl
      | none => rfl

theorem pointQuery_eq {search : DiskMetaFile → ℤ → ℕ → ℕ → Option (Bool × Bytes)} {s : Emulator}
    (hsearch : ∀ count, s.disk.getTotalLevelCount = some count →
      search s.disk k count 1 = some (answer (diskVerdict s.disk k 31 1)))
    (hcount : s.disk.getTotalLevelCount ≠ none) :
    Query.pointQuery search s k =
      some (answer ((s.buffer.verdict k).or (diskVerdict s.disk k 31 1))) := by
  obtain ⟨count, hcount⟩ := Option.ne_none_iff_exists'.mp hcount
  rw [Query.pointQuery, hcount, Option.bind_some, hsearch count hcount]
  cases hlookup : lookup k s.buffer.points with
  | some v => rw [EntryList.verdict_of_mem_points hlookup]; rfl
  | none =>
    rw [EntryList.verdict_of_notMem_points hlookup]
    by_cases hcov : k ∈ coverage s.buffer.ranges
    · rw [if_pos hcov]
      exact if_pos hcov
    · rw [if_neg hcov, Option.none_or]
      exact if_neg hcov

theorem pointQueryRDF_eq {s : Emulator} (hd : DiskOk s.disk)
    (hcount : s.disk.getTotalLevelCount ≠ none) :
    Query.pointQueryRDF s k =
      some (answer ((s.buffer.verdict k).or (diskVerdict s.disk k 31 1))) :=
  pointQuery_eq (fun _ h => search_eq hd (fun _ => rfl) (searchDisk_step hd) le_rfl h) hcount

theorem pointQuerySplitRDF_eq {s : Emulator} (hd : DiskOk s.disk)
    (hcount : s.disk.getTotalLevelCount ≠ none) :
    Query.pointQuerySplitRDF s k =
      some (answer ((s.buffer.verdict k).or (diskVerdict s.disk k 31 1))) :=
  pointQuery_eq (fun _ h => search_eq hd (fun _ => rfl) (searchDiskSplit_step hd) le_rfl h) hcount

end Search

end Spry.Emulation
