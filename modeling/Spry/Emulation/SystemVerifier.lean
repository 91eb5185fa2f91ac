import Spry.Emulation.InstructionDecoder

/-!
# The checks after a workload

The verifier puts the keys of the recorder to the three kinds of point queries, ends the process
when an answer differs from the ground truth, and reports how many files each kind has read. After
every workload all answers agree; the query with the split filter reads no more files than the one
with the per-level filter, which reads no more than the one with the skyline filter.
-/

namespace Spry.Emulation

open ClosedRange PerlevelRangeDeleteFilter SkylineRangeDeleteFilter

/-- The number of files that a search of a level opens. -/
def probes (key : ℤ) : List SSTFile → ℕ
  | [] => 0
  | f :: fs =>
    if key < f.getMinSortKey then 0
    else if f.getMaxSortKey < key then probes key fs
    else if (searchTiles key f.pointDeleteTiles).isSome then 1
    else probes key fs + 1

namespace Query

/-- The levels from `i` on, with the number of files opened. A filter may be asked `before` and
`after` the files of a level, and a point that is found may turn out not to be alive. -/
def countedSearch (d : DiskMetaFile) (key : ℤ) (before after : ℕ → Option Bool) (isAlive : Bool) :
    (count i : ℕ) → Option ((Bool × Bytes) × ℕ)
  | 0, _ => some ((false, []), 0)
  | n + 1, i => (before i).bind fun enter =>
    if enter then
      match searchFiles key (d.levelHead i) with
      | some v => some (if isAlive then (true, v) else (false, []), probes key (d.levelHead i))
      | none => (after i).bind fun descend =>
        if descend then
          (countedSearch d key before after isAlive n (i + 1)).map fun (result, count) =>
            (result, probes key (d.levelHead i) + count)
        else some ((false, []), probes key (d.levelHead i))
    else some ((false, []), 0)

def countedQuery (search : ℕ → ℕ → Option ((Bool × Bytes) × ℕ)) (s : Emulator) (key : ℤ) :
    Option ((Bool × Bytes) × ℕ) :=
  match lookup key s.buffer.points with
  | some v => some ((true, v), 0)
  | none =>
    if ∃ r ∈ s.buffer.ranges, r.1 ≤ key ∧ key ≤ r.2 then some ((false, []), 0)
    else s.disk.getTotalLevelCount.bind fun count => search count 1

def noFilter (_ : ℕ) : Option Bool := some true

def countedRDF (s : Emulator) (key : ℤ) : Option ((Bool × Bytes) × ℕ) :=
  countedQuery (countedSearch s.disk key noFilter (isAliveAtLevel s.disk.filter · key) true) s key

def countedSplitRDF (s : Emulator) (key : ℤ) : Option ((Bool × Bytes) × ℕ) :=
  countedQuery (countedSearch s.disk key (isAliveAtLevel s.disk.filterSplit · key) noFilter true)
    s key

/-- Nothing ends the search at a level; a point that is found must be newer than the tombstones. -/
def pointQueryRDFSkyLine (skyline : SkylineRangeDeleteFilter) (s : Emulator) (key timetag : ℤ) :
    Option ((Bool × Bytes) × ℕ) :=
  countedQuery (countedSearch s.disk key noFilter noFilter
    (skyline.isEntryAliveWithTimetag key timetag)) s key

end Query

inductive FilterKind where
  | perlevel
  | skyline
  | splitPerlevel
  deriving DecidableEq, Repr

/-- A query of a check, with the value it should find. -/
structure KeyCheck where
  key : ℤ
  timestamp : ℤ
  expected : Option Bytes

structure RandomKeysTestingResult where
  diskAccessCountList : List ℕ
  countExistKey : ℕ
  countNonExistKey : ℕ

namespace Session

variable (s : Session)

def query (key timestamp : ℤ) : FilterKind → Option ((Bool × Bytes) × ℕ)
  | .perlevel => Query.countedRDF s.emulator key
  | .skyline => Query.pointQueryRDFSkyLine s.skyline s.emulator key timestamp
  | .splitPerlevel => Query.countedSplitRDF s.emulator key

/-- The files opened by a query. A wrong answer ends the process. -/
def checkKey (kind : FilterKind) (c : KeyCheck) : Option ℕ :=
  (s.query c.key c.timestamp kind).bind fun (result, count) =>
    if result.1 ≠ c.expected.isSome ∨ ∃ v ∈ c.expected, result.2 ≠ v then none else some count

def experimentRepetitionTimes : ℕ := 3

def checkKind (checks : List KeyCheck) (kind : FilterKind) : Option ℕ :=
  ((List.replicate experimentRepetitionTimes checks).flatten.mapM (s.checkKey kind)).map
    fun counts => counts.sum / experimentRepetitionTimes

def checkKeys (checks : List KeyCheck) : Option (List ℕ) :=
  [FilterKind.perlevel, .skyline, .splitPerlevel].mapM (s.checkKind checks)

def checkOf (key : ℤ) : KeyCheck :=
  ⟨key, s.recorder.insertTimestamp key, lookup key s.recorder.groundTruth⟩

def checkOnExistingKeys : Option (List ℕ) :=
  s.checkKeys (s.recorder.groundTruth.map fun p =>
    ⟨p.sortKey, s.recorder.insertTimestamp p.sortKey, some p.value⟩)

def checkOnAllInsertedKeys : Option (List ℕ) :=
  s.checkKeys (s.recorder.historyKeySet.map s.checkOf)

def checkOnAllCurrentlyDeletedKeys : Option (List ℕ) :=
  s.checkKeys ((s.recorder.historyKeySet.filter fun key =>
    ¬ (lookup key s.recorder.groundTruth).isSome).map s.checkOf)

/-- The keys come with random times, which stand for a key that was never inserted. -/
def checkOnRandomKeys (randomKeys : List (ℤ × ℤ)) : Option RandomKeysTestingResult :=
  let isExist := fun r : ℤ × ℤ => (lookup r.1 s.recorder.groundTruth).isSome
  (s.checkKeys (randomKeys.map fun (key, random) =>
    if key ∈ s.recorder.historyKeySet then s.checkOf key
    else { s.checkOf key with timestamp := random })).map fun counts =>
      ⟨counts, randomKeys.countP isExist, randomKeys.countP (¬ isExist ·)⟩

end Session

section Searches

variable {d : DiskMetaFile} {s : Emulator} {k : ℤ}

theorem fst_countedQuery {search : DiskMetaFile → ℤ → ℕ → ℕ → Option (Bool × Bytes)}
    {counted : ℕ → ℕ → Option ((Bool × Bytes) × ℕ)}
    (h : ∀ count i, (counted count i).map Prod.fst = search s.disk k count i) :
    (Query.countedQuery counted s k).map Prod.fst = Query.pointQuery search s k := by
  rw [Query.countedQuery, Query.pointQuery]
  cases lookup k s.buffer.points with
  | some v => rfl
  | none =>
    split_ifs
    · rfl
    · cases s.disk.getTotalLevelCount with
      | none => rfl
      | some count => exact h count 1

theorem fst_countedRDF : (Query.countedRDF s k).map Prod.fst = Query.pointQueryRDF s k := by
  refine fst_countedQuery fun count i => ?_
  induction count generalizing i with
  | zero => rfl
  | succ n ih =>
    simp only [Query.countedSearch, Query.searchDisk, Query.noFilter, Option.bind_some, if_true]
    cases searchFiles k (s.disk.levelHead i) with
    | some v => rfl
    | none =>
      cases isAliveAtLevel s.disk.filter i k with
      | none => rfl
      | some alive =>
        cases alive with
        | false => rfl
        | true => simpa [Function.comp_def] using ih (i + 1)

theorem fst_countedSplitRDF :
    (Query.countedSplitRDF s k).map Prod.fst = Query.pointQuerySplitRDF s k := by
  refine fst_countedQuery fun count i => ?_
  induction count generalizing i with
  | zero => rfl
  | succ n ih =>
    simp only [Query.countedSearch, Query.searchDiskSplit]
    cases isAliveAtLevel s.disk.filterSplit i k with
    | none => rfl
    | some alive =>
      cases alive with
      | false => rfl
      | true =>
        cases searchFiles k (s.disk.levelHead i) with
        | some v => rfl
        | none => simpa [Query.noFilter, Function.comp_def] using ih (i + 1)

theorem DiskOk.exists_alive (hd : DiskOk d) {level : ℕ} (hlevel : 1 ≤ level)
    (hne : d.levelHead level ≠ []) :
    ∃ alive aliveSplit, isAliveAtLevel d.filter level k = some alive ∧
      isAliveAtLevel d.filterSplit level k = some aliveSplit ∧
      (alive = true → aliveSplit = true) ∧
      (aliveSplit = true → alive = false → searchFiles k (d.levelHead level) ≠ none) := by
  have hfilter := hd.filter_ok level
  have halive := isEntryAlive_iff (k := k) hfilter.ordered
  have hsplit := isEntryAlive_iff (k := k) hfilter.ordered_split
  rw [hfilter.coverage_eq] at halive
  rw [hfilter.coverage_split, Set.mem_sdiff, ← lookup_eq_none_iff] at hsplit
  refine ⟨_, _, isAliveAtLevel_eq hlevel (hd.filter_lt level hne).1,
    isAliveAtLevel_eq hlevel (hd.filter_lt level hne).2, fun h => ?_, fun h hdead => ?_⟩
  · exact hsplit.mpr fun hk => halive.mp h hk.1
  · rw [searchFiles_eq (hd.level_ok level)]
    intro hnone
    refine hsplit.mp h ⟨?_, hnone⟩
    by_contra hcov
    exact absurd (hdead.symm.trans (halive.mpr hcov)) Bool.false_ne_true

theorem countedSearch_le (hd : DiskOk d) (isAlive : Bool) {below level count : ℕ}
    (hlevel : 1 ≤ level) (hcount : d.countLevels below level = some count) :
    ∃ rdf split sky,
      Query.countedSearch d k Query.noFilter (isAliveAtLevel d.filter · k) true count level =
        some rdf ∧
      Query.countedSearch d k (isAliveAtLevel d.filterSplit · k) Query.noFilter true count level =
        some split ∧
      Query.countedSearch d k Query.noFilter Query.noFilter isAlive count level = some sky ∧
      split.2 ≤ rdf.2 ∧ rdf.2 ≤ sky.2 := by
  induction below generalizing level count with
  | zero => cases hcount
  | succ below ih =>
    rw [DiskMetaFile.countLevels] at hcount
    split_ifs at hcount with hempty
    · obtain rfl := Option.some.inj hcount
      exact ⟨_, _, _, rfl, rfl, rfl, le_rfl, le_rfl⟩
    · obtain ⟨n, hn, rfl⟩ := Option.map_eq_some_iff.mp hcount
      obtain ⟨rdf, split, sky, hrdf, hsplit, hsky, hle, hle'⟩ := ih (by omega) hn
      obtain ⟨alive, aliveSplit, halive, haliveSplit, himp, hfound⟩ :=
        hd.exists_alive (k := k) hlevel hempty
      have hbefore : Query.noFilter level = some true := rfl
      simp only [Query.countedSearch, hbefore, halive, haliveSplit, Option.bind_some, if_true]
      cases hsearch : searchFiles k (d.levelHead level) with
      | some v =>
        cases aliveSplit with
        | false => exact ⟨_, _, _, rfl, rfl, rfl, Nat.zero_le _, le_rfl⟩
        | true => exact ⟨_, _, _, rfl, rfl, rfl, le_rfl, le_rfl⟩
      | none =>
        rw [hsky]
        cases alive with
        | true =>
          rw [himp rfl, hrdf, hsplit]
          exact ⟨_, _, _, rfl, rfl, rfl, Nat.add_le_add_left hle _, Nat.add_le_add_left hle' _⟩
        | false =>
          cases aliveSplit with
          | false => exact ⟨_, _, _, rfl, rfl, rfl, Nat.zero_le _, Nat.le_add_right _ _⟩
          | true => exact absurd hsearch (hfound rfl rfl)

/-- The first point of the key in `count` levels from `level` on. -/
def firstPoint (d : DiskMetaFile) (k : ℤ) : (count level : ℕ) → Option Bytes
  | 0, _ => none
  | n + 1, level => (searchFiles k (d.levelHead level)).or (firstPoint d k n (level + 1))

/-- The answer of a query that has found a point or none. -/
def pointAnswer (isAlive : Bool) : Option Bytes → Bool × Bytes
  | some v => if isAlive then (true, v) else (false, [])
  | none => (false, [])

theorem fst_countedSearch (isAlive : Bool) (count level : ℕ) :
    (Query.countedSearch d k Query.noFilter Query.noFilter isAlive count level).map Prod.fst =
      some (pointAnswer isAlive (firstPoint d k count level)) := by
  induction count generalizing level with
  | zero => rfl
  | succ n ih =>
    simp only [Query.countedSearch, Query.noFilter, Option.bind_some, if_true, firstPoint]
    cases searchFiles k (d.levelHead level) with
    | some v => rfl
    | none => simpa [Query.noFilter, Function.comp_def] using ih (level + 1)

theorem firstPoint_of_diskVerdict (hd : DiskOk d) {v : Bytes} {below level count : ℕ}
    (hlevel : 1 ≤ level) (hcount : d.countLevels below level = some count)
    (hv : diskVerdict d k below level = some (some v)) : firstPoint d k count level = some v := by
  induction below generalizing level count with
  | zero => cases hcount
  | succ below ih =>
    rw [DiskMetaFile.countLevels] at hcount
    split_ifs at hcount with hempty
    · rw [diskVerdict_eq_none hd hlevel hempty] at hv
      cases hv
    · obtain ⟨n, hn, rfl⟩ := Option.map_eq_some_iff.mp hcount
      rw [firstPoint, searchFiles_eq (hd.level_ok level)]
      rw [diskVerdict] at hv
      cases hlookup : lookup k (levelEntries (d.levelHead level)).points with
      | some w =>
        rw [EntryList.verdict_of_mem_points hlookup] at hv
        exact Option.some.inj hv
      | none =>
        rw [EntryList.verdict_of_notMem_points hlookup] at hv
        split_ifs at hv
        · cases hv
        · exact ih (by omega) hn hv

theorem firstPoint_eq_none {count level : ℕ}
    (h : ∀ i, level ≤ i → i < level + count → searchFiles k (d.levelHead i) = none) :
    firstPoint d k count level = none := by
  induction count generalizing level with
  | zero => rfl
  | succ n ih =>
    rw [firstPoint, h level le_rfl (by omega), Option.none_or]
    exact ih fun i hlo hhi => h i (by omega) (by omega)

end Searches

section MapM

variable {α : Type} {l : List α}

theorem isSome_mapM {f : α → Option ℕ} (h : ∀ x ∈ l, (f x).isSome) : (l.mapM f).isSome := by
  induction l with
  | nil => rfl
  | cons x xs ih =>
    obtain ⟨hx, hxs⟩ := List.forall_mem_cons.mp h
    obtain ⟨n, hn⟩ := Option.isSome_iff_exists.mp hx
    obtain ⟨ns, hns⟩ := Option.isSome_iff_exists.mp (ih hxs)
    simp [hn, hns]

theorem sum_mapM_le {f g : α → Option ℕ} {ms ns : List ℕ}
    (h : ∀ x m n, f x = some m → g x = some n → m ≤ n) (hf : l.mapM f = some ms)
    (hg : l.mapM g = some ns) : ms.sum ≤ ns.sum := by
  induction l generalizing ms ns with
  | nil =>
    rw [← Option.some.inj hf]
    exact Nat.zero_le _
  | cons x xs ih =>
    rw [List.mapM_cons] at hf hg
    obtain ⟨m, hm, hf⟩ := Option.bind_eq_some_iff.mp hf
    obtain ⟨n, hn, hg⟩ := Option.bind_eq_some_iff.mp hg
    obtain ⟨ms', hms, hf⟩ := Option.bind_eq_some_iff.mp hf
    obtain ⟨ns', hns, hg⟩ := Option.bind_eq_some_iff.mp hg
    rw [← Option.some.inj hf, ← Option.some.inj hg]
    rw [List.sum_cons, List.sum_cons]
    exact Nat.add_le_add (h x m n hm hn) (ih hms hns)

end MapM

section Checks

variable {env : EmuEnv} {ops : List Op} {s : Session} {k : ℤ}

theorem history_ne_none {v : Bytes} (h : .insert k v ∈ ops) : history ops k ≠ none := by
  induction ops using List.reverseRecOn with
  | nil => cases h
  | append_singleton ops op ih =>
    rw [history_snoc, Ne, Option.or_eq_none_iff, not_and_or]
    rcases List.mem_append.mp h with h | h
    · exact Or.inr (ih h)
    · rw [← List.mem_singleton.mp h]
      simp [Op.verdict]

theorem mem_replay {op : Op} {seg : ℕ → List Op} {n : ℕ} :
    op ∈ replay seg n ↔ ∃ i < n, op ∈ seg i := by
  induction n with
  | zero => simp [replay]
  | succ n ih =>
    rw [replay, List.mem_append, ih, Nat.exists_lt_succ_right, or_comm]

theorem Traced.searchFiles_eq_none {buffer : EntryList} {d : DiskMetaFile} (hd : TreeOk d)
    (h : Traced (stack buffer d) ops k) (hk : ∀ v, .insert k v ∉ ops) {level : ℕ}
    (hlevel : 1 ≤ level) (hle : level < 32) : searchFiles k (d.levelHead level) = none := by
  obtain ⟨seg, rfl, hrecords⟩ := h
  obtain ⟨i, rfl⟩ := Nat.exists_eq_add_of_le' hlevel
  have hlist : (stack buffer d (i + 1)).Records (seg (i + 1)) k := hrecords (i + 1) hle
  rw [searchFiles_eq (hd.level_ok _), Option.eq_none_iff_forall_not_mem]
  intro v hv
  have hsorted := (hd.level_ok (i + 1)).sorted_levelEntries.points.distinct
  obtain ⟨earlier, later, hseg, _⟩ :=
    (hlist.mem_points_iff hsorted).mp ((lookup_eq_some_iff hsorted).mp hv)
  exact hk v (mem_replay.mpr ⟨i + 1, hle, by rw [hseg]; simp⟩)

theorem Recorded.isEntryAlive_eq (hs : Recorded ops s) (hk : k ∈ s.recorder.historyKeySet) :
    s.skyline.isEntryAliveWithTimetag k (s.recorder.insertTimestamp k) =
      decide (history ops k ≠ some none) := by
  obtain ⟨added, hrep, _, hdeleted⟩ := hs.skyline
  have hiff := isEntryAliveWithTimetag_eq_false_iff (k := k) (t := s.recorder.insertTimestamp k)
    hrep.linked
  rw [hrep.deleted_iff, hdeleted k hk] at hiff
  rw [Bool.eq_iff_iff, decide_eq_true_iff, ← not_iff_not, Bool.not_eq_true, hiff, not_not]

theorem exists_query_of_checkKey {kind : FilterKind} {check : KeyCheck} {n : ℕ}
    (h : s.checkKey kind check = some n) :
    ∃ result, s.query check.key check.timestamp kind = some (result, n) := by
  obtain ⟨⟨result, count⟩, hquery, h⟩ := Option.bind_eq_some_iff.mp h
  dsimp only at h
  split_ifs at h
  exact ⟨result, by rw [hquery, Option.some.inj h]⟩

section Answers

variable {c : Counters} (hs : Recorded ops s) (hemulator : Replays env ops s.emulator c)
  (hdisk : DiskOk s.emulator.disk) (hcount : s.emulator.disk.getTotalLevelCount ≠ none)
include hdisk hcount

theorem query_le (timestamp : ℤ) : ∃ rdf sky split,
    s.query k timestamp .perlevel = some rdf ∧ s.query k timestamp .skyline = some sky ∧
      s.query k timestamp .splitPerlevel = some split ∧ split.2 ≤ rdf.2 ∧ rdf.2 ≤ sky.2 := by
  obtain ⟨count, hcount⟩ := Option.ne_none_iff_exists'.mp hcount
  obtain ⟨rdf, split, sky, hrdf, hsplit, hsky, hle, hle'⟩ := countedSearch_le (k := k) hdisk
    (s.skyline.isEntryAliveWithTimetag k timestamp) le_rfl hcount
  simp only [Session.query, Query.countedRDF, Query.countedSplitRDF, Query.pointQueryRDFSkyLine,
    Query.countedQuery, hcount, Option.bind_some]
  cases lookup k s.emulator.buffer.points with
  | some v => exact ⟨_, _, _, rfl, rfl, rfl, le_rfl, le_rfl⟩
  | none =>
    split_ifs
    · exact ⟨_, _, _, rfl, rfl, rfl, le_rfl, le_rfl⟩
    · exact ⟨rdf, sky, split, hrdf, hsky, hsplit, hle, hle'⟩

theorem checkKey_le (check : KeyCheck) :
    (∀ l m, s.checkKey .splitPerlevel check = some l → s.checkKey .perlevel check = some m →
      l ≤ m) ∧
    ∀ m n, s.checkKey .perlevel check = some m → s.checkKey .skyline check = some n → m ≤ n := by
  obtain ⟨rdf, sky, split, hrdf, hsky, hsplit, hle, hle'⟩ :=
    query_le (k := check.key) hdisk hcount check.timestamp
  have hcounts : ∀ {kind r n}, s.query check.key check.timestamp kind = some r →
      s.checkKey kind check = some n → r.2 = n := by
    intro kind r n hr hn
    obtain ⟨result, hresult⟩ := exists_query_of_checkKey hn
    rw [Option.some.inj (hr.symm.trans hresult)]
  constructor
  · intro l m hl hm
    rwa [← hcounts hsplit hl, ← hcounts hrdf hm]
  · intro m n hm hn
    rwa [← hcounts hrdf hm, ← hcounts hsky hn]

include hs hemulator

omit hcount in
/-- The skyline filter tells old points from new ones for the keys whose time was recorded; of the
others the tree has no points. -/
theorem pointAnswer_firstPoint {timestamp : ℤ}
    (htime : k ∈ s.recorder.historyKeySet → timestamp = s.recorder.insertTimestamp k)
    {count : ℕ} (hlevels : s.emulator.disk.getTotalLevelCount = some count)
    (hbuffer : s.emulator.buffer.verdict k = none) :
    pointAnswer (s.skyline.isEntryAliveWithTimetag k timestamp)
      (firstPoint s.emulator.disk k count 1) = answer (history ops k) := by
  have htraced := hemulator.traced k
  have hverdict := htraced.verdict_eq
  rw [hbuffer, Option.none_or] at hverdict
  by_cases hk : k ∈ s.recorder.historyKeySet
  · obtain ⟨v, hv⟩ := (hs.mem_keys k).mp hk
    rw [htime hk, hs.isEntryAlive_eq hk]
    rcases hhistory : history ops k with _ | _ | w
    · exact absurd hhistory (history_ne_none hv)
    · cases firstPoint s.emulator.disk k count 1 with
      | none => rfl
      | some w => rfl
    · rw [firstPoint_of_diskVerdict hdisk le_rfl hlevels (hverdict.trans hhistory)]
      rfl
  · have hinserts : ∀ v, .insert k v ∉ ops := fun v hv => hk ((hs.mem_keys k).mpr ⟨v, hv⟩)
    have hlt := (countLevels_eq_some hlevels).1
    rw [firstPoint_eq_none fun i hlo hhi =>
      htraced.searchFiles_eq_none hdisk.toTreeOk hinserts hlo (by omega)]
    rcases hhistory : history ops k with _ | _ | w
    · rfl
    · rfl
    · obtain ⟨earlier, later, heq, _⟩ := history_eq_some_iff.mp hhistory
      exact absurd (by rw [heq]; simp) (hinserts w)

theorem fst_pointQueryRDFSkyLine {timestamp : ℤ}
    (htime : k ∈ s.recorder.historyKeySet → timestamp = s.recorder.insertTimestamp k) :
    (Query.pointQueryRDFSkyLine s.skyline s.emulator k timestamp).map Prod.fst =
      some (answer (history ops k)) := by
  obtain ⟨count, hlevels⟩ := Option.ne_none_iff_exists'.mp hcount
  have hverdict := (hemulator.traced k).verdict_eq
  rw [Query.pointQueryRDFSkyLine, Query.countedQuery]
  cases hlookup : lookup k s.emulator.buffer.points with
  | some v =>
    rw [← hverdict, EntryList.verdict_of_mem_points hlookup]
    rfl
  | none =>
    have hbuffer := EntryList.verdict_of_notMem_points hlookup
    split_ifs with hcov
    · rw [if_pos (mem_coverage.mpr hcov)] at hbuffer
      rw [← hverdict, hbuffer]
      rfl
    · rw [if_neg (fun h => hcov (mem_coverage.mp h))] at hbuffer
      rw [hlevels, Option.bind_some, fst_countedSearch,
        pointAnswer_firstPoint hs hemulator hdisk htime hlevels hbuffer]

theorem query_eq {timestamp : ℤ}
    (htime : k ∈ s.recorder.historyKeySet → timestamp = s.recorder.insertTimestamp k)
    (kind : FilterKind) :
    (s.query k timestamp kind).map Prod.fst = some (answer (history ops k)) := by
  have hverdict := (hemulator.traced k).verdict_eq
  cases kind with
  | perlevel => rw [Session.query, fst_countedRDF, pointQueryRDF_eq hdisk hcount, hverdict]
  | skyline => exact fst_pointQueryRDFSkyLine hs hemulator hdisk hcount htime
  | splitPerlevel =>
    rw [Session.query, fst_countedSplitRDF, pointQuerySplitRDF_eq hdisk hcount, hverdict]

theorem isSome_checkKey (kind : FilterKind) {check : KeyCheck}
    (htime : check.key ∈ s.recorder.historyKeySet →
      check.timestamp = s.recorder.insertTimestamp check.key)
    (hexpected : check.expected = lookup check.key s.recorder.groundTruth) :
    (s.checkKey kind check).isSome := by
  obtain ⟨⟨result, count⟩, hquery, rfl⟩ :=
    Option.map_eq_some_iff.mp (query_eq hs hemulator hdisk hcount htime kind)
  rw [Session.checkKey, hquery, hexpected, hs.lookup_eq]
  rcases history ops check.key with _ | _ | v
  · simp [answer]
  · simp [answer]
  · simp [answer]

theorem isSome_checkKeys {checks : List KeyCheck}
    (htime : ∀ check ∈ checks, check.key ∈ s.recorder.historyKeySet →
      check.timestamp = s.recorder.insertTimestamp check.key)
    (hexpected : ∀ check ∈ checks, check.expected = lookup check.key s.recorder.groundTruth) :
    (s.checkKeys checks).isSome := by
  refine isSome_mapM fun kind _ => ?_
  rw [Session.checkKind, Option.isSome_map]
  refine isSome_mapM fun check hcheck => ?_
  have hmem : check ∈ checks := by
    obtain ⟨round, hround, hcheck⟩ := List.mem_flatten.mp hcheck
    rwa [List.eq_of_mem_replicate hround] at hcheck
  exact isSome_checkKey hs hemulator hdisk hcount kind (htime check hmem) (hexpected check hmem)

end Answers

variable (hmax : ∀ i, 1 ≤ i → i ≤ 31 → 2 ≤ env.levelMaxFileCount i) (hstores : env.StoresAll)
  (hrun : Session.runWorkload env ops = some s)
  (hcount : s.emulator.disk.getTotalLevelCount ≠ none)
include hmax hstores hrun hcount

/-- After every workload with ranges of more than one key, no check ends the process: whichever
filter a query uses, it answers with the ground truth. -/
theorem checks_return (hops : ∀ op ∈ ops, op.Valid ∧ op.Proper) (hnumber : ops.length ≤ 2 ^ 31) :
    s.checkOnExistingKeys.isSome ∧ s.checkOnAllInsertedKeys.isSome ∧
      s.checkOnAllCurrentlyDeletedKeys.isSome ∧
      ∀ randomKeys, (s.checkOnRandomKeys randomKeys).isSome := by
  obtain ⟨c, hemulator⟩ :=
    run_spec hstores (fun op hop => (hops op hop).1) (run_of_runWorkload hrun)
  have hs := recorded_runWorkload hops hnumber hrun
  have hchecks : ∀ checks : List KeyCheck,
      (∀ check ∈ checks, check.key ∈ s.recorder.historyKeySet →
        check.timestamp = s.recorder.insertTimestamp check.key) →
      (∀ check ∈ checks, check.expected = lookup check.key s.recorder.groundTruth) →
      (s.checkKeys checks).isSome :=
    fun checks => isSome_checkKeys hs hemulator (hemulator.disk_ok hmax) hcount
  have hkeys : ∀ keys : List ℤ, (s.checkKeys (keys.map s.checkOf)).isSome := by
    intro keys
    refine hchecks _ (fun check hcheck _ => ?_) fun check hcheck => ?_
    · obtain ⟨key, _, rfl⟩ := List.mem_map.mp hcheck
      rfl
    · obtain ⟨key, _, rfl⟩ := List.mem_map.mp hcheck
      rfl
  refine ⟨hchecks _ (fun check hcheck _ => ?_) (fun check hcheck => ?_), hkeys _, hkeys _,
    fun randomKeys => ?_⟩
  · obtain ⟨p, _, rfl⟩ := List.mem_map.mp hcheck
    rfl
  · obtain ⟨p, hp, rfl⟩ := List.mem_map.mp hcheck
    exact ((lookup_eq_some_iff hs.distinct).mpr hp).symm
  · rw [Session.checkOnRandomKeys, Option.isSome_map]
    refine hchecks _ (fun check hcheck hkey => ?_) fun check hcheck => ?_
    · obtain ⟨⟨key, random⟩, _, rfl⟩ := List.mem_map.mp hcheck
      dsimp only at hkey ⊢
      split_ifs at hkey ⊢ with hmem
      · rfl
      · exact absurd hkey hmem
    · obtain ⟨⟨key, random⟩, _, rfl⟩ := List.mem_map.mp hcheck
      dsimp only
      split_ifs
      · rfl
      · rfl

/-- After every workload, and whatever is asked, the split filter opens the fewest files and the
skyline filter the most. -/
theorem accesses_ordered (hops : ∀ op ∈ ops, op.Valid) (checks : List KeyCheck)
    {perlevel skyline split : ℕ} (h : s.checkKeys checks = some [perlevel, skyline, split]) :
    split ≤ perlevel ∧ perlevel ≤ skyline := by
  obtain ⟨c, hemulator⟩ := run_spec hstores hops (run_of_runWorkload hrun)
  have hle := checkKey_le (hemulator.disk_ok hmax) hcount
  obtain ⟨hperlevel, hskyline, hsplit⟩ : s.checkKind checks .perlevel = some perlevel ∧
      s.checkKind checks .skyline = some skyline ∧
      s.checkKind checks .splitPerlevel = some split := by
    simpa [Session.checkKeys, Option.bind_eq_some_iff] using h
  obtain ⟨ms, hms, rfl⟩ := Option.map_eq_some_iff.mp hperlevel
  obtain ⟨ns, hns, rfl⟩ := Option.map_eq_some_iff.mp hskyline
  obtain ⟨ls, hls, rfl⟩ := Option.map_eq_some_iff.mp hsplit
  exact ⟨Nat.div_le_div_right (sum_mapM_le (fun check => (hle check).1) hls hms),
    Nat.div_le_div_right (sum_mapM_le (fun check => (hle check).2) hms hns)⟩

omit hmax hstores hrun hcount

/-- The range delete lies above the old points 3 and 7. -/
def accessOps : List Op :=
  [.insert 1 [1], .insert 9 [1], .insert 3 [1], .insert 7 [2], .rangeDelete 3 8, .insert 2 [9],
    .insert 9 [9], .insert 1 [3]]

theorem valid_accessOps : ∀ op ∈ accessOps, op.Valid ∧ op.Proper := by
  simp [accessOps, Op.Valid, Op.Proper]

theorem exists_runWorkload_accessOps : ∃ s, Session.runWorkload sampleEnv accessOps = some s ∧
    s.emulator.disk.getTotalLevelCount ≠ none ∧
    s.checkKeys (s.recorder.historyKeySet.map s.checkOf) = some [2, 3, 2] := by
  have hrun : ((Session.runWorkload sampleEnv accessOps).bind fun s =>
      s.emulator.disk.getTotalLevelCount.bind fun _ =>
        s.checkKeys (s.recorder.historyKeySet.map s.checkOf)) = some [2, 3, 2] := by decide +kernel
  obtain ⟨s, hrun, h⟩ := Option.bind_eq_some_iff.mp hrun
  obtain ⟨count, hcount, hchecks⟩ := Option.bind_eq_some_iff.mp h
  exact ⟨s, hrun, by simp [hcount], hchecks⟩

theorem checks_return_accessOps : ∃ s, Session.runWorkload sampleEnv accessOps = some s ∧
    s.checkOnExistingKeys.isSome ∧ s.checkOnAllInsertedKeys.isSome ∧
      s.checkOnAllCurrentlyDeletedKeys.isSome ∧
      ∀ randomKeys, (s.checkOnRandomKeys randomKeys).isSome := by
  obtain ⟨s, hrun, hcount, _⟩ := exists_runWorkload_accessOps
  exact ⟨s, hrun, checks_return (fun _ _ _ => le_rfl) storesAll_sampleEnv hrun hcount
    valid_accessOps (by decide)⟩

theorem accesses_ordered_accessOps : ∃ s, Session.runWorkload sampleEnv accessOps = some s ∧
    s.checkKeys (s.recorder.historyKeySet.map s.checkOf) = some [2, 3, 2] ∧ 2 ≤ 2 ∧ 2 ≤ 3 := by
  obtain ⟨s, hrun, hcount, hchecks⟩ := exists_runWorkload_accessOps
  exact ⟨s, hrun, hchecks, accesses_ordered (fun _ _ _ => le_rfl) storesAll_sampleEnv hrun hcount
    (fun op hop => (valid_accessOps op hop).1) _ hchecks⟩

end Checks

end Spry.Emulation
