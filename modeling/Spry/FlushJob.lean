import Spry.VersionGetNewest

/-!
# The flush of memtables and the read of the flushed file

`WriteLevel0Table` walks over the memtables it flushes, collects the fragments of their range
tombstones and hands them, filter by filter, to the new version. The ranges are all it hands
over: a point that is newer than a tombstone of its own memtable leaves no trace in the delta.
-/

namespace Spry

open HalfOpen

/-- The points of a memtable and the fragments its range tombstone iterator yields. The
fragmentation drops empty tombstones. -/
structure MemTable (K V : Type) [LinearOrder K] where
  points : List (PointEntry K V)
  tombstones : List (RangeTombstone K)
  nonempty : ∀ t ∈ tombstones, t.start < t.stop

structure FlushJob (K V : Type) [LinearOrder K] where
  rdfTypes : List RdfType
  usingStringKey : Bool
  stoll : K → Option ℤ
  fileNumber : ℕ
  existLevel0FileNums : List ℕ
  mems : List (MemTable K V)

variable {K V : Type} [LinearOrder K]

namespace MemTable

def rangeDeleteListInStr (m : MemTable K V) : List (K × K) :=
  m.tombstones.map fun t => (t.start, t.stop)

/-- A tombstone whose ends are no numbers is only reported. -/
def rangeDeleteListIn (usingStringKey : Bool) (stoll : K → Option ℤ) (m : MemTable K V) :
    List (ℤ × ℤ) :=
  if usingStringKey then []
  else m.tombstones.filterMap fun t => do return (← stoll t.start, ← stoll t.stop)

end MemTable

namespace FlushJob

variable (job : FlushJob K V)

def extendDelta {L : Type} (rdf : RdfType) (ranges : List (L × L)) (d : FlushDelta L) :
    FlushDelta L :=
  if rdf ∈ job.rdfTypes then ⟨job.fileNumber, d.ranges ++ ranges, job.existLevel0FileNums⟩ else d

def extendInfo (rdf : RdfType) (ranges : List (K × K))
    (info : Option (SuRFFlushToLevel0Info K)) : Option (SuRFFlushToLevel0Info K) :=
  if rdf ∈ job.rdfTypes then
    match info with
    | none => some ⟨job.fileNumber, ranges⟩
    | some info => some { info with rdList := info.rdList ++ ranges }
  else info

def addMemTable (d : RDFUpdateMetadata K) (m : MemTable K V) : RDFUpdateMetadata K :=
  let ranges := m.rangeDeleteListIn job.usingStringKey job.stoll
  let rangesStr := m.rangeDeleteListInStr
  { d with
    plrdfFlushDelta := job.extendDelta .plrdf ranges d.plrdfFlushDelta
    splitPlrdfFlushDelta := job.extendDelta .splitPlrdf ranges d.splitPlrdfFlushDelta
    topLevelPlrdfFlushDelta := job.extendDelta .topLevelRdf ranges d.topLevelPlrdfFlushDelta
    plrdfStringkeyFlushDelta :=
      job.extendDelta .plrdfStringKey rangesStr d.plrdfStringkeyFlushDelta
    splitPlrdfStringkeyFlushDelta :=
      job.extendDelta .splitPlrdfStringKey rangesStr d.splitPlrdfStringkeyFlushDelta
    topLevelPlrdfStringkeyFlushDelta :=
      job.extendDelta .topLevelRdfStringKey rangesStr d.topLevelPlrdfStringkeyFlushDelta
    surfFlushInfo := job.extendInfo .surfLfRdf rangesStr d.surfFlushInfo
    splitSurfFlushInfo := job.extendInfo .surfLfSplitRdf rangesStr d.splitSurfFlushInfo }

def writeLevel0Table : RDFUpdateMetadata K :=
  job.mems.foldl job.addMemTable { type := .kFlush }

def tombstones : List (RangeTombstone K) := job.mems.flatMap fun m => m.tombstones

def rdList : List (K × K) := job.mems.flatMap fun m => m.rangeDeleteListInStr

end FlushJob

def RangeFilters.empty : RangeFilters K := ⟨VersionRDFBundle.empty, none, none⟩

def RangeFilters.applyFlushDelta (env : SuRFEnv K) (fs : RangeFilters K)
    (d : RDFUpdateMetadata K) : Option (RangeFilters K) := do
  let bundle ← fs.bundle.applyFlushDelta d
  return { bundle
           surfLevelFileRdf := SuRFRDF.applyFlush env fs.surfLevelFileRdf d.surfFlushInfo
           surfLevelFileSplitRdf :=
             SuRFRDF.applyFlush env fs.surfLevelFileSplitRdf d.splitSurfFlushInfo }

namespace FlushJob

variable {job : FlushJob K V}

theorem mem_rdList {r : K × K} :
    r ∈ job.rdList ↔ ∃ t ∈ job.tombstones, (t.start, t.stop) = r := by
  simp only [rdList, tombstones, MemTable.rangeDeleteListInStr, List.mem_flatMap, List.mem_map]
  constructor
  · intro h
    obtain ⟨m, hm, t, ht, htr⟩ := h
    exact ⟨t, ⟨m, hm, ht⟩, htr⟩
  · intro h
    obtain ⟨t, ⟨m, hm, ht⟩, htr⟩ := h
    exact ⟨m, hm, t, ht, htr⟩

theorem nonempty_of_mem_rdList {r : K × K} (hr : r ∈ job.rdList) : r.1 < r.2 := by
  obtain ⟨t, ht, rfl⟩ := mem_rdList.mp hr
  obtain ⟨m, _, htm⟩ := List.mem_flatMap.mp ht
  exact m.nonempty t htm

theorem splitSurfFlushInfo_foldl (hon : .surfLfSplitRdf ∈ job.rdfTypes)
    (mems : List (MemTable K V)) (d : RDFUpdateMetadata K) (rdList : List (K × K))
    (hd : d.splitSurfFlushInfo = some ⟨job.fileNumber, rdList⟩) :
    (mems.foldl job.addMemTable d).splitSurfFlushInfo =
      some ⟨job.fileNumber, rdList ++ mems.flatMap fun m => m.rangeDeleteListInStr⟩ := by
  induction mems generalizing d rdList with
  | nil => simpa using hd
  | cons m mems ih =>
    rw [List.foldl_cons, ih _ (rdList ++ m.rangeDeleteListInStr), List.flatMap_cons,
      List.append_assoc]
    simp [addMemTable, extendInfo, hon, hd]

theorem splitSurfFlushInfo_writeLevel0Table (hon : .surfLfSplitRdf ∈ job.rdfTypes)
    (hmems : job.mems ≠ []) :
    job.writeLevel0Table.splitSurfFlushInfo = some ⟨job.fileNumber, job.rdList⟩ := by
  obtain ⟨m, mems, hcons⟩ := List.exists_cons_of_ne_nil hmems
  unfold writeLevel0Table rdList
  rw [hcons, List.foldl_cons, List.flatMap_cons]
  apply splitSurfFlushInfo_foldl hon
  simp [addMemTable, extendInfo, hon]

theorem mem_coverage_rdList {key : K} :
    key ∈ coverage job.rdList ↔ ∃ t ∈ job.tombstones, t.Covers key := by
  rw [mem_coverage]
  constructor
  · intro h
    obtain ⟨r, hr, hcov⟩ := h
    obtain ⟨t, ht, rfl⟩ := mem_rdList.mp hr
    exact ⟨t, ht, hcov⟩
  · intro h
    obtain ⟨t, ht, hcov⟩ := h
    exact ⟨_, mem_rdList.mpr ⟨t, ht, rfl⟩, hcov⟩

variable (job)

/-- The newest entry of the key in the memtables is a value, newer than their tombstones over
the key. -/
structure NewestValue (key : K) (e : PointEntry K V) : Prop where
  held : ∃ m ∈ job.mems, e ∈ m.points
  key_eq : e.key = key
  type_eq : e.type = .kTypeValue
  newest : ∀ m ∈ job.mems, ∀ p ∈ m.points, p.key = key → p.seq ≤ e.seq
  uncovered : ∀ t ∈ job.tombstones, t.Covers key → t.seq < e.seq

/-- What is known of the file the job writes: all it holds comes from the memtables, and a value
that is the newest state of its key is kept. -/
structure Writes (f : SstFile K V) : Prop where
  number_eq : f.number = job.fileNumber
  points : ∀ e ∈ f.points, ∃ m ∈ job.mems, e ∈ m.points
  tombstones : ∀ t ∈ f.tombstones, ∀ key, t.Covers key →
    ∃ u ∈ job.tombstones, u.Covers key ∧ u.seq = t.seq
  keeps : ∀ key e, job.NewestValue key e → e ∈ f.points

def comparedKeys (key : K) : Set K :=
  {x | x = key ∨ ∃ t ∈ job.tombstones, x = t.start ∨ x = t.stop}

def StoresEnd (env : SuRFEnv K) (key : K) : Prop :=
  ∃ r ∈ SuRF.mergedRanges env.allowRangeBoundaryOverlapped
      (job.rdList.map fun r => (env.condense r.1, env.condense r.2)),
    r.1 = env.condense key ∨ r.2 = env.condense key

instance (env : SuRFEnv K) (key : K) : Decidable (job.StoresEnd env key) :=
  inferInstanceAs (Decidable (∃ r ∈ _, _ ∨ _))

variable {job}

theorem Writes.outcome_tableGet {f : SstFile K V} (hf : job.Writes f) (env : ReadEnv V)
    {key : K} {e : PointEntry K V} (he : job.NewestValue key e) {snapshot : ℕ}
    (hseq : e.seq ≤ snapshot) :
    (env.tableGet {} f key snapshot).state.outcome = some (.ok e.value) := by
  have hvis : e ∈ f.visible key snapshot :=
    SstFile.mem_visible.mpr ⟨hf.keeps key e he, he.key_eq, hseq⟩
  have hnewest : ∀ e' ∈ f.visible key snapshot, e'.seq ≤ e.seq := by
    intro e' he'
    obtain ⟨hpoint, hkey, _⟩ := SstFile.mem_visible.mp he'
    obtain ⟨m, hm, hmem⟩ := hf.points e' hpoint
    exact he.newest m hm e' hmem hkey
  have hmax : ReadEnv.maxAfter {} f key snapshot ≤ e.seq := by
    rw [ReadEnv.maxAfter, Nat.zero_max]
    apply SstFile.maxCovering_le
    intro t ht hcov
    obtain ⟨u, hu, hucov, huseq⟩ := hf.tombstones t ht key hcov
    have hlt := he.uncovered u hu hucov
    omega
  have htype : e.type ≠ .kTypeMerge := by simp [he.type_eq]
  obtain ⟨es, hes⟩ := SstFile.visible_eq_cons hvis hnewest
  rw [Version.tableGet_outcome_of_newest rfl hes htype hmax]
  simp [ReadEnv.entryOutcome, he.type_eq, ReadEnv.userValue]

/-- After the flush the tries spare the keys no flushed tombstone covers and, with the bypass,
the end points they keep. -/
theorem isAliveAfterSuRF_applyFlushDelta (sys : ReadSystem K V)
    (hcut : ∀ x, sys.surfEnv.cut x = x) {key : K}
    (hcondense : StrictMonoOn sys.surfEnv.condense (job.comparedKeys key))
    (hon : .surfLfSplitRdf ∈ job.rdfTypes) (hmems : job.mems ≠ []) {fs fs' : RangeFilters K}
    (hfresh : ∀ f ∈ fs.surfLevelFileSplitRdf, job.fileNumber ∉ f.atLevel 0)
    (happly : fs.applyFlushDelta sys.surfEnv job.writeLevel0Table = some fs') :
    sys.isAliveAfterSuRF fs'.surfLevelFileSplitRdf key 0 (some job.fileNumber) = true ↔
      (∀ t ∈ job.tombstones, ¬ t.Covers key) ∨
        (sys.surfEnv.bypassIfSameKey = true ∧ job.StoresEnd sys.surfEnv key) := by
  have hfresh' : job.fileNumber ∉ (fs.surfLevelFileSplitRdf.getD SuRFRDF.empty).atLevel 0 := by
    cases hfilter : fs.surfLevelFileSplitRdf with
    | none => exact List.not_mem_nil
    | some f => exact hfresh f hfilter
  have hends : ∀ r ∈ job.rdList, r.1 ∈ job.comparedKeys key ∧ r.2 ∈ job.comparedKeys key := by
    intro r hr
    obtain ⟨t, ht, rfl⟩ := mem_rdList.mp hr
    exact ⟨Or.inr ⟨t, ht, Or.inl rfl⟩, Or.inr ⟨t, ht, Or.inr rfl⟩⟩
  have hne : ∀ r ∈ job.rdList.map fun r => (sys.surfEnv.condense r.1, sys.surfEnv.condense r.2),
      r.1 < r.2 := by
    intro r hr
    obtain ⟨s, hs, rfl⟩ := List.mem_map.mp hr
    exact hcondense (hends s hs).1 (hends s hs).2 (nonempty_of_mem_rdList hs)
  have hfilter : fs'.surfLevelFileSplitRdf =
      some ((fs.surfLevelFileSplitRdf.getD SuRFRDF.empty).insertRangeDeleteToLevel0 sys.surfEnv
        job.fileNumber
        (job.rdList.map fun r => (sys.surfEnv.condense r.1, sys.surfEnv.condense r.2))) := by
    simp only [RangeFilters.applyFlushDelta, Option.bind_eq_bind, Option.bind_eq_some_iff,
      Option.pure_def, Option.some.injEq] at happly
    obtain ⟨_, _, rfl⟩ := happly
    simp only [splitSurfFlushInfo_writeLevel0Table hon hmems, SuRFRDF.applyFlush]
  rw [hfilter, ReadSystem.isAliveAfterSuRF,
    SuRFRDF.isEntryAliveAtLevelOfFd_insertRangeDeleteToLevel0 sys.surfEnv hcut _ _ hfresh' hne,
    mem_coverage_map hcondense (Or.inl rfl) hends, mem_coverage_rdList]
  simp [StoresEnd]

/-- The read of a freshly flushed value under the split tries, when the flushed file is the first
one that overlaps the key: the value is returned exactly if none of the flushed tombstones covers
the key, or if the bypass is on and the key is an end point that the tries keep. -/
theorem get_surfLfSplitRdf_eq_ok_iff (job : FlushJob K V) (sys : ReadSystem K V)
    (hcut : ∀ x, sys.surfEnv.cut x = x) (key : K)
    (hcondense : StrictMonoOn sys.surfEnv.condense (job.comparedKeys key))
    (hon : .surfLfSplitRdf ∈ job.rdfTypes) (fs fs' : RangeFilters K)
    (hfresh : ∀ f ∈ fs.surfLevelFileSplitRdf, job.fileNumber ∉ f.atLevel 0)
    (happly : fs.applyFlushDelta sys.surfEnv job.writeLevel0Table = some fs')
    (e : PointEntry K V) (he : job.NewestValue key e) (f : SstFile K V) (hf : job.Writes f)
    (v : Version K V) (rest : List (ℕ × SstFile K V)) (hpicks : v.picks key = (0, f) :: rest)
    (endLevel snapshot : ℕ) (hseq : e.seq ≤ snapshot) :
    sys.get fs' .surfLfSplitRdf v endLevel key snapshot {} = .ok e.value ↔
      (∀ t ∈ job.tombstones, ¬ t.Covers key) ∨
        (sys.surfEnv.bypassIfSameKey = true ∧ job.StoresEnd sys.surfEnv key) := by
  have hmems : job.mems ≠ [] := by
    obtain ⟨m, hm, _⟩ := he.held
    exact List.ne_nil_of_mem hm
  rw [← isAliveAfterSuRF_applyFlushDelta sys hcut hcondense hon hmems hfresh happly,
    ← hf.number_eq]
  have hfirst : Version.nextAlive (sys.isAliveAfterSuRF fs'.surfLevelFileSplitRdf key) endLevel
      ((0, f) :: rest) = sys.isAliveAfterSuRF fs'.surfLevelFileSplitRdf key 0 (some f.number) :=
    rfl
  simp only [ReadSystem.get, ReadSystem.verdict, hpicks, Version.getGated, RdfType.mode, hfirst]
  cases sys.isAliveAfterSuRF fs'.surfLevelFileSplitRdf key 0 (some f.number) with
  | false => simp
  | true => simp [Version.getLoop, hf.outcome_tableGet sys.env he hseq]

/-- A memtable with a tombstone from `2` to `4` and, after it, a value 7 for the key. -/
def overwriteJob (key : Bytes) : FlushJob Bytes ℕ :=
  { rdfTypes := [.surfLfSplitRdf]
    usingStringKey := true
    stoll := Bytes.stoll
    fileNumber := 11
    existLevel0FileNums := []
    mems :=
      [{ points := [⟨key, 9, .kTypeValue, 7⟩]
         tombstones := [⟨[50], [52], 5, ReadSystem.tombstoneSeq_pos⟩]
         nonempty := ReadSystem.tombstone_nonempty }] }

def overwriteFile (key : Bytes) (hkey : [50] ≤ key ∧ key ≤ [52]) : SstFile Bytes ℕ :=
  { number := 11
    smallest := [50]
    largest := [52]
    points := [⟨key, 9, .kTypeValue, 7⟩]
    tombstones := [⟨[50], [52], 5, ReadSystem.tombstoneSeq_pos⟩]
    sorted := by simp
    points_within := by simpa using hkey
    tombstones_within := ReadSystem.tombstone_within }

theorem newestValue_overwriteJob (key : Bytes) :
    (overwriteJob key).NewestValue key ⟨key, 9, .kTypeValue, 7⟩ := by
  refine ⟨?_, rfl, rfl, ?_, ?_⟩ <;> simp [overwriteJob, tombstones]

theorem writes_overwriteFile (key : Bytes) (hkey : [50] ≤ key ∧ key ≤ [52]) :
    (overwriteJob key).Writes (overwriteFile key hkey) := by
  refine ⟨rfl, ?_, ?_, ?_⟩
  · intro e he
    exact ⟨_, List.mem_singleton_self _, he⟩
  · intro t ht key' hcov
    exact ⟨t, ht, hcov, rfl⟩
  · intro key' e he
    obtain ⟨m, hm, hmem⟩ := he.held
    rw [List.mem_singleton.mp hm] at hmem
    exact hmem

def overwriteSystem (bypass : Bool) : ReadSystem Bytes ℕ :=
  { ReadSystem.sampleSystem with surfEnv := ⟨bypass, false, id, id⟩ }

def overwriteVersion (key : Bytes) (hkey : [50] ≤ key ∧ key ≤ [52]) : Version Bytes ℕ :=
  Version.tower [overwriteFile key hkey] []

/-- The value written after the tombstone is not found, with the bypass and without it. -/
theorem flush_hides_newer_value :
    (overwriteJob [51]).NewestValue [51] ⟨[51], 9, .kTypeValue, 7⟩ ∧
      (overwriteJob [51]).Writes (overwriteFile [51] (by decide)) ∧
      (overwriteVersion [51] (by decide)).picks [51] = [(0, overwriteFile [51] (by decide))] ∧
      ∃ fs, RangeFilters.empty.applyFlushDelta (overwriteSystem true).surfEnv
          (overwriteJob [51]).writeLevel0Table = some fs ∧
        RangeFilters.empty.applyFlushDelta (overwriteSystem false).surfEnv
          (overwriteJob [51]).writeLevel0Table = some fs ∧
        (overwriteSystem true).get fs .none (overwriteVersion [51] (by decide)) 0 [51] 9 {} =
          .ok 7 ∧
        (overwriteSystem true).get fs .surfLfSplitRdf (overwriteVersion [51] (by decide)) 0 [51]
          9 {} = .notFound ∧
        (overwriteSystem false).get fs .surfLfSplitRdf (overwriteVersion [51] (by decide)) 0 [51]
          9 {} = .notFound := by
  refine ⟨newestValue_overwriteJob _, writes_overwriteFile _ _, rfl, _, rfl, rfl, ?_, ?_, ?_⟩
  · decide
  · decide
  · decide

/-- With the bypass the start of a tombstone, written after it, is found. -/
theorem get_surfLfSplitRdf_eq_ok_start :
    (∃ t ∈ (overwriteJob [50]).tombstones, t.Covers [50]) ∧
      ∃ fs, RangeFilters.empty.applyFlushDelta (overwriteSystem true).surfEnv
          (overwriteJob [50]).writeLevel0Table = some fs ∧
        (overwriteSystem true).get fs .surfLfSplitRdf (overwriteVersion [50] (by decide)) 0 [50]
          9 {} = .ok 7 := by
  refine ⟨by decide, _, rfl, ?_⟩
  have hstores : (overwriteJob [50]).StoresEnd (overwriteSystem true).surfEnv [50] := by decide
  exact ((overwriteJob [50]).get_surfLfSplitRdf_eq_ok_iff (overwriteSystem true) (fun _ => rfl)
    [50] (strictMono_id.strictMonoOn _) (by decide) RangeFilters.empty _
    (by simp [RangeFilters.empty]) rfl ⟨[50], 9, .kTypeValue, 7⟩ (newestValue_overwriteJob _) _
    (writes_overwriteFile _ (by decide)) _ [] rfl 0 9 le_rfl).mpr (Or.inr ⟨rfl, hstores⟩)

end FlushJob

end Spry
