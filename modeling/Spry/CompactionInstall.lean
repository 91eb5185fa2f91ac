import Spry.BundleSplit
import Spry.CompactionDrop

/-!
# The delta of a compaction job

The job hands the boundaries of its input files, the tombstones of the inputs, the boundaries of
the output files and the sampled keys to the filters. Only values are sampled, so the split
filter loses the other kinds of entries that are newer than the tombstones over their key.
-/

namespace Spry

open HalfOpen

variable {K V : Type} [LinearOrder K]

namespace CompactionJob

variable (job : CompactionJob K V)

def sourceLevels : List (CompactionLevel K) :=
  job.inputs.filter fun l => l.level ≠ job.outputLevel

def outputFiles : List (DestinationLevelInfo K) :=
  job.subCompactStates.flatMap fun s => s.outputFiles

def numericRanges (ranges : List (K × K)) : Option (List (ℤ × ℤ)) :=
  if job.usingStringKey then some [] else stollRanges job.stoll ranges

def fileMetaDataVectors : Option (List (LevelFiles ℤ)) :=
  job.inputs.mapM fun l => do
    return ⟨l.level, job.outputLevel, ← job.numericRanges l.boundaries, l.fileNumbers⟩

def fileMetaDataVectorsToplevel : Option (List (LevelFiles ℤ)) :=
  job.sourceLevels.mapM fun l => do
    return ⟨l.level, job.outputLevel,
      ← job.numericRanges (l.rangeTombstonesStr job.outputLevel), l.fileNumbers⟩

def fileMetaDataVectorsStringkey : List (LevelFiles K) :=
  job.inputs.map fun l => ⟨l.level, job.outputLevel, l.boundaries, l.fileNumbers⟩

def fileMetaDataVectorsToplevelStringkey : List (LevelFiles K) :=
  job.sourceLevels.map fun l =>
    ⟨l.level, job.outputLevel, l.rangeTombstonesStr job.outputLevel, l.fileNumbers⟩

def movingRDInfo : MovingRDInfo K :=
  { srcLevelInfoList := job.inputs.map fun l =>
      ⟨l.level, l.fileNumbers, l.rangeTombstonesStr job.outputLevel⟩
    dstLevel := job.outputLevel
    dstLevelInfoList := job.outputFiles }

/-- The delta of a job on a system with filters. With numeric keys the boundaries of the output
files are converted as well, for the log. -/
def installCompactionResults (results : List (SubcompactionResult K V)) :
    Option (RDFUpdateMetadata K) := do
  let vectors ← job.fileMetaDataVectors
  let vectorsToplevel ← job.fileMetaDataVectorsToplevel
  let _ ← job.numericRanges job.movingRDInfo.dstBoundaries
  let sampledKeys := results.flatMap fun r => r.sampledKeys
  let sampledKeysStr := results.flatMap fun r => r.sampledKeysStr
  return {
    type := .kCompaction
    splitFlag := !sampledKeys.isEmpty || !sampledKeysStr.isEmpty
    plrdfCompactionDelta := if .plrdf ∈ job.rdfTypes then vectors else []
    splitPlrdfCompactionDelta := if .splitPlrdf ∈ job.rdfTypes then vectors else []
    topLevelPlrdfCompactionDelta := if .topLevelRdf ∈ job.rdfTypes then vectorsToplevel else []
    plrdfStringkeyCompactionDelta :=
      if .plrdfStringKey ∈ job.rdfTypes then job.fileMetaDataVectorsStringkey else []
    splitPlrdfStringkeyCompactionDelta :=
      if .splitPlrdfStringKey ∈ job.rdfTypes then job.fileMetaDataVectorsStringkey else []
    topLevelPlrdfStringkeyCompactionDelta :=
      if .topLevelRdfStringKey ∈ job.rdfTypes then job.fileMetaDataVectorsToplevelStringkey
      else []
    splitSampledKeys := sampledKeys
    splitSampledKeysStr := sampledKeysStr
    fdRangetombstonesInfo := some job.movingRDInfo }

end CompactionJob

namespace CompactionJob

variable {job : CompactionJob K V}

/-- One turn of the loop: the entry is skipped, or it is written, and sampled if it is a
value. -/
theorem processEntry_cases (hon : job.hasRDFTypeOtherThanNone = true)
    {res res' : SubcompactionResult K V} {e : PointEntry K V}
    (h : job.processEntry res e = some res') :
    (flagDeleteCurrentEntry e job.rangeDelVecSelf = some true ∧ res' = res) ∨
      (flagDeleteCurrentEntry e job.rangeDelVecSelf = some false ∧
        res'.outputs = res.outputs ++ [e] ∧
        res'.sampledKeysStr =
          res.sampledKeysStr ++ ([e].filter fun e => e.type = .kTypeValue).map fun e => e.key) := by
  unfold processEntry at h
  rw [if_pos hon] at h
  cases hflag : flagDeleteCurrentEntry e job.rangeDelVecSelf with
  | none => simp [hflag] at h
  | some skip =>
    cases skip with
    | true =>
      simp only [hflag, Option.some.injEq] at h
      exact Or.inl ⟨rfl, h.symm⟩
    | false =>
      simp only [hflag, Option.map_eq_some_iff] at h
      obtain ⟨keyIn, _, rfl⟩ := h
      refine Or.inr ⟨rfl, ?_⟩
      unfold SubcompactionResult.write
      by_cases htype : e.type = .kTypeValue
      · simp [htype]
      · simp [htype]

structure Processed (job : CompactionJob K V) (entries outputs : List (PointEntry K V))
    (sampledKeysStr : List K) : Prop where
  outputs_eq : outputs =
    entries.filter fun e => flagDeleteCurrentEntry e job.rangeDelVecSelf = some false
  sampled_eq : sampledKeysStr =
    (outputs.filter fun e => e.type = .kTypeValue).map fun e => e.key
  decided : ∀ e ∈ entries, flagDeleteCurrentEntry e job.rangeDelVecSelf ≠ none

theorem Processed.append {entries entries' outputs outputs' : List (PointEntry K V)}
    {sampled sampled' : List K} (h : job.Processed entries outputs sampled)
    (h' : job.Processed entries' outputs' sampled') :
    job.Processed (entries ++ entries') (outputs ++ outputs') (sampled ++ sampled') := by
  refine ⟨?_, ?_, ?_⟩
  · rw [h.outputs_eq, h'.outputs_eq, List.filter_append]
  · rw [h.sampled_eq, h'.sampled_eq, List.filter_append, List.map_append]
  · intro e he
    cases List.mem_append.mp he with
    | inl he => exact h.decided e he
    | inr he => exact h'.decided e he

theorem processed_foldlM (hon : job.hasRDFTypeOtherThanNone = true)
    {entries before : List (PointEntry K V)} {res res' : SubcompactionResult K V}
    (hres : job.Processed before res.outputs res.sampledKeysStr)
    (h : entries.foldlM job.processEntry res = some res') :
    job.Processed (before ++ entries) res'.outputs res'.sampledKeysStr := by
  induction entries generalizing before res with
  | nil =>
    cases h
    rw [List.append_nil]
    exact hres
  | cons e entries ih =>
    obtain ⟨mid, hmid, hrest⟩ := Option.bind_eq_some_iff.mp h
    have hstep : job.Processed (before ++ [e]) mid.outputs mid.sampledKeysStr := by
      cases processEntry_cases hon hmid with
      | inl hskip =>
        obtain ⟨hflag, rfl⟩ := hskip
        have hone : job.Processed [e] [] [] := ⟨by simp [hflag], rfl, by simp [hflag]⟩
        have happend := hres.append hone
        rwa [List.append_nil, List.append_nil] at happend
      | inr hkeep =>
        obtain ⟨hflag, houtputs, hsampled⟩ := hkeep
        rw [houtputs, hsampled]
        exact hres.append ⟨by simp [hflag], rfl, by simp [hflag]⟩
    have := ih hstep hrest
    rwa [List.append_assoc] at this

theorem processed_run (hon : job.hasRDFTypeOtherThanNone = true)
    {subs : List (SubcompactionState K V)} {results : List (SubcompactionResult K V)}
    (h : subs.mapM job.processKeyValueCompaction = some results) :
    job.Processed (subs.flatMap fun s => s.entries) (results.flatMap fun r => r.outputs)
      (results.flatMap fun r => r.sampledKeysStr) := by
  induction subs generalizing results with
  | nil =>
    cases h
    exact ⟨rfl, rfl, by simp⟩
  | cons sub subs ih =>
    rw [List.mapM_cons] at h
    simp only [Option.bind_eq_bind, Option.bind_eq_some_iff, Option.pure_def,
      Option.some.injEq] at h
    obtain ⟨r, hr, rs, hrs, rfl⟩ := h
    have hfirst : job.Processed ([] ++ sub.entries) r.outputs r.sampledKeysStr :=
      processed_foldlM hon ⟨rfl, rfl, by simp⟩ hr
    exact Processed.append hfirst (ih hrs)

theorem rangeTombstonesStr_eq (l : CompactionLevel K) (outputLevel : ℕ) :
    l.rangeTombstonesStr outputLevel = l.tombstones.map fun t => (t.start, t.stop) := by
  unfold CompactionLevel.rangeTombstonesStr CompactionLevel.tombstones
  rw [List.map_flatMap]
  apply List.flatMap_congr
  intro f _
  apply List.map_congr_left
  intro t ht
  obtain ⟨hsmallest, hlargest⟩ := f.tombstones_within t ht
  rw [max_eq_right hsmallest, min_eq_right hlargest, ite_self]

theorem mem_movingRDInfo_inputTombstones {r : K × K} :
    r ∈ job.movingRDInfo.inputTombstones ↔ ∃ t ∈ job.inputTombstones, (t.start, t.stop) = r := by
  simp only [movingRDInfo, MovingRDInfo.inputTombstones, inputTombstones, List.flatMap_map,
    rangeTombstonesStr_eq, List.mem_flatMap, List.mem_map]
  constructor
  · intro h
    obtain ⟨l, hl, t, ht, htr⟩ := h
    exact ⟨t, ⟨l, hl, ht⟩, htr⟩
  · intro h
    obtain ⟨t, ⟨l, hl, ht⟩, htr⟩ := h
    exact ⟨l, hl, t, ht, htr⟩

theorem nonempty_of_mem_inputTombstones {t : RangeTombstone K} (ht : t ∈ job.inputTombstones) :
    t.start < t.stop := by
  simp only [inputTombstones, CompactionLevel.tombstones, List.mem_flatMap] at ht
  obtain ⟨_, _, f, _, htf⟩ := ht
  exact f.nonempty t htf

theorem hasRDFTypeOtherThanNone_of_split (hon : .splitPlrdfStringKey ∈ job.rdfTypes) :
    job.hasRDFTypeOtherThanNone = true := by
  rw [hasRDFTypeOtherThanNone, List.any_eq_true]
  exact ⟨_, hon, by decide⟩

theorem installCompactionResults_spec (hon : .splitPlrdfStringKey ∈ job.rdfTypes)
    {results : List (SubcompactionResult K V)} {d : RDFUpdateMetadata K}
    (hd : job.installCompactionResults results = some d) :
    d.type = .kCompaction ∧
      d.splitPlrdfStringkeyCompactionDelta = job.fileMetaDataVectorsStringkey ∧
      d.splitSampledKeysStr = (results.flatMap fun r => r.sampledKeysStr) ∧
      (d.splitSampledKeysStr ≠ [] → d.splitFlag = true) ∧
      d.inputTombstones = job.movingRDInfo.inputTombstones ∧
      d.outputBoundaries = job.movingRDInfo.dstBoundaries := by
  simp only [installCompactionResults, Option.bind_eq_bind, Option.bind_eq_some_iff,
    Option.pure_def, Option.some.injEq] at hd
  obtain ⟨_, _, _, _, _, _, rfl⟩ := hd
  refine ⟨rfl, if_pos hon, rfl, ?_, rfl, rfl⟩
  intro hne
  simp only [Bool.or_eq_true, Bool.not_eq_true', List.isEmpty_eq_false_iff]
  exact Or.inr hne

theorem splitDelta_installCompactionResults (hon : .splitPlrdfStringKey ∈ job.rdfTypes)
    {results : List (SubcompactionResult K V)} (hrun : job.run = some results)
    {d : RDFUpdateMetadata K} (hd : job.installCompactionResults results = some d) :
    VersionRDFBundle.SplitDelta d ∧ coverage d.rangetombstonesOnOutputLevel =
      coverage d.inputTombstones ∩ coverage d.outputBoundaries := by
  obtain ⟨_, hentries, hsampled, _, hinput, houtput⟩ := installCompactionResults_spec hon hd
  have hproc := processed_run (hasRDFTypeOtherThanNone_of_split hon) hrun
  obtain ⟨hordered, hcov⟩ := d.rangetombstonesOnOutputLevel_spec
    (by
      rw [hinput]
      intro r hr
      obtain ⟨t, ht, rfl⟩ := mem_movingRDInfo_inputTombstones.mp hr
      exact nonempty_of_mem_inputTombstones ht)
    (by
      rw [houtput]
      exact job.outputs_sorted)
    (by
      rw [houtput]
      intro x hx
      obtain ⟨o, ho, rfl⟩ := List.mem_map.mp hx
      obtain ⟨sub, hsub, ho⟩ := List.mem_flatMap.mp ho
      exact job.outputs_le sub hsub o ho)
  refine ⟨⟨?_, hordered, ?_⟩, hcov⟩
  · rw [hentries]
    intro e he x hx
    obtain ⟨l, _, rfl⟩ := List.mem_map.mp he
    obtain ⟨f, _, rfl⟩ := List.mem_map.mp hx
    exact f.smallest_le_largest
  · rw [hsampled, hproc.sampled_eq, hproc.outputs_eq, List.pairwise_map]
    exact (job.entries_sorted.filter _).filter _

variable (job)

def EmitsValue (key : K) : Prop :=
  ∃ sub ∈ job.subCompactStates, ∃ e ∈ sub.entries, e.key = key ∧ e.type = .kTypeValue ∧
    ∀ t ∈ job.rangeDelVecSelf, t.Covers key → t.seq < e.seq

def CoversInOutput (key : K) : Prop :=
  (∃ t ∈ job.inputTombstones, t.Covers key) ∧
    ∃ o ∈ job.outputFiles, o.fileBoundary.1 ≤ key ∧ key < o.fileBoundary.2

def InsideRewritten (key : K) : Prop :=
  job.outputLevel ≠ 0 ∧ ∃ l ∈ job.inputs, l.level = job.outputLevel ∧
    ∃ f ∈ l.files, f.smallest ≤ key ∧ key < f.largest

variable {job}

theorem mem_sampledKeysStr_iff (hon : .splitPlrdfStringKey ∈ job.rdfTypes)
    {results : List (SubcompactionResult K V)} (hrun : job.run = some results) (key : K) :
    key ∈ (results.flatMap fun r => r.sampledKeysStr) ↔ job.EmitsValue key := by
  have hproc := processed_run (hasRDFTypeOtherThanNone_of_split hon) hrun
  rw [hproc.sampled_eq, hproc.outputs_eq]
  simp only [List.mem_map, List.mem_filter, decide_eq_true_eq]
  constructor
  · intro h
    obtain ⟨e, ⟨⟨he, hkept⟩, htype⟩, rfl⟩ := h
    obtain ⟨sub, hsub, hmem⟩ := List.mem_flatMap.mp he
    exact ⟨sub, hsub, e, hmem, rfl, htype,
      seq_lt_of_flagDeleteCurrentEntry_false job.sorted_rangeDelVecSelf htype hkept⟩
  · intro h
    obtain ⟨sub, hsub, e, hmem, rfl, htype, hnone⟩ := h
    have he : e ∈ job.subCompactStates.flatMap fun s => s.entries :=
      List.mem_flatMap.mpr ⟨sub, hsub, hmem⟩
    obtain ⟨skip, hskip⟩ := Option.ne_none_iff_exists'.mp (hproc.decided e he)
    rw [flagDeleteCurrentEntry_eq_false hnone hskip] at hskip
    exact ⟨e, ⟨⟨he, hskip⟩, htype⟩, rfl⟩

theorem coversInOutput_iff {d : RDFUpdateMetadata K}
    (hinput : d.inputTombstones = job.movingRDInfo.inputTombstones)
    (houtput : d.outputBoundaries = job.movingRDInfo.dstBoundaries) (key : K) :
    key ∈ coverage d.inputTombstones ∩ coverage d.outputBoundaries ↔ job.CoversInOutput key := by
  rw [hinput, houtput]
  apply and_congr
  · rw [mem_coverage]
    constructor
    · intro h
      obtain ⟨r, hr, hcov⟩ := h
      obtain ⟨t, ht, rfl⟩ := mem_movingRDInfo_inputTombstones.mp hr
      exact ⟨t, ht, hcov⟩
    · intro h
      obtain ⟨t, ht, hcov⟩ := h
      exact ⟨_, mem_movingRDInfo_inputTombstones.mpr ⟨t, ht, rfl⟩, hcov⟩
  · rw [mem_coverage]
    simp only [MovingRDInfo.dstBoundaries, movingRDInfo, List.mem_map]
    constructor
    · intro h
      obtain ⟨_, ⟨o, ho, rfl⟩, hinside⟩ := h
      exact ⟨o, ho, hinside⟩
    · intro h
      obtain ⟨o, ho, hinside⟩ := h
      exact ⟨_, ⟨o, ho, rfl⟩, hinside⟩

theorem mem_listedAt_iff (key : K) :
    key ∈ PLRDF.listedAt job.fileMetaDataVectorsStringkey job.outputLevel ↔
      ∃ l ∈ job.inputs, l.level = job.outputLevel ∧
        ∃ f ∈ l.files, f.smallest ≤ key ∧ key < f.largest := by
  constructor
  · intro h
    obtain ⟨e, he, hlevel, hinside⟩ := h
    obtain ⟨l, hl, rfl⟩ := List.mem_map.mp he
    obtain ⟨r, hr, hinside⟩ := hinside
    obtain ⟨f, hf, rfl⟩ := List.mem_map.mp hr
    exact ⟨l, hl, hlevel, f, hf, hinside⟩
  · intro h
    obtain ⟨l, hl, hlevel, f, hf, hinside⟩ := h
    exact ⟨_, List.mem_map_of_mem hl, hlevel, _, List.mem_map_of_mem hf, hinside⟩

/-- A level-0 file with a tombstone from `2` to `4` at 5 is compacted with one later entry of the
key `3`. -/
def laterJob (e : PointEntry Bytes ℕ) : CompactionJob Bytes ℕ :=
  { coveredJob with
    rdfTypes := [.splitPlrdfStringKey]
    subCompactStates := [⟨[e], [⟨8, ([50], [52])⟩]⟩]
    entries_sorted := by simp
    outputs_sorted := by simp
    outputs_le := by
      intro s hs o ho
      rw [List.mem_singleton.mp hs] at ho
      rw [List.mem_singleton.mp ho]
      decide }

end CompactionJob

end Spry
