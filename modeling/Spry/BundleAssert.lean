import Spry.Checked
import Spry.SuRFFiles

/-!
# The assertions of an update

`ApplyDelta` as a debug build runs it, with the string-key filter and the per-file filter enabled:
both filters are updated and the closing log call adds up the memory of the tries, level by level.
Apart from `exit(1)` a step can stop at one of the assertions on the way.
-/

namespace Spry

open HalfOpen

inductive Assertion where
  /-- `rd_filter.size() >= level` in `addRangeDelete_internal` -/
  | rdFilterSize
  /-- `len_rd > 0` in `shiftRDFToOutputLevel` -/
  | tombstonesToShift
  /-- `dst_fd_list.size() == file_boundary_list.size()` in `shiftRDFToOutputLevel` -/
  | boundaryForEachFile
  /-- `level < level_file_surf_rdf.size()` in `getMemoryUsageAtIthLevel` -/
  | levelExists
  /-- `level_file_surf_rdf[level].size() != 0` in `getMemoryUsageAtIthLevel` -/
  | levelHasFiles
  deriving DecidableEq, Repr

open Stop Fallible

variable {K : Type}

namespace SuRFRDF

def getNumberOfTotalLevels (f : SuRFRDF K) : ℕ :=
  (List.range f.levelFileSurfRdf.length).foldl
    (fun num i => if (LevelMap.atLevel f.levelFileSurfRdf i).keys ≠ [] then i + 1 else num) 0

def getMemoryUsageAtIthLevel (memoryBits : SuRF K → ℕ) (f : SuRFRDF K) (level : ℕ) :
    Except (Stop Assertion) ℕ := do
  check (level < f.levelFileSurfRdf.length) .levelExists
  check ((LevelMap.atLevel f.levelFileSurfRdf level).keys ≠ []) .levelHasFiles
  return ((LevelMap.atLevel f.levelFileSurfRdf level).entries.map fun e => memoryBits e.2).sum

def getNumberOfTotalMemoryUsage (memoryBits : SuRF K → ℕ) (f : SuRFRDF K) :
    Except (Stop Assertion) ℕ := do
  let num ← (List.range f.getNumberOfTotalLevels).foldlM
    (fun num i => do return num + (← f.getMemoryUsageAtIthLevel memoryBits i)) 0
  return num / 8

theorem keys_ne_nil_iff {m : AList (fun _ : ℕ => SuRF K)} : m.keys ≠ [] ↔ ∃ fd, fd ∈ m := by
  rw [ne_eq, List.eq_nil_iff_forall_not_mem, not_forall]
  simp only [not_not]
  rfl

theorem lt_length_of_mem {f : SuRFRDF K} {level fd : ℕ}
    (h : fd ∈ LevelMap.atLevel f.levelFileSurfRdf level) : level < f.levelFileSurfRdf.length := by
  by_contra hlen
  rw [LevelMap.atLevel, List.getD_eq_getElem?_getD, List.getElem?_eq_none (not_lt.mp hlen)] at h
  exact AList.notMem_empty fd h

theorem lt_getNumberOfTotalLevels_iff (f : SuRFRDF K) (i : ℕ) :
    i < f.getNumberOfTotalLevels ↔
      ∃ level, i ≤ level ∧ ∃ fd, fd ∈ LevelMap.atLevel f.levelFileSurfRdf level := by
  rw [getNumberOfTotalLevels, LevelMap.lt_foldl_range_iff]
  simp only [keys_ne_nil_iff]
  constructor
  · rintro ⟨level, hi, _, hfd⟩
    exact ⟨level, hi, hfd⟩
  · rintro ⟨level, hi, fd, hfd⟩
    exact ⟨level, hi, lt_length_of_mem hfd, fd, hfd⟩

def Filled (files : ℕ → ℕ → Prop) : Prop :=
  ∀ level fd, files level fd → ∀ i < level, ∃ fd', files i fd'

/-- The assertion that the level exists never fails, since only levels below the number of levels
are asked for. The other one fails at a level without files. -/
theorem violates_getNumberOfTotalMemoryUsage (memoryBits : SuRF K → ℕ) (f : SuRFRDF K) :
    Violates (f.getNumberOfTotalMemoryUsage memoryBits) ↔
      ¬ Filled fun level fd => fd ∈ LevelMap.atLevel f.levelFileSurfRdf level := by
  have hlen : ∀ i ∈ List.range f.getNumberOfTotalLevels, i < f.levelFileSurfRdf.length := by
    intro i hi
    obtain ⟨level, hle, fd, hfd⟩ := (f.lt_getNumberOfTotalLevels_iff i).mp (List.mem_range.mp hi)
    exact hle.trans_lt (lt_length_of_mem hfd)
  have hbad : ∀ num : ℕ, ∀ i ∈ List.range f.getNumberOfTotalLevels,
      (LevelMap.atLevel f.levelFileSurfRdf i).keys = [] →
        Violates (do return num + (← f.getMemoryUsageAtIthLevel memoryBits i)) := by
    intro num i hi hkeys
    refine ⟨.levelHasFiles, ?_⟩
    simp [getMemoryUsageAtIthLevel, check, hlen i hi, hkeys, bind, Except.bind]
  have hok : ∀ num : ℕ, ∀ i ∈ List.range f.getNumberOfTotalLevels,
      ¬ (LevelMap.atLevel f.levelFileSurfRdf i).keys = [] →
        ∃ num', (do return num + (← f.getMemoryUsageAtIthLevel memoryBits i)) = .ok num' := by
    intro num i hi hkeys
    simp [getMemoryUsageAtIthLevel, check, hlen i hi, hkeys, bind, Except.bind, pure, Except.pure]
  have hloop := violates_foldlM _ _ hbad hok 0
  have hreturn : ∀ num : ℕ, ¬ Violates (pure (num / 8) : Except (Stop Assertion) ℕ) :=
    fun num => not_violates_ok (num / 8)
  rw [getNumberOfTotalMemoryUsage, violates_bind, hloop]
  simp only [hreturn, and_false, exists_false, or_false, List.mem_range,
    lt_getNumberOfTotalLevels_iff, Filled, not_forall]
  constructor
  · rintro ⟨i, ⟨level, hle, fd, hfd⟩, hkeys⟩
    have hnone : ¬ ∃ fd', fd' ∈ LevelMap.atLevel f.levelFileSurfRdf i :=
      fun hmem => keys_ne_nil_iff.mpr hmem hkeys
    have hne : i ≠ level := fun heq => hnone ⟨fd, heq ▸ hfd⟩
    exact ⟨level, fd, hfd, i, lt_of_le_of_ne hle hne, hnone⟩
  · rintro ⟨level, fd, hfd, i, hlt, hnone⟩
    refine ⟨i, ⟨level, hlt.le, fd, hfd⟩, ?_⟩
    by_contra hkeys
    exact hnone (keys_ne_nil_iff.mp hkeys)

end SuRFRDF

/-- The enabled filters, and what the memory log of the per-file filter holds. -/
structure EnabledFilters (K : Type) where
  plrdfStringkey : PLRDF K
  surfLevelFileRdf : Option (SuRFRDF K)
  memoryUsageInRdfLog : List ℕ

variable [LinearOrder K]

namespace PLRDF

def addRangeDeleteInternalAsserting (f : PLRDF K) (level : ℕ) (ranges : List (K × K)) :
    Except (Stop Assertion) (PLRDF K) := do
  check (level ≤ f.rdFilter.length) .rdFilterSize
  Stop.orExit (f.addRangeDeleteInternal level ranges)

def shiftRDFToOutputLevelAsserting (f : PLRDF K) (entries : List (LevelFiles K))
    (outRanges : List (K × K)) : Except (Stop Assertion) (PLRDF K) :=
  match entries with
  | [] => .ok f
  | e :: es => do
    let g ← Stop.orExit ((e :: es).foldlM shiftSource f)
    if outRanges = [] then return g else g.addRangeDeleteInternalAsserting e.olevel outRanges

end PLRDF

namespace SuRFRDF

def shiftRDFToOutputLevelAsserting (env : SuRFEnv K) (dstLevel : ℕ) (f : SuRFRDF K)
    (rdMerged : List (K × K)) (dstFdList : List ℕ) (fileBoundaryList : List (K × K)) :
    Except (Stop Assertion) (SuRFRDF K) := do
  check (0 < rdMerged.length) .tombstonesToShift
  check (dstFdList.length = fileBoundaryList.length) .boundaryForEachFile
  return f.shiftRDFToOutputLevel env dstLevel rdMerged (dstFdList.zip fileBoundaryList)

def applyCompactionAsserting (env : SuRFEnv K) (f : Option (SuRFRDF K))
    (info : Option (SuRFCompactionMovingRDInfo K)) : Except (Stop Assertion) (Option (SuRFRDF K)) :=
  match info with
  | none => .ok f
  | some info =>
    let condensed := fun r : K × K => (env.condense r.1, env.condense r.2)
    if info.flagDirectMoveToDstLevel then
      .ok (some (info.sources.foldl
        (fun f src => src.2.foldl (fun f fd => f.directMoveFileToLevel fd src.1 info.dstLevel) f)
        (f.getD empty)))
    else
      let removed := (f.getD empty).removeSuRF info.sources
      let rangeTombstoneMerged := coalesceAll (sortPairs (info.inputTombstones.map condensed))
      if rangeTombstoneMerged = [] then .ok (some removed)
      else some <$> removed.shiftRDFToOutputLevelAsserting env info.dstLevel rangeTombstoneMerged
        (info.dstLevelInfoList.map fun dst => dst.fd)
        (info.dstLevelInfoList.map fun dst => condensed dst.fileBoundary)

/-- The two lists handed over have one element for each output file, and the call is made only
with tombstones, so its assertions hold. -/
theorem applyCompactionAsserting_eq (env : SuRFEnv K) (f : Option (SuRFRDF K))
    (info : Option (SuRFCompactionMovingRDInfo K)) :
    applyCompactionAsserting env f info = .ok (applyCompaction env f info) := by
  cases info with
  | none => rfl
  | some info =>
    simp only [applyCompactionAsserting, applyCompaction]
    split_ifs with hmove hempty
    · rfl
    · rfl
    · have hlen := List.length_pos_of_ne_nil hempty
      have hzip : (info.dstLevelInfoList.map fun dst => dst.fd).zip
          (info.dstLevelInfoList.map fun dst =>
            (env.condense dst.fileBoundary.1, env.condense dst.fileBoundary.2)) =
          info.destinations.map fun dst =>
            (dst.1, (env.condense dst.2.1, env.condense dst.2.2)) := by
        rw [List.zip_map', MovingRDInfo.destinations, List.map_map]
        rfl
      simp only [shiftRDFToOutputLevelAsserting, check, hlen, List.length_map, if_true, hzip]
      rfl

end SuRFRDF

namespace EnabledFilters

def empty : EnabledFilters K := ⟨PLRDF.empty, none, []⟩

def updateStringkey (f : PLRDF K) (d : SuRFMetadata K) : Except (Stop Assertion) (PLRDF K) :=
  match d.type with
  | .kFlush => Stop.orExit (f.applyFlush d.plrdfStringkeyFlushDelta)
  | .kCompaction | .kCompactionDirectMoved =>
    f.shiftRDFToOutputLevelAsserting d.plrdfStringkeyCompactionDelta d.rangetombstonesOnOutputLevel
  | .kCompactionDirectRemoved =>
    Stop.orExit (d.plrdfStringkeyCompactionDelta.foldlM
      PLRDF.deleteRDFAssociatedWithFilesAtCurrentLevel f)

def updateSurf (env : SuRFEnv K) (f : Option (SuRFRDF K)) (d : SuRFMetadata K) :
    Except (Stop Assertion) (Option (SuRFRDF K)) :=
  match d.type with
  | .kFlush => .ok (SuRFRDF.applyFlush env f d.surfFlushInfo)
  | .kCompaction | .kCompactionDirectMoved =>
    SuRFRDF.applyCompactionAsserting env f d.surfCompactionInfo
  | .kCompactionDirectRemoved => .ok (SuRFRDF.applyDirectRemoval f d.surfDirectRemovalInfo)

def logCurrentTotalMemoryUsage (memoryBits : SuRF K → ℕ) (f : Option (SuRFRDF K))
    (log : List ℕ) : Except (Stop Assertion) (List ℕ) :=
  match f with
  | none => .ok log
  | some f => do return log ++ [← f.getNumberOfTotalMemoryUsage memoryBits]

def applyDelta (env : SuRFEnv K) (memoryBits : SuRF K → ℕ) (s : EnabledFilters K)
    (d : SuRFMetadata K) : Except (Stop Assertion) (EnabledFilters K) := do
  let plrdfStringkey ← updateStringkey s.plrdfStringkey d
  let surfLevelFileRdf ← updateSurf env s.surfLevelFileRdf d
  let log ← logCurrentTotalMemoryUsage memoryBits surfLevelFileRdf s.memoryUsageInRdfLog
  return ⟨plrdfStringkey, surfLevelFileRdf, log⟩

end EnabledFilters

namespace SuRFRDF

end SuRFRDF

namespace PLRDF

variable {f g : PLRDF K}

theorem foldlM_shiftSource_of_rdFilter_nil (hf : f.rdFilter = []) (entries : List (LevelFiles K)) :
    ∃ g, entries.foldlM shiftSource f = some g ∧ g.rdFilter = [] := by
  induction entries generalizing f with
  | nil => exact ⟨f, rfl, hf⟩
  | cons e es ih =>
    have hstep : ∃ mid, f.shiftSource e = some mid ∧ mid.rdFilter = [] := by
      unfold shiftSource
      split_ifs
      · exact ⟨_, rfl, hf⟩
      · refine ⟨f, ?_, hf⟩
        rw [removeRangeDeletesAndSplitKeyFromLevel, if_pos (Or.inl (by simp [hf]))]
    obtain ⟨mid, hmid, hmidf⟩ := hstep
    rw [List.foldlM_cons, hmid]
    exact ih hmidf

theorem rdFilter_foldlM_deleteRDF (hf : f.rdFilter = []) {entries : List (LevelFiles K)}
    (h : entries.foldlM deleteRDFAssociatedWithFilesAtCurrentLevel f = some g) :
    g.rdFilter = [] := by
  induction entries generalizing f with
  | nil =>
    obtain rfl := Option.some.inj h
    exact hf
  | cons e es ih =>
    obtain ⟨mid, hmid, hrest⟩ := Option.bind_eq_some_iff.mp h
    refine ih ?_ hrest
    rw [deleteRDFAssociatedWithFilesAtCurrentLevel] at hmid
    split_ifs at hmid with hzero hlen
    · obtain ⟨m, _, rfl⟩ := Option.map_eq_some_iff.mp hmid
      exact hf
    · exact Option.some.inj hmid ▸ hf
    · exact absurd (by simp [hf]) hlen

theorem rdFilter_applyFlush {d : FlushDelta K} (h : f.applyFlush d = some g) :
    g.rdFilter = f.rdFilter := by
  unfold applyFlush insertRangeDeleteToLevel0 at h
  split_ifs at h
  · exact Option.some.inj h ▸ rfl
  · exact Option.some.inj h ▸ rfl

theorem shiftRDFToOutputLevel_of_asserting {entries : List (LevelFiles K)} {out : List (K × K)}
    (h : f.shiftRDFToOutputLevelAsserting entries out = .ok g) :
    f.shiftRDFToOutputLevel entries out = some g := by
  cases entries with
  | nil =>
    cases h
    rfl
  | cons e es =>
    obtain ⟨mid, hmid, hrest⟩ := bind_eq_ok.mp h
    refine Option.bind_eq_some_iff.mpr ⟨mid, orExit_eq_ok.mp hmid, ?_⟩
    split_ifs at hrest ⊢
    · cases hrest
      rfl
    · obtain ⟨_, _, hadd⟩ := bind_eq_ok.mp hrest
      exact orExit_eq_ok.mp hadd

theorem violates_shiftRDFToOutputLevelAsserting (hf : f.rdFilter = [])
    {entries : List (LevelFiles K)} (hentries : ∀ e ∈ entries.head?, 0 < e.olevel)
    (out : List (K × K)) :
    (Violates (f.shiftRDFToOutputLevelAsserting entries out) ↔ entries ≠ [] ∧ out ≠ []) ∧
      ∀ g, f.shiftRDFToOutputLevelAsserting entries out = .ok g → g.rdFilter = [] := by
  cases entries with
  | nil =>
    refine ⟨iff_of_false (not_violates_ok f) fun h => h.1 rfl, ?_⟩
    intro g h
    cases h
    exact hf
  | cons e es =>
    obtain ⟨mid, hmid, hmidf⟩ := foldlM_shiftSource_of_rdFilter_nil hf (e :: es)
    have hpos : ¬ e.olevel ≤ mid.rdFilter.length := by
      rw [hmidf]
      exact not_le.mpr (hentries e rfl)
    by_cases hempty : out = []
    · have hreturn : f.shiftRDFToOutputLevelAsserting (e :: es) out = .ok mid := by
        simp only [shiftRDFToOutputLevelAsserting, hmid, if_pos hempty]
        rfl
      rw [hreturn]
      refine ⟨iff_of_false (not_violates_ok mid) fun h => h.2 hempty, ?_⟩
      intro g h
      cases h
      exact hmidf
    · have hfail : f.shiftRDFToOutputLevelAsserting (e :: es) out =
          .error (.failed .rdFilterSize) := by
        simp only [shiftRDFToOutputLevelAsserting, hmid, if_neg hempty, Stop.orExit, bind,
          Except.bind, addRangeDeleteInternalAsserting, check, if_neg hpos]
      rw [hfail]
      refine ⟨iff_of_true ⟨_, rfl⟩ ⟨List.cons_ne_nil e es, hempty⟩, ?_⟩
      intro g h
      cases h

end PLRDF

namespace EnabledFilters

variable {env : SuRFEnv K} {memoryBits : SuRF K → ℕ} {s s' : EnabledFilters K}
  {d : SuRFMetadata K} {deltas : List (SuRFMetadata K)}

/-- Compactions go to a deeper level: the output level is not level 0, and a file is not moved
to the level it is on. -/
structure DeeperOutput (d : SuRFMetadata K) : Prop where
  stringkey : d.IsCompaction → ∀ e ∈ d.plrdfStringkeyCompactionDelta.head?, 0 < e.olevel
  surf : ∀ info ∈ d.surfCompactionInfo, info.flagDirectMoveToDstLevel = true →
    ∀ src ∈ info.sources, src.1 < info.dstLevel

/-- A compaction has no output ranges for the string-key filter, and unless that filter exits no
level above a level with tries is left without one. -/
def Quiet (env : SuRFEnv K) (s : EnabledFilters K) (d : SuRFMetadata K) : Prop :=
  (d.IsCompaction → d.plrdfStringkeyCompactionDelta = [] ∨ d.rangetombstonesOnOutputLevel = []) ∧
    (updateStringkey s.plrdfStringkey d ≠ .error .exited →
      SuRFRDF.Filled (SuRFRDF.HoldsAfter env s.surfLevelFileRdf d))

theorem updateSurf_eq (env : SuRFEnv K) (f : Option (SuRFRDF K)) (d : SuRFMetadata K) :
    updateSurf env f d = .ok (SuRFRDF.applyDelta env f d) := by
  unfold updateSurf SuRFRDF.applyDelta
  cases d.type with
  | kFlush => rfl
  | kCompaction => exact SuRFRDF.applyCompactionAsserting_eq env f _
  | kCompactionDirectRemoved => rfl
  | kCompactionDirectMoved => exact SuRFRDF.applyCompactionAsserting_eq env f _

theorem violates_updateStringkey {f : PLRDF K} (hf : f.rdFilter = []) (hd : DeeperOutput d) :
    (Violates (updateStringkey f d) ↔ d.IsCompaction ∧ d.plrdfStringkeyCompactionDelta ≠ [] ∧
        d.rangetombstonesOnOutputLevel ≠ []) ∧
      ∀ g, updateStringkey f d = .ok g → g.rdFilter = [] := by
  have hcompaction : d.IsCompaction →
      (Violates (f.shiftRDFToOutputLevelAsserting d.plrdfStringkeyCompactionDelta
          d.rangetombstonesOnOutputLevel) ↔ d.IsCompaction ∧
            d.plrdfStringkeyCompactionDelta ≠ [] ∧ d.rangetombstonesOnOutputLevel ≠ []) ∧
        ∀ g, f.shiftRDFToOutputLevelAsserting d.plrdfStringkeyCompactionDelta
          d.rangetombstonesOnOutputLevel = .ok g → g.rdFilter = [] := by
    intro htype
    obtain ⟨hiff, hok⟩ :=
      PLRDF.violates_shiftRDFToOutputLevelAsserting hf (hd.stringkey htype) _
    exact ⟨hiff.trans (and_iff_right htype).symm, hok⟩
  have hother : ¬ d.IsCompaction → ∀ {x : Option (PLRDF K)}, (∀ g ∈ x, g.rdFilter = []) →
      (Violates (Stop.orExit x : Except (Stop Assertion) (PLRDF K)) ↔ d.IsCompaction ∧
          d.plrdfStringkeyCompactionDelta ≠ [] ∧ d.rangetombstonesOnOutputLevel ≠ []) ∧
        ∀ g, (Stop.orExit x : Except (Stop Assertion) (PLRDF K)) = .ok g → g.rdFilter = [] := by
    intro htype x hx
    refine ⟨iff_of_false (not_violates_orExit x) fun h => htype h.1, ?_⟩
    intro g hg
    exact hx g (orExit_eq_ok.mp hg)
  unfold updateStringkey
  cases htype : d.type with
  | kFlush =>
    refine hother (by simp [RDFUpdateMetadata.IsCompaction, htype]) ?_
    intro g hg
    rw [PLRDF.rdFilter_applyFlush hg, hf]
  | kCompaction => exact hcompaction (Or.inl htype)
  | kCompactionDirectRemoved =>
    refine hother (by simp [RDFUpdateMetadata.IsCompaction, htype]) ?_
    intro g hg
    exact PLRDF.rdFilter_foldlM_deleteRDF hf hg
  | kCompactionDirectMoved => exact hcompaction (Or.inr htype)

omit [LinearOrder K] in
theorem violates_logCurrentTotalMemoryUsage (f : Option (SuRFRDF K)) (log : List ℕ) :
    Violates (logCurrentTotalMemoryUsage memoryBits f log) ↔
      ¬ SuRFRDF.Filled (SuRFRDF.Holds f) := by
  cases f with
  | none =>
    refine iff_of_false (not_violates_ok log) (not_not_intro ?_)
    intro level fd hfd
    exact absurd hfd (AList.notMem_empty fd)
  | some f =>
    rw [logCurrentTotalMemoryUsage, violates_bind,
      SuRFRDF.violates_getNumberOfTotalMemoryUsage]
    refine or_iff_left ?_
    rintro ⟨num, _, hreturn⟩
    exact not_violates_ok _ hreturn

theorem violates_applyDelta_iff (hs : s.plrdfStringkey.rdFilter = []) (hd : DeeperOutput d) :
    Violates (applyDelta env memoryBits s d) ↔ ¬ Quiet env s d := by
  have hlog : ∀ log, Violates (logCurrentTotalMemoryUsage memoryBits
      (SuRFRDF.applyDelta env s.surfLevelFileRdf d) log) ↔
      ¬ SuRFRDF.Filled (SuRFRDF.HoldsAfter env s.surfLevelFileRdf d) := by
    intro log
    rw [violates_logCurrentTotalMemoryUsage]
    simp only [SuRFRDF.Filled, SuRFRDF.holds_applyDelta env s.surfLevelFileRdf hd.surf]
  have hrest : ∀ plrdfStringkey, Violates (do
      let surfLevelFileRdf ← updateSurf env s.surfLevelFileRdf d
      let log ← logCurrentTotalMemoryUsage memoryBits surfLevelFileRdf s.memoryUsageInRdfLog
      return (⟨plrdfStringkey, surfLevelFileRdf, log⟩ : EnabledFilters K)) ↔
      ¬ SuRFRDF.Filled (SuRFRDF.HoldsAfter env s.surfLevelFileRdf d) := by
    intro plrdfStringkey
    rw [updateSurf_eq, violates_bind, or_iff_right (not_violates_ok _)]
    simp only [Except.ok.injEq, exists_eq_left', violates_bind, hlog]
    refine or_iff_left ?_
    rintro ⟨_, _, hreturn⟩
    exact not_violates_ok _ hreturn
  have hfirst := (violates_updateStringkey hs hd).1
  rw [applyDelta, violates_bind]
  simp only [hrest]
  cases hupdate : updateStringkey s.plrdfStringkey d with
  | error stop =>
    rw [hupdate] at hfirst
    cases stop with
    | exited =>
      have hno : ¬ Violates (.error .exited : Except (Stop Assertion) (PLRDF K)) := by
        rintro ⟨_, h⟩
        cases h
      refine iff_of_false ?_ (not_not_intro ⟨?_, fun h => absurd hupdate h⟩)
      · rintro (h | ⟨_, h, _⟩)
        · exact hno h
        · cases h
      · intro htype
        by_contra hnot
        exact hno (hfirst.mpr ⟨htype, not_or.mp hnot⟩)
    | failed assertion =>
      obtain ⟨htype, hentries, hout⟩ := hfirst.mp ⟨assertion, rfl⟩
      refine iff_of_true (Or.inl ⟨assertion, rfl⟩) ?_
      rintro ⟨hquiet, _⟩
      exact (hquiet htype).elim hentries hout
  | ok g =>
    rw [hupdate] at hfirst
    have hquiet : d.IsCompaction → d.plrdfStringkeyCompactionDelta = [] ∨
        d.rangetombstonesOnOutputLevel = [] := by
      intro htype
      by_contra hnot
      exact not_violates_ok g (hfirst.mpr ⟨htype, not_or.mp hnot⟩)
    rw [or_iff_right (not_violates_ok g), Quiet, hupdate]
    simp only [Except.ok.injEq, exists_eq_left', not_and, ne_eq, reduceCtorEq,
      not_false_eq_true, true_imp_iff]
    exact ⟨fun h _ => h, fun h => h hquiet⟩

theorem applyDelta_eq_ok (h : applyDelta env memoryBits s d = .ok s') :
    updateStringkey s.plrdfStringkey d = .ok s'.plrdfStringkey ∧
      updateSurf env s.surfLevelFileRdf d = .ok s'.surfLevelFileRdf := by
  obtain ⟨g, hg, h⟩ := bind_eq_ok.mp h
  obtain ⟨surf, hsurf, h⟩ := bind_eq_ok.mp h
  obtain ⟨log, _, h⟩ := bind_eq_ok.mp h
  cases h
  exact ⟨hg, hsurf⟩

/-- A debug build that passes its assertions has done to the two filters what the bundle does. -/
theorem applyDelta_eq_bundle {stoll : K → Option ℤ} {b b' : SuRFBundle K}
    (hplrdf : b.bundle.plrdfStringkey = s.plrdfStringkey)
    (hsurf : b.surfLevelFileRdf = s.surfLevelFileRdf)
    (h : applyDelta env memoryBits s d = .ok s') (hb : b.applyDelta env stoll d = some b') :
    b'.bundle.plrdfStringkey = s'.plrdfStringkey ∧
      b'.surfLevelFileRdf = s'.surfLevelFileRdf := by
  obtain ⟨hfilter, htries⟩ := applyDelta_eq_ok h
  obtain ⟨bundle, hbundle, rfl⟩ := Option.map_eq_some_iff.mp hb
  rw [← hplrdf] at hfilter
  rw [← hsurf] at htries
  have hcompaction : b.bundle.applyCompactionDelta stoll d.toRDFUpdateMetadata = some bundle →
      b.bundle.plrdfStringkey.shiftRDFToOutputLevelAsserting d.plrdfStringkeyCompactionDelta
        d.rangetombstonesOnOutputLevel = .ok s'.plrdfStringkey →
      bundle.plrdfStringkey = s'.plrdfStringkey := by
    intro hrelease hdebug
    have hshift := (VersionRDFBundle.compactionParts hrelease).plrdfStringkey
    exact Option.some.inj (hshift.symm.trans (PLRDF.shiftRDFToOutputLevel_of_asserting hdebug))
  rw [updateSurf_eq] at htries
  refine ⟨?_, Except.ok.inj htries⟩
  unfold VersionRDFBundle.applyDelta at hbundle
  unfold updateStringkey at hfilter
  cases htype : d.type with
  | kFlush =>
    rw [htype] at hbundle hfilter
    have hflush := (VersionRDFBundle.flushParts hbundle).plrdfStringkey
    exact Option.some.inj (hflush.symm.trans (orExit_eq_ok.mp hfilter))
  | kCompaction =>
    rw [htype] at hbundle hfilter
    exact hcompaction hbundle hfilter
  | kCompactionDirectRemoved =>
    rw [htype] at hbundle hfilter
    have hremoval := (VersionRDFBundle.removalParts hbundle).plrdfStringkey
    exact Option.some.inj (hremoval.symm.trans (orExit_eq_ok.mp hfilter))
  | kCompactionDirectMoved =>
    rw [htype] at hbundle hfilter
    exact hcompaction hbundle hfilter

theorem rdFilter_run (hdeltas : ∀ d ∈ deltas, DeeperOutput d)
    (hs : s.plrdfStringkey.rdFilter = [])
    (h : deltas.foldlM (applyDelta env memoryBits) s = .ok s') :
    s'.plrdfStringkey.rdFilter = [] := by
  induction deltas generalizing s with
  | nil =>
    cases h
    exact hs
  | cons d deltas ih =>
    obtain ⟨mid, hmid, hrest⟩ := bind_eq_ok.mp h
    have hd := hdeltas d List.mem_cons_self
    exact ih (fun d' hd' => hdeltas d' (List.mem_cons_of_mem d hd'))
      ((violates_updateStringkey hs hd).2 _ (applyDelta_eq_ok hmid).1) hrest

/-- In a debug build no assertion fails on a run of deltas exactly if every compaction of the run
has no output ranges for the string-key filter and every delta leaves the tries on consecutive
levels from level 0 on. -/
theorem applyDelta_violates_none_iff (hdeltas : ∀ d ∈ deltas, DeeperOutput d) :
    ¬ Violates (deltas.foldlM (applyDelta env memoryBits) empty) ↔
      ∀ before d s, before ++ [d] <+: deltas →
        before.foldlM (applyDelta env memoryBits) empty = .ok s → Quiet env s d := by
  have hstep : ∀ before d s, before ++ [d] <+: deltas →
      before.foldlM (applyDelta env memoryBits) empty = .ok s →
      (Violates (applyDelta env memoryBits s d) ↔ ¬ Quiet env s d) := by
    intro before d s hinit hs
    have hsub : ∀ x ∈ before ++ [d], DeeperOutput x := fun x hx => hdeltas x (hinit.subset hx)
    have hempty := rdFilter_run (fun x hx => hsub x (List.mem_append_left _ hx)) rfl hs
    exact violates_applyDelta_iff hempty (hsub d (by simp))
  rw [violates_run_iff]
  constructor
  · intro hnone before d s hinit hs
    by_contra hquiet
    exact hnone ⟨before, d, s, hinit, hs, (hstep before d s hinit hs).mpr hquiet⟩
  · rintro hall ⟨before, d, s, hinit, hs, hviolates⟩
    exact (hstep before d s hinit hs).mp hviolates (hall before d s hinit hs)

open SuRFBundle in
theorem applyDelta_violates_none_sample :
    DeeperOutput sampleSuRFFlush ∧
      ¬ Violates ([sampleSuRFFlush].foldlM
        (applyDelta ⟨false, false, id, id⟩ List.length) empty) := by
  have hdeeper : DeeperOutput sampleSuRFFlush := ⟨by decide, fun _ hinfo => (by cases hinfo)⟩
  refine ⟨hdeeper, (applyDelta_violates_none_iff ?_).mpr ?_⟩
  · intro d hd
    exact List.mem_singleton.mp hd ▸ hdeeper
  · intro before d s hinit hs
    obtain rfl : before = [] := by
      have hlen := hinit.length_le
      simpa using hlen
    cases hs
    obtain rfl : d = sampleSuRFFlush := by simpa using hinit
    refine ⟨by decide, fun _ level fd hfd i hi => ?_⟩
    rcases hfd with hfd | ⟨rfl, _⟩
    · exact absurd hfd (AList.notMem_empty fd)
    · cases hi

open SuRFBundle in
/-- A flushed file is compacted from level 0 to level 1: the filter has no level yet, so that
its size is less than the output level. -/
theorem first_compaction_violates_assertion :
    (∀ d ∈ [sampleSuRFFlush, sampleSuRFCompaction], DeeperOutput d) ∧
      [sampleSuRFFlush, sampleSuRFCompaction].foldlM
        (applyDelta ⟨false, false, id, id⟩ List.length) empty =
        .error (.failed .rdFilterSize) := by
  refine ⟨?_, rfl⟩
  intro d hd
  rcases List.mem_pair.mp hd with rfl | rfl
  · exact ⟨by decide, fun _ hinfo => (by cases hinfo)⟩
  · refine ⟨by decide, fun info hinfo hmove => ?_⟩
    cases hinfo
    cases hmove

end EnabledFilters

end Spry
