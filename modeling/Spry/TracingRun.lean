import Spry.Tracing

/-!
# Tracing over a run of deltas

As long as the files of a level have disjoint boundaries and every delta lists a file with the
boundary it was created with, the ranges traced for the files of a level cover what the filter
covers on that level.
-/

namespace Spry

open HalfOpen

variable {K : Type} [LinearOrder K]

/-- The filters of a version together with the tracing of the string-key filter. -/
structure TracedBundle (K : Type) where
  bundle : VersionRDFBundle K
  tracing : Tracing K

namespace TracedBundle

def empty : TracedBundle K := ⟨VersionRDFBundle.empty, Tracing.empty⟩

def applyDelta (stoll : K → Option ℤ) (s : TracedBundle K) (d : TracingMetadata K) :
    Option (TracedBundle K) :=
  (s.bundle.applyDelta stoll d.toRDFUpdateMetadata).map fun bundle =>
    ⟨bundle, s.tracing.applyDelta d⟩

end TracedBundle

namespace TracingMetadata

def MovesFiles (d : TracingMetadata K) : Prop :=
  d.IsCompaction ∧ d.plrdfStringkeyCompactionDelta ≠ []

def outputsAt (d : TracingMetadata K) (level : ℕ) : Set ℕ :=
  {fd | d.MovesFiles ∧ ∃ info, d.fdRangetombstonesInfo = some info ∧ info.dstLevel = level ∧
    fd ∈ info.dstLevelInfoList.map (fun dst => dst.fd)}

def filesAfter (live : ℕ → Set ℕ) (d : TracingMetadata K) (level : ℕ) : Set ℕ :=
  (live level \ d.inputsAt level) ∪ d.outputsAt level

/-- What a compaction hands over with the listed source levels: the same input files, an output
level below level 0, and output files with their boundaries that are new to the level. -/
structure KeepsOutputs (boundary : ℕ → K × K) (live : ℕ → Set ℕ) (d : TracingMetadata K)
    (info : MovingRDInfo K) : Prop where
  sources : ∀ level ≠ 0, ∀ fd,
    (∃ src ∈ info.sources, src.1 = level ∧ fd ∈ src.2) ↔ fd ∈ d.inputsAt level
  olevel : d.plrdfStringkeyCompactionDelta.head?.map LevelFiles.olevel = some info.dstLevel
  positive : 1 ≤ info.dstLevel
  boundaries : ∀ dst ∈ info.dstLevelInfoList, dst.fileBoundary = boundary dst.fd
  nodup : (info.dstLevelInfoList.map (fun dst => dst.fd)).Nodup
  new : ∀ dst ∈ info.dstLevelInfoList, dst.fd ∉ live info.dstLevel \ d.inputsAt info.dstLevel

/-- The delta lists files of the levels with the boundaries they were created with, tracing is
told about the same files, and the files of a level stay disjoint. -/
structure KeepsFiles (boundary : ℕ → K × K) (live : ℕ → Set ℕ) (d : TracingMetadata K) :
    Prop where
  proper : d.ProperRanges d.plrdfStringkeyCompactionDelta
  flushed : d.type = .kFlush → ∀ add ∈ d.plrdfStringkeyTracingAdd, add.1 = 0
  listed : d.type ≠ .kFlush → ∀ e ∈ d.plrdfStringkeyCompactionDelta, e.clevel ≠ 0 →
    e.boundaries = e.files.map boundary ∧ ∀ fd ∈ e.files, fd ∈ live e.clevel
  removed : d.type = .kCompactionDirectRemoved → ∀ level ≠ 0, ∀ fd,
    (level, fd) ∈ d.plrdfStringkeyTracingRemove ↔ fd ∈ d.inputsAt level
  outputs : d.MovesFiles →
    ∃ info, d.fdRangetombstonesInfo = some info ∧ KeepsOutputs boundary live d info
  disjoint : ∀ level ≠ 0, (d.filesAfter live level).PairwiseDisjoint
    fun fd => Set.Ico (boundary fd).1 (boundary fd).2

def RunKeepsFiles (boundary : ℕ → K × K) : (ℕ → Set ℕ) → List (TracingMetadata K) → Prop
  | _, [] => True
  | live, d :: ds => KeepsFiles boundary live d ∧ RunKeepsFiles boundary (d.filesAfter live) ds

variable {boundary : ℕ → K × K} {live : ℕ → Set ℕ} {d : TracingMetadata K}

theorem KeepsFiles.inputsAt_subset (h : KeepsFiles boundary live d) {level : ℕ}
    (hlevel : level ≠ 0) : d.inputsAt level ⊆ live level := by
  rintro fd ⟨htype, e, he, rfl, hfd⟩
  exact (h.listed htype e he hlevel).2 fd hfd

end TracingMetadata

namespace Tracing

open TracingMetadata

def levelCoverage (t : Tracing K) (level : ℕ) : Set K :=
  {k | ∃ fd ranges, t.rangesOf level fd = some ranges ∧ k ∈ coverage ranges}

variable {boundary : ℕ → K × K} {live : ℕ → Set ℕ} {t u : Tracing K} {level : ℕ}

/-- The traced files of a level are among the given ones, with ranges inside of their boundary. -/
def Within (boundary : ℕ → K × K) (files : Set ℕ) (t : Tracing K) (level : ℕ) : Prop :=
  ∀ fd ranges, t.rangesOf level fd = some ranges →
    fd ∈ files ∧ coverage ranges ⊆ Set.Ico (boundary fd).1 (boundary fd).2

theorem Within.congr {files : Set ℕ} (h : Within boundary files t level)
    (hu : ∀ fd, u.rangesOf level fd = t.rangesOf level fd) : Within boundary files u level :=
  fun fd ranges hranges => h fd ranges (hu fd ▸ hranges)

theorem levelCoverage_congr (hu : ∀ fd, u.rangesOf level fd = t.rangesOf level fd) :
    u.levelCoverage level = t.levelCoverage level := by
  simp only [levelCoverage, hu]

theorem Within.levelCoverage_of_taken {files taken : Set ℕ} (h : Within boundary files t level)
    (hdisjoint : files.PairwiseDisjoint fun fd => Set.Ico (boundary fd).1 (boundary fd).2)
    (hsubset : taken ⊆ files)
    (hu : ∀ fd ranges, u.rangesOf level fd = some ranges ↔
      fd ∉ taken ∧ t.rangesOf level fd = some ranges) :
    Within boundary (files \ taken) u level ∧
      u.levelCoverage level = t.levelCoverage level \ RDFUpdateMetadata.inside boundary taken := by
  constructor
  · intro fd ranges hranges
    obtain ⟨hnot, hranges⟩ := (hu fd ranges).mp hranges
    obtain ⟨hfiles, hsub⟩ := h fd ranges hranges
    exact ⟨⟨hfiles, hnot⟩, hsub⟩
  · ext k
    constructor
    · rintro ⟨fd, ranges, hranges, hk⟩
      obtain ⟨hnot, hranges⟩ := (hu fd ranges).mp hranges
      obtain ⟨hfiles, hsub⟩ := h fd ranges hranges
      refine ⟨⟨fd, ranges, hranges, hk⟩, ?_⟩
      rintro ⟨n, hn, hkn⟩
      have hne : fd ≠ n := fun heq => hnot (heq ▸ hn)
      exact Set.disjoint_left.mp (hdisjoint hfiles (hsubset hn) hne) (hsub hk) hkn
    · rintro ⟨⟨fd, ranges, hranges, hk⟩, hnot⟩
      refine ⟨fd, ranges, (hu fd ranges).mpr ⟨fun htaken => hnot ⟨fd, htaken, ?_⟩, hranges⟩, hk⟩
      exact (h fd ranges hranges).2 hk

theorem Within.levelCoverage_of_added {files added : Set ℕ} (h : Within boundary files t level)
    {pieces : List (ℕ × List (K × K))}
    (hpieces : ∀ fd ranges, (fd, ranges) ∈ pieces →
      fd ∈ added ∧ coverage ranges ⊆ Set.Ico (boundary fd).1 (boundary fd).2)
    (hnew : ∀ fd ∈ added, fd ∉ files)
    (hmem : ∀ fd ranges, (fd, ranges) ∈ pieces → ranges ≠ [] → u.rangesOf level fd = some ranges)
    (hother : ∀ fd, (∀ ranges, (fd, ranges) ∈ pieces → ranges = []) →
      u.rangesOf level fd = t.rangesOf level fd) :
    Within boundary (files ∪ added) u level ∧ u.levelCoverage level =
      t.levelCoverage level ∪ {k | ∃ fd ranges, (fd, ranges) ∈ pieces ∧ k ∈ coverage ranges} := by
  have hcases : ∀ fd ranges, u.rangesOf level fd = some ranges →
      (fd, ranges) ∈ pieces ∨ t.rangesOf level fd = some ranges := by
    intro fd ranges hranges
    by_cases hfd : ∀ ranges, (fd, ranges) ∈ pieces → ranges = []
    · exact Or.inr (hother fd hfd ▸ hranges)
    · push Not at hfd
      obtain ⟨ranges', hp, hne⟩ := hfd
      obtain rfl : ranges = ranges' := Option.some.inj (hranges.symm.trans (hmem _ _ hp hne))
      exact Or.inl hp
  constructor
  · intro fd ranges hranges
    rcases hcases fd ranges hranges with hp | hold
    · exact ⟨Or.inr (hpieces fd ranges hp).1, (hpieces fd ranges hp).2⟩
    · exact ⟨Or.inl (h fd ranges hold).1, (h fd ranges hold).2⟩
  · ext k
    constructor
    · rintro ⟨fd, ranges, hranges, hk⟩
      rcases hcases fd ranges hranges with hp | hold
      · exact Or.inr ⟨fd, ranges, hp, hk⟩
      · exact Or.inl ⟨fd, ranges, hold, hk⟩
    · rintro (⟨fd, ranges, hold, hk⟩ | ⟨fd, ranges, hp, hk⟩)
      · have hfd : ∀ ranges', (fd, ranges') ∈ pieces → ranges' = [] := fun ranges' hp =>
          absurd (h fd ranges hold).1 (hnew fd (hpieces fd ranges' hp).1)
        exact ⟨fd, ranges, (hother fd hfd).trans hold, hk⟩
      · refine ⟨fd, ranges, hmem fd ranges hp ?_, hk⟩
        rintro rfl
        simp at hk

end Tracing

namespace TracedBundle

open TracingMetadata

variable {stoll : K → Option ℤ} {boundary : ℕ → K × K} {live : ℕ → Set ℕ}
  {s s' : TracedBundle K} {d : TracingMetadata K}

/-- What a run keeps: below level 0 the traced files are files of their level with ranges inside
of their boundaries, and together they cover what the filter covers. -/
structure Traced (boundary : ℕ → K × K) (live : ℕ → Set ℕ) (s : TracedBundle K) : Prop where
  wellFormed : s.bundle.plrdfStringkey.WellFormed
  disjoint : ∀ level ≠ 0, (live level).PairwiseDisjoint
    fun fd => Set.Ico (boundary fd).1 (boundary fd).2
  within : ∀ level ≠ 0, s.tracing.Within boundary (live level) level
  coverage_eq : ∀ level ≠ 0,
    s.tracing.levelCoverage level = s.bundle.plrdfStringkey.levelCoverage level

theorem traced_empty : Traced boundary (fun _ => ∅) (empty : TracedBundle K) := by
  have hnone : ∀ level fd, (empty : TracedBundle K).tracing.rangesOf level fd = none :=
    fun _ _ => rfl
  refine ⟨PLRDF.wellFormed_empty, fun _ _ => Set.pairwiseDisjoint_empty, ?_, ?_⟩
  · intro level _ fd ranges hranges
    rw [hnone] at hranges
    cases hranges
  · intro level _
    apply Set.eq_of_subset_of_subset
    · rintro k ⟨fd, ranges, hranges, _⟩
      rw [hnone] at hranges
      cases hranges
    · rintro k ⟨r, hr, _⟩
      cases hr

theorem Traced.of_taken (hs : Traced boundary live s) (hd : KeepsFiles boundary live d)
    (htype : d.type ≠ .kFlush) {t : Tracing K} {level : ℕ} (hlevel : level ≠ 0)
    (ht : ∀ fd ranges, t.rangesOf level fd = some ranges ↔
      fd ∉ d.inputsAt level ∧ s.tracing.rangesOf level fd = some ranges) :
    t.Within boundary (live level \ d.inputsAt level) level ∧
      t.levelCoverage level = s.bundle.plrdfStringkey.levelCoverage level \
        PLRDF.listedAt d.plrdfStringkeyCompactionDelta level := by
  have htaken := (hs.within level hlevel).levelCoverage_of_taken (hs.disjoint level hlevel)
    (hd.inputsAt_subset hlevel) ht
  rw [RDFUpdateMetadata.listedAt_eq_inside htype fun e he heq =>
      (hd.listed htype e he (heq ▸ hlevel)).1, ← hs.coverage_eq level hlevel]
  exact htaken

theorem Traced.of_idle (hs : Traced boundary live s)
    (hentries : d.plrdfStringkeyCompactionDelta = []) {b : VersionRDFBundle K}
    (h : s.bundle.applyCompactionDelta stoll d.toRDFUpdateMetadata = some b) :
    Traced boundary (d.filesAfter live) ⟨b, s.tracing.applyCompaction d⟩ := by
  have hfilter := (VersionRDFBundle.compactionParts h).plrdfStringkey
  rw [hentries] at hfilter
  have hfilter : s.bundle.plrdfStringkey = b.plrdfStringkey := Option.some.inj hfilter
  have htracing : s.tracing.applyCompaction d = s.tracing := by
    rw [Tracing.applyCompaction]
    cases d.fdRangetombstonesInfo with
    | none => rfl
    | some info => simp only [hentries, if_true]
  have hfiles : d.filesAfter live = live := by
    funext level
    have hinputs : d.inputsAt level = ∅ := by
      simp [RDFUpdateMetadata.inputsAt, hentries]
    have houtputs : d.outputsAt level = ∅ := by
      simp [outputsAt, MovesFiles, hentries]
    rw [filesAfter, hinputs, houtputs, Set.sdiff_empty, Set.union_empty]
  rw [hfiles, htracing]
  exact ⟨hfilter ▸ hs.wellFormed, hs.disjoint, hs.within, hfilter ▸ hs.coverage_eq⟩

theorem KeepsOutputs.destinations (hd : KeepsFiles boundary live d) (hmoves : d.MovesFiles)
    {info : MovingRDInfo K} (hinfo : d.fdRangetombstonesInfo = some info)
    (hout : KeepsOutputs boundary live d info) :
    (∀ ab ∈ info.destinations, ab.1 ∈ d.outputsAt info.dstLevel ∧ ab.2 = boundary ab.1) ∧
      (info.destinations.map Prod.fst).Nodup ∧
      info.destinations.Pairwise
        (fun x y => Disjoint (Set.Ico x.2.1 x.2.2) (Set.Ico y.2.1 y.2.2)) := by
  have hmem : ∀ ab ∈ info.destinations,
      ab.1 ∈ d.outputsAt info.dstLevel ∧ ab.2 = boundary ab.1 := by
    intro ab hab
    obtain ⟨dst, hdst, rfl⟩ := List.mem_map.mp hab
    exact ⟨⟨hmoves, info, hinfo, rfl, List.mem_map_of_mem hdst⟩, hout.boundaries dst hdst⟩
  have hnodup : (info.destinations.map Prod.fst).Nodup := by
    rw [MovingRDInfo.destinations, List.map_map]
    exact hout.nodup
  refine ⟨hmem, hnodup, ?_⟩
  refine (List.pairwise_map.mp hnodup).imp_of_mem fun {x y} hx hy hne => ?_
  rw [(hmem x hx).2, (hmem y hy).2]
  exact hd.disjoint info.dstLevel (Nat.one_le_iff_ne_zero.mp hout.positive)
    (Or.inr (hmem x hx).1) (Or.inr (hmem y hy).1) hne

omit [LinearOrder K] in
theorem KeepsOutputs.notMem_of_mem_outputsAt {info : MovingRDInfo K}
    (hinfo : d.fdRangetombstonesInfo = some info) (hout : KeepsOutputs boundary live d info) :
    ∀ fd ∈ d.outputsAt info.dstLevel, fd ∉ live info.dstLevel \ d.inputsAt info.dstLevel := by
  rintro fd ⟨_, info', hinfo', _, hfd⟩
  obtain rfl : info = info' := Option.some.inj (hinfo.symm.trans hinfo')
  obtain ⟨dst, hdst, rfl⟩ := List.mem_map.mp hfd
  exact hout.new dst hdst

omit [LinearOrder K] in
theorem outputsAt_of_ne {info : MovingRDInfo K} (hinfo : d.fdRangetombstonesInfo = some info)
    {level : ℕ} (hne : level ≠ info.dstLevel) : d.outputsAt level = ∅ := by
  apply Set.eq_empty_of_forall_notMem
  rintro fd ⟨_, info', hinfo', hlevel, _⟩
  obtain rfl : info = info' := Option.some.inj (hinfo.symm.trans hinfo')
  exact hne hlevel.symm

/-- What a compaction does to the tracing of the deeper levels: the input files are gone, and the
output level has gained what the output ranges cover. -/
theorem Traced.applyCompaction (hs : Traced boundary live s) (hd : KeepsFiles boundary live d)
    (hmoves : d.MovesFiles) {info : MovingRDInfo K} (hinfo : d.fdRangetombstonesInfo = some info)
    (hout : KeepsOutputs boundary live d info)
    (hsorted : StartSorted d.rangetombstonesOnOutputLevel) {level : ℕ} (hlevel : level ≠ 0) :
    (s.tracing.applyCompaction d).Within boundary (d.filesAfter live level) level ∧
      (s.tracing.applyCompaction d).levelCoverage level =
        if level = info.dstLevel then
          (s.bundle.plrdfStringkey.levelCoverage level \
            PLRDF.listedAt d.plrdfStringkeyCompactionDelta level) ∪
              coverage d.rangetombstonesOnOutputLevel
        else s.bundle.plrdfStringkey.levelCoverage level \
          PLRDF.listedAt d.plrdfStringkeyCompactionDelta level := by
  have htype : d.type ≠ .kFlush := by
    intro hflush
    rcases hmoves.1 with heq | heq <;> cases hflush.symm.trans heq
  have hpos : info.dstLevel ≠ 0 := Nat.one_le_iff_ne_zero.mp hout.positive
  obtain ⟨hmem, hnodup, hdisjoint⟩ := KeepsOutputs.destinations hd hmoves hinfo hout
  obtain ⟨hmerged, hwf, hclip⟩ := hd.proper.of_info hinfo
  let mid := (s.tracing.gatherTracingRangesAndRemove info.sources).2
  have hmid : ∀ fd ranges, mid.rangesOf level fd = some ranges ↔
      fd ∉ d.inputsAt level ∧ s.tracing.rangesOf level fd = some ranges := by
    intro fd ranges
    rw [Tracing.rangesOf_gatherTracingRangesAndRemove, ← hout.sources level hlevel fd]
    split_ifs with hin <;> simp [hin]
  obtain ⟨hwithin, htaken⟩ := hs.of_taken hd htype hlevel hmid
  obtain ⟨hwritten, hkept⟩ := Tracing.rangesOf_shiftTracingToOutputLevel hpos hmerged hwf hnodup
    hdisjoint (hclip ▸ hsorted) mid
  rw [s.tracing.applyCompaction_eq hinfo hmoves.2]
  by_cases hsame : level = info.dstLevel
  · subst hsame
    have hpieces : ∀ fd ranges,
        (fd, ranges) ∈ clipTagged (coalesceAll (sortPairs info.inputTombstones))
          info.destinations →
        fd ∈ d.outputsAt info.dstLevel ∧
          coverage ranges ⊆ Set.Ico (boundary fd).1 (boundary fd).2 := by
      intro fd ranges hp
      obtain ⟨x, hx, _, hsub⟩ := mem_clipTagged hmerged hwf hp
      obtain ⟨houtput, hx⟩ := hmem (fd, x) hx
      exact ⟨houtput, (show x = boundary fd from hx) ▸ hsub⟩
    obtain ⟨hwithin', hadded⟩ := hwithin.levelCoverage_of_added hpieces
      (KeepsOutputs.notMem_of_mem_outputsAt hinfo hout) hwritten
      (fun fd hfd => hkept info.dstLevel fd fun _ => hfd)
    refine ⟨hwithin', ?_⟩
    rw [hadded, htaken, if_pos rfl, hclip]
    congr 1
    ext k
    exact mem_coverage_clip_iff.symm
  · have hsame' := fun fd => hkept level fd fun heq => absurd heq hsame
    rw [if_neg hsame, ← htaken, filesAfter, outputsAt_of_ne hinfo hsame, Set.union_empty]
    exact ⟨hwithin.congr hsame', Tracing.levelCoverage_congr hsame'⟩

theorem Traced.of_compaction (hs : Traced boundary live s) (hd : KeepsFiles boundary live d)
    (hcompaction : d.IsCompaction) {b : VersionRDFBundle K}
    (h : s.bundle.applyCompactionDelta stoll d.toRDFUpdateMetadata = some b) :
    Traced boundary (d.filesAfter live) ⟨b, s.tracing.applyCompaction d⟩ := by
  by_cases hentries : d.plrdfStringkeyCompactionDelta = []
  · exact hs.of_idle hentries h
  · have hmoves : d.MovesFiles := ⟨hcompaction, hentries⟩
    obtain ⟨info, hinfo, hout⟩ := hd.outputs hmoves
    obtain ⟨e, es, heq⟩ := List.exists_cons_of_ne_nil hentries
    have hdst : e.olevel = info.dstLevel := by simpa [heq] using hout.olevel
    have hfilter := (VersionRDFBundle.compactionParts h).plrdfStringkey
    have hlisted := hd.proper.boundaries
    rw [heq] at hfilter hlisted
    have hsorted := (PLRDF.ascends_of_shiftRDFToOutputLevel hd.proper.nonempty hfilter).startSorted
    obtain ⟨hg, hcov⟩ := hs.wellFormed.levelCoverage_shiftRDF hd.proper.nonempty hlisted hfilter
    have hstep := fun level (hlevel : level ≠ 0) =>
      hs.applyCompaction hd hmoves hinfo hout hsorted hlevel
    refine ⟨hg, hd.disjoint, fun level hlevel => (hstep level hlevel).1, fun level hlevel => ?_⟩
    rw [(hstep level hlevel).2, hcov level hlevel, hdst, ← heq]

theorem Traced.of_removal (hs : Traced boundary live s) (hd : KeepsFiles boundary live d)
    (htype : d.type = .kCompactionDirectRemoved) {b : VersionRDFBundle K}
    (h : s.bundle.applyDirectRemovalDelta d.toRDFUpdateMetadata = some b) :
    Traced boundary (d.filesAfter live) ⟨b, s.tracing.applyDirectRemoval d⟩ := by
  have hflush : d.type ≠ .kFlush := by simp [htype]
  have hfiles : ∀ level, d.filesAfter live level = live level \ d.inputsAt level := by
    intro level
    have houtputs : d.outputsAt level = ∅ := by
      simp [outputsAt, MovesFiles, RDFUpdateMetadata.IsCompaction, htype]
    rw [filesAfter, houtputs, Set.union_empty]
  obtain ⟨hg, hcov⟩ := hs.wellFormed.foldlM_deleteRDF hd.proper.boundaries
    (VersionRDFBundle.removalParts h).plrdfStringkey
  have hstep : ∀ level ≠ 0, (s.tracing.applyDirectRemoval d).Within boundary
      (live level \ d.inputsAt level) level ∧
        (s.tracing.applyDirectRemoval d).levelCoverage level =
          s.bundle.plrdfStringkey.levelCoverage level \
            PLRDF.listedAt d.plrdfStringkeyCompactionDelta level := by
    intro level hlevel
    refine hs.of_taken hd hflush hlevel fun fd ranges => ?_
    rw [s.tracing.rangesOf_applyDirectRemoval d hlevel, ← hd.removed htype level hlevel fd]
    split_ifs with hin <;> simp [hin]
  refine ⟨hg, hd.disjoint, fun level hlevel => ?_, fun level hlevel => ?_⟩
  · rw [hfiles level]
    exact (hstep level hlevel).1
  · rw [(hstep level hlevel).2, hcov level hlevel]

theorem Traced.of_flush (hs : Traced boundary live s) (hd : KeepsFiles boundary live d)
    (htype : d.type = .kFlush) {b : VersionRDFBundle K}
    (h : s.bundle.applyFlushDelta d.toRDFUpdateMetadata = some b) :
    Traced boundary (d.filesAfter live) ⟨b, s.tracing.applyFlush d⟩ := by
  have hfiles : d.filesAfter live = live := by
    funext level
    have hinputs : d.inputsAt level = ∅ := by simp [RDFUpdateMetadata.inputsAt, htype]
    have houtputs : d.outputsAt level = ∅ := by
      simp [outputsAt, MovesFiles, RDFUpdateMetadata.IsCompaction, htype]
    rw [filesAfter, hinputs, houtputs, Set.sdiff_empty, Set.union_empty]
  have hsame := s.tracing.rangesOf_applyFlush (hd.flushed htype)
  obtain ⟨hg, hcov⟩ :=
    hs.wellFormed.applyFlush (VersionRDFBundle.flushParts h).plrdfStringkey
  rw [hfiles]
  refine ⟨hg, hs.disjoint, fun level hlevel => ?_, fun level hlevel => ?_⟩
  · exact (hs.within level hlevel).congr (hsame level)
  · rw [hcov level, ← hs.coverage_eq level hlevel]
    exact Tracing.levelCoverage_congr (hsame level)

theorem Traced.applyDelta (hs : Traced boundary live s) (hd : KeepsFiles boundary live d)
    (h : s.applyDelta stoll d = some s') : Traced boundary (d.filesAfter live) s' := by
  obtain ⟨b, hb, rfl⟩ := Option.map_eq_some_iff.mp h
  unfold VersionRDFBundle.applyDelta at hb
  unfold Tracing.applyDelta
  cases htype : d.type with
  | kFlush =>
    rw [htype] at hb
    exact hs.of_flush hd htype hb
  | kCompaction =>
    rw [htype] at hb
    exact hs.of_compaction hd (Or.inl htype) hb
  | kCompactionDirectRemoved =>
    rw [htype] at hb
    exact hs.of_removal hd htype hb
  | kCompactionDirectMoved =>
    rw [htype] at hb
    exact hs.of_compaction hd (Or.inr htype) hb

theorem Traced.foldlM_applyDelta {deltas : List (TracingMetadata K)}
    (hs : Traced boundary live s) (hdeltas : RunKeepsFiles boundary live deltas)
    (hrun : deltas.foldlM (TracedBundle.applyDelta stoll) s = some s') :
    ∃ live', Traced boundary live' s' := by
  induction deltas generalizing s live with
  | nil =>
    obtain rfl := Option.some.inj hrun
    exact ⟨live, hs⟩
  | cons d deltas ih =>
    obtain ⟨mid, hmid, hrest⟩ := Option.bind_eq_some_iff.mp hrun
    exact ih (hs.applyDelta hdeltas.1 hmid) hdeltas.2 hrest

/-- After every run that keeps the files, the ranges traced for the files of a level below level 0
cover exactly what the filter covers there. -/
theorem tracing_levelCoverage_eq {deltas : List (TracingMetadata K)}
    (hdeltas : RunKeepsFiles boundary (fun _ => ∅) deltas)
    (hrun : deltas.foldlM (TracedBundle.applyDelta stoll) empty = some s) {level : ℕ}
    (hlevel : 1 ≤ level) :
    s.tracing.levelCoverage level = s.bundle.plrdfStringkey.levelCoverage level := by
  obtain ⟨live, hs⟩ := traced_empty.foldlM_applyDelta hdeltas hrun
  exact hs.coverage_eq level (Nat.one_le_iff_ne_zero.mp hlevel)

def sampleBoundary (n : ℕ) : ℕ × ℕ := (10 * n, 10 * n + 10)

theorem pairwiseDisjoint_sampleBoundary (files : Set ℕ) :
    files.PairwiseDisjoint fun fd => Set.Ico (sampleBoundary fd).1 (sampleBoundary fd).2 := by
  intro m _ n _ hne
  simp only [Function.onFun, Set.disjoint_left, Set.mem_Ico, sampleBoundary]
  omega

/-- File 1 with the tombstone `[15, 55)` is flushed. -/
def sampleTracingFlush : TracingMetadata ℕ :=
  { type := .kFlush
    plrdfStringkeyFlushDelta := ⟨1, [(15, 55)], []⟩
    plrdfStringkeyTracingAdd := [(0, 1, [(15, 55)])] }

def sampleTracingCompaction : TracingMetadata ℕ :=
  { type := .kCompaction
    plrdfStringkeyCompactionDelta := [⟨0, 1, [(15, 55)], [1]⟩]
    fdRangetombstonesInfo :=
      some ⟨[⟨0, [1], [(15, 55)]⟩], 1, [⟨2, (20, 30)⟩, ⟨3, (30, 40)⟩]⟩ }

def sampleTracingRemoval : TracingMetadata ℕ :=
  { type := .kCompactionDirectRemoved
    plrdfStringkeyCompactionDelta := [⟨1, 0, [(20, 30)], [2]⟩]
    plrdfStringkeyTracingRemove := [(1, 2)] }

def sampleTracingDeltas : List (TracingMetadata ℕ) :=
  [sampleTracingFlush, sampleTracingCompaction, sampleTracingRemoval]

theorem runKeepsFiles_sampleTracingDeltas :
    RunKeepsFiles sampleBoundary (fun _ => ∅) sampleTracingDeltas := by
  refine ⟨?_, ?_, ?_, trivial⟩
  · refine ⟨⟨by decide, by decide, by decide⟩, fun _ => by decide, ?_, ?_, ?_,
      fun _ _ => pairwiseDisjoint_sampleBoundary _⟩
    · exact fun htype => absurd rfl htype
    · exact fun htype => by cases htype
    · rintro ⟨htype | htype, _⟩ <;> cases htype
  · refine ⟨⟨by decide, by decide, by decide⟩, (fun htype => by cases htype), ?_, ?_, ?_,
      fun _ _ => pairwiseDisjoint_sampleBoundary _⟩
    · intro _ e he hlevel
      obtain rfl := List.mem_singleton.mp he
      exact absurd rfl hlevel
    · exact fun htype => by cases htype
    · intro _
      refine ⟨_, rfl, ?_, rfl, by decide, by decide, by decide, ?_⟩
      · intro level hlevel fd
        simp [MovingRDInfo.sources, RDFUpdateMetadata.inputsAt, sampleTracingCompaction]
      · intro dst _ hlive
        simp [filesAfter, outputsAt, MovesFiles, RDFUpdateMetadata.IsCompaction,
          sampleTracingFlush] at hlive
  · refine ⟨⟨by decide, by decide, by decide⟩, (fun htype => by cases htype), ?_, ?_, ?_,
      fun _ _ => pairwiseDisjoint_sampleBoundary _⟩
    · intro _ e he _
      obtain rfl := List.mem_singleton.mp he
      refine ⟨rfl, fun fd hfd => ?_⟩
      obtain rfl := List.mem_singleton.mp hfd
      exact Or.inr ⟨⟨Or.inl rfl, by simp [sampleTracingCompaction]⟩, _, rfl, rfl, by decide⟩
    · intro _ level _ fd
      simp [RDFUpdateMetadata.inputsAt, sampleTracingRemoval, eq_comm]
    · rintro ⟨htype | htype, _⟩ <;> cases htype

theorem tracing_levelCoverage_eq_sample : ∃ s : TracedBundle ℕ,
    sampleTracingDeltas.foldlM (TracedBundle.applyDelta fun _ => none) empty = some s ∧
      s.tracing.levelCoverage 1 = s.bundle.plrdfStringkey.levelCoverage 1 ∧
      35 ∈ s.tracing.levelCoverage 1 ∧ 25 ∉ s.tracing.levelCoverage 1 := by
  have hrun : ((sampleTracingDeltas.foldlM (TracedBundle.applyDelta fun _ => none) empty).map
      fun s => decide (35 ∈ s.bundle.plrdfStringkey.levelCoverage 1 ∧
        25 ∉ s.bundle.plrdfStringkey.levelCoverage 1)) = some true := by decide
  obtain ⟨s, hs, hkeys⟩ := Option.map_eq_some_iff.mp hrun
  have heq := tracing_levelCoverage_eq runKeepsFiles_sampleTracingDeltas hs le_rfl
  refine ⟨s, hs, heq, ?_⟩
  rw [heq]
  exact of_decide_eq_true hkeys

end TracedBundle

end Spry
