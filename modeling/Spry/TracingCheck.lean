import Spry.NumericPLRDF
import Spry.PLRDFMerge
import Spry.TracingRun

/-!
# The consistency check of the numeric filters

With tracing, the two filters over the integers also keep the ranges of each file. The check of a
level merges what is traced for its files and compares the result position by position with the
stored ranges, up to the number of stored ranges. It therefore reads past the end of a shorter
list, and otherwise its verdict is about coverage.
-/

namespace Spry

open HalfOpen

structure TracedPLRDF (K : Type) where
  filter : PLRDF K
  tracing : Tracing K

section Check

variable {K : Type} [LinearOrder K]

def Tracing.getAllFileRangeTombstones (t : Tracing K) (level : ℕ) : List (K × K) :=
  if t.tracingLevelFileRdFilter.length ≤ level then []
  else
    PLRDF.sortAndMerge
      (((t.tracingLevelFileRdFilter.atLevel level).entries.insertionSort
        fun a b => a.1 ≤ b.1).flatMap fun entry => entry.2)

namespace TracedPLRDF

/-- The loop over the stored ranges. `none` is a read past the end of the traced ranges. -/
def compareRanges : Bool → List (K × K) → List (K × K) → Option Bool
  | flagInconsistency, [], _ => some flagInconsistency
  | _, _ :: _, [] => none
  | flagInconsistency, a :: actual, t :: traced =>
    compareRanges (flagInconsistency || decide (a ≠ t)) actual traced

/-- The flag that decides whether the check reports a failure. A level the filter does not have is
not looked at. -/
def checkTracingConsistency (p : TracedPLRDF K) (level : ℕ) : Option Bool :=
  if p.filter.rdFilter.length ≤ level then some false
  else
    let actual := p.filter.getLevelRanges level
    let traced := p.tracing.getAllFileRangeTombstones level
    compareRanges (decide (actual.length ≠ traced.length)) actual traced

theorem compareRanges_eq (flag : Bool) (actual traced : List (K × K)) :
    compareRanges flag actual traced =
      if traced.length < actual.length then none
      else some (flag || decide (actual ≠ traced.take actual.length)) := by
  induction actual generalizing flag traced with
  | nil => simp [compareRanges]
  | cons a actual ih =>
    cases traced with
    | nil => simp [compareRanges]
    | cons t traced =>
      rw [compareRanges, ih]
      by_cases heq : a = t
      · simp [heq]
      · simp [heq]

theorem checkTracingConsistency_eq (p : TracedPLRDF K) {level : ℕ}
    (hlevel : level < p.filter.rdFilter.length) :
    p.checkTracingConsistency level =
      if (p.tracing.getAllFileRangeTombstones level).length <
          (p.filter.getLevelRanges level).length then none
      else some (decide
        (p.filter.getLevelRanges level ≠ p.tracing.getAllFileRangeTombstones level)) := by
  rw [checkTracingConsistency, if_neg (not_le.mpr hlevel), compareRanges_eq]
  split_ifs with hshort
  · rfl
  · congr 1
    by_cases hlength : (p.filter.getLevelRanges level).length =
        (p.tracing.getAllFileRangeTombstones level).length
    · simp [hlength]
    · have hne : p.filter.getLevelRanges level ≠ p.tracing.getAllFileRangeTombstones level :=
        fun heq => hlength (congrArg List.length heq)
      simp [hlength, hne]

end TracedPLRDF

/-! ### What the traced list covers -/

namespace Tracing

def Proper (t : Tracing K) : Prop :=
  ∀ level fd ranges, t.rangesOf level fd = some ranges → ∀ r ∈ ranges, r.1 < r.2

omit [LinearOrder K] in
theorem mem_rangesOf_iff {t : Tracing K} {level fd : ℕ} {ranges : List (K × K)} :
    t.rangesOf level fd = some ranges ↔
      ⟨fd, ranges⟩ ∈ (t.tracingLevelFileRdFilter.atLevel level).entries :=
  AList.mem_lookup_iff

omit [LinearOrder K] in
theorem rangesOf_of_length_le {t : Tracing K} {level : ℕ}
    (h : t.tracingLevelFileRdFilter.length ≤ level) (fd : ℕ) : t.rangesOf level fd = none := by
  rw [rangesOf, LevelMap.lookupAt, LevelMap.atLevel, List.getD_eq_getElem?_getD,
    List.getElem?_eq_none h]
  rfl

theorem coverage_getAllFileRangeTombstones (t : Tracing K) (level : ℕ) :
    coverage (t.getAllFileRangeTombstones level) = t.levelCoverage level := by
  rw [getAllFileRangeTombstones]
  split_ifs with hlength
  · ext k
    simp [levelCoverage, rangesOf_of_length_le hlength]
  · rw [PLRDF.coverage_sortAndMerge]
    ext k
    simp only [mem_coverage, levelCoverage, List.mem_flatMap, List.mem_insertionSort,
      Set.mem_ofPred_eq, mem_rangesOf_iff]
    constructor
    · rintro ⟨r, ⟨entry, hentry, hr⟩, hk⟩
      exact ⟨entry.1, entry.2, hentry, r, hr, hk⟩
    · rintro ⟨fd, ranges, hentry, r, hr, hk⟩
      exact ⟨r, ⟨⟨fd, ranges⟩, hentry, hr⟩, hk⟩

theorem Proper.normal_getAllFileRangeTombstones {t : Tracing K} (ht : t.Proper) (level : ℕ) :
    Normal (t.getAllFileRangeTombstones level) := by
  rw [getAllFileRangeTombstones]
  split_ifs with hlength
  · exact Normal.nil
  · apply PLRDF.normal_sortAndMerge
    intro r hr
    obtain ⟨entry, hentry, hr⟩ := List.mem_flatMap.mp hr
    rw [List.mem_insertionSort] at hentry
    exact ht level entry.1 entry.2 (mem_rangesOf_iff.mpr hentry) r hr

/-! ### Updates keep the traced ranges proper -/

variable {t : Tracing K}

theorem proper_empty : (empty : Tracing K).Proper := by
  intro level fd ranges hranges
  cases hranges

omit [LinearOrder K] in
theorem rangesOf_insertTracingRanges {level fd : ℕ} {ranges : List (K × K)} {ℓ n : ℕ}
    {rs : List (K × K)}
    (h : (t.insertTracingRangesAtLevelOfFd level fd ranges).rangesOf ℓ n = some rs) :
    rs = ranges ∨ t.rangesOf ℓ n = some rs := by
  unfold insertTracingRangesAtLevelOfFd at h
  split_ifs at h
  · exact Or.inr h
  · exact Or.inr h
  · rw [rangesOf, LevelMap.lookupAt_insertAt] at h
    split_ifs at h
    · exact Or.inl (Option.some.inj h).symm
    · exact Or.inr h

theorem Proper.insertTracingRanges (ht : t.Proper) (level fd : ℕ) {ranges : List (K × K)}
    (hranges : ∀ r ∈ ranges, r.1 < r.2) :
    (t.insertTracingRangesAtLevelOfFd level fd ranges).Proper := by
  intro ℓ n rs hrs
  rcases rangesOf_insertTracingRanges hrs with rfl | hold
  · exact hranges
  · exact ht ℓ n rs hold

theorem Proper.removeTracingRanges (ht : t.Proper) (level fd : ℕ) :
    (t.removeTracingRangesAtLevelOfFd level fd).Proper := by
  intro ℓ n rs hrs
  unfold removeTracingRangesAtLevelOfFd at hrs
  split_ifs at hrs
  · exact ht ℓ n rs hrs
  · rw [rangesOf, LevelMap.lookupAt_eraseAt] at hrs
    split_ifs at hrs
    exact ht ℓ n rs hrs

theorem Proper.gatherTracingRangesAndRemove (ht : t.Proper) (sources : List (ℕ × List ℕ)) :
    (t.gatherTracingRangesAndRemove sources).2.Proper := by
  intro ℓ n rs hrs
  rw [rangesOf_gatherTracingRangesAndRemove] at hrs
  split_ifs at hrs
  exact ht ℓ n rs hrs

theorem Proper.shiftTracingToOutputLevel (dstLevel : ℕ) {rdMerged : List (K × K)}
    (hrd : Ordered rdMerged) {dst : List (ℕ × (K × K))} (hwf : ∀ ab ∈ dst, ab.2.1 ≤ ab.2.2)
    (ht : t.Proper) : (shiftTracingToOutputLevel dstLevel t rdMerged dst).Proper := by
  induction dst generalizing t rdMerged with
  | nil => exact ht
  | cons ab dst ih =>
    have hwf' : ∀ cd ∈ dst, cd.2.1 ≤ cd.2.2 := fun cd hcd => hwf cd (List.mem_cons_of_mem ab hcd)
    rw [Tracing.shiftTracingToOutputLevel]
    split_ifs with hnil heq
    · exact ht
    · exact ih hrd hwf' ht
    · have hrd' : Ordered (rdMerged.dropWhile (fun r => r.2 ≤ ab.2.1)) :=
        hrd.sublist (List.dropWhile_sublist _)
      have hpieces := (ordered_clipOne hrd' ab.2
        (lt_of_le_of_ne (hwf ab List.mem_cons_self) heq)
        (fun r hr => (hrd.mem_dropWhile_end.mp hr).2)).1.nonempty
      rw [collectRanges_eq hrd' ab.2]
      simp only
      apply ih (hrd'.sublist (List.dropWhile_sublist _)) hwf'
      split_ifs
      · exact ht
      · exact ht.insertTracingRanges dstLevel ab.1 hpieces

end Tracing

/-! ### The verdict -/

namespace TracedPLRDF

structure Proper (p : TracedPLRDF K) : Prop where
  wellFormed : p.filter.WellFormed
  tracing : p.tracing.Proper

/-- What the check of every level of the filter does: it reads past the end exactly if fewer
ranges are traced than stored, any other verdict is about coverage, and if the coverage agrees,
the check passes exactly if no two stored ranges touch. -/
def ChecksCoverage (p : TracedPLRDF K) : Prop :=
  ∀ level < p.filter.rdFilter.length,
    (p.checkTracingConsistency level = none ↔
      (p.tracing.getAllFileRangeTombstones level).length <
        (p.filter.getLevelRanges level).length) ∧
    (∀ flag, p.checkTracingConsistency level = some flag →
      (flag = true ↔ p.tracing.levelCoverage level ≠ p.filter.levelCoverage level)) ∧
    (p.tracing.levelCoverage level = p.filter.levelCoverage level →
      (p.checkTracingConsistency level = some false ↔ Gapped (p.filter.getLevelRanges level)))

theorem Proper.checksCoverage {p : TracedPLRDF K} (hp : p.Proper) : p.ChecksCoverage := by
  intro level hlevel
  have hactual : Ordered (p.filter.getLevelRanges level) := hp.wellFormed.ordered level
  have htraced := hp.tracing.normal_getAllFileRangeTombstones level
  have hcov := p.tracing.coverage_getAllFileRangeTombstones level
  rw [checkTracingConsistency_eq p hlevel]
  refine ⟨?_, ?_, ?_⟩
  · split_ifs with hshort
    · simp [hshort]
    · simp [hshort]
  · intro flag hflag
    split_ifs at hflag with hshort
    obtain rfl := Option.some.inj hflag
    rw [decide_eq_true_iff, not_iff_not]
    constructor
    · intro heq
      rw [← hcov, ← heq]
      rfl
    · intro hsame
      exact htraced.eq_of_length_le hactual (hcov.trans hsame).symm (not_lt.mp hshort)
  · intro hsame
    constructor
    · intro hpass
      split_ifs at hpass with hshort
      have heq : p.filter.getLevelRanges level = p.tracing.getAllFileRangeTombstones level := by
        simpa using hpass
      rw [heq]
      exact htraced.gapped
    · intro hgapped
      have heq : p.filter.getLevelRanges level = p.tracing.getAllFileRangeTombstones level :=
        Normal.eq_of_coverage_eq ⟨hactual.nonempty, hgapped⟩ htraced (hcov.trans hsame).symm
      simp [heq]

end TracedPLRDF

end Check

/-! ### The two numeric filters of a version -/

/-- A delta with the entries that the tracing of the numeric filters reads. -/
structure NumericTracingMetadata (K : Type) extends RDFUpdateMetadata K where
  plrdfTracingAdd : List (ℕ × ℕ × List (ℤ × ℤ)) := []
  splitPlrdfTracingAdd : List (ℕ × ℕ × List (ℤ × ℤ)) := []
  plrdfTracingRemove : List (ℕ × ℕ) := []
  splitPlrdfTracingRemove : List (ℕ × ℕ) := []

/-- The filters of a version together with the tracing of the numeric ones. -/
structure NumericTracedBundle (K : Type) where
  bundle : VersionRDFBundle K
  plrdfTracing : Tracing ℤ
  splitPlrdfTracing : Tracing ℤ

variable {K : Type} [LinearOrder K] {stoll : K → Option ℤ}

namespace Tracing

/-- The merged tombstones and the boundaries of the output files are converted to integers before
they are shifted. -/
def applyNumericCompaction (stoll : K → Option ℤ) (t : Tracing ℤ) (d : RDFUpdateMetadata K)
    (entries : List (LevelFiles ℤ)) : Option (Tracing ℤ) :=
  match d.fdRangetombstonesInfo with
  | none => some t
  | some info =>
    if entries = [] then some t
    else do
      let (_, t) := t.gatherTracingRangesAndRemove info.sources
      let gathered ← stollRanges stoll (coalesceAll (sortPairs info.inputTombstones))
      if gathered = [] then return t
      else
        let dstBoundaries ← stollRanges stoll info.dstBoundaries
        return shiftTracingToOutputLevel info.dstLevel t gathered
          ((info.dstLevelInfoList.map fun dst => dst.fd).zip dstBoundaries)

def applyNumericDelta (stoll : K → Option ℤ) (t : Tracing ℤ) (d : RDFUpdateMetadata K)
    (adds : List (ℕ × ℕ × List (ℤ × ℤ))) (removes : List (ℕ × ℕ))
    (entries : List (LevelFiles ℤ)) : Option (Tracing ℤ) :=
  match d.type with
  | .kFlush =>
    some (adds.foldl (fun t add => t.insertTracingRangesAtLevelOfFd add.1 add.2.1 add.2.2) t)
  | .kCompaction => t.applyNumericCompaction stoll d entries
  | .kCompactionDirectRemoved =>
    some (removes.foldl (fun t p => t.removeTracingRangesAtLevelOfFd p.1 p.2) t)
  | .kCompactionDirectMoved => t.applyNumericCompaction stoll d entries

end Tracing

namespace NumericTracedBundle

def empty : NumericTracedBundle K := ⟨VersionRDFBundle.empty, Tracing.empty, Tracing.empty⟩

def plrdf (s : NumericTracedBundle K) : TracedPLRDF ℤ := ⟨s.bundle.plrdf, s.plrdfTracing⟩

def splitPlrdf (s : NumericTracedBundle K) : TracedPLRDF ℤ :=
  ⟨s.bundle.splitPlrdf, s.splitPlrdfTracing⟩

def applyDelta (stoll : K → Option ℤ) (s : NumericTracedBundle K)
    (d : NumericTracingMetadata K) : Option (NumericTracedBundle K) := do
  let plrdfTracing ← s.plrdfTracing.applyNumericDelta stoll d.toRDFUpdateMetadata
    d.plrdfTracingAdd d.plrdfTracingRemove d.plrdfCompactionDelta
  let splitPlrdfTracing ← s.splitPlrdfTracing.applyNumericDelta stoll d.toRDFUpdateMetadata
    d.splitPlrdfTracingAdd d.splitPlrdfTracingRemove d.splitPlrdfCompactionDelta
  let bundle ← s.bundle.applyDelta stoll d.toRDFUpdateMetadata
  return { bundle, plrdfTracing, splitPlrdfTracing }

end NumericTracedBundle

/-- The integers read from the tombstones and the output files of a delta keep their order. -/
structure KeepsOrder (stoll : K → Option ℤ) (d : RDFUpdateMetadata K) : Prop where
  outRanges : ∀ out ∈ stollRanges stoll d.rangetombstonesOnOutputLevel, ∀ r ∈ out, r.1 < r.2
  gathered : ∀ info ∈ d.fdRangetombstonesInfo,
    ∀ gathered ∈ stollRanges stoll (coalesceAll (sortPairs info.inputTombstones)),
      Ordered gathered
  destinations : ∀ info ∈ d.fdRangetombstonesInfo,
    ∀ boundaries ∈ stollRanges stoll info.dstBoundaries, ∀ b ∈ boundaries, b.1 ≤ b.2

/-- A delta whose ranges are proper, and stay so when they are read as integers. -/
structure ProperNumbers (stoll : K → Option ℤ) (d : NumericTracingMetadata K) : Prop
    extends KeepsOrder stoll d.toRDFUpdateMetadata where
  listed : ∀ e ∈ d.plrdfCompactionDelta, ∀ x ∈ e.boundaries, x.1 ≤ x.2
  splitListed : ∀ e ∈ d.splitPlrdfCompactionDelta, ∀ x ∈ e.boundaries, x.1 ≤ x.2
  added : ∀ add ∈ d.plrdfTracingAdd, ∀ r ∈ add.2.2, r.1 < r.2
  splitAdded : ∀ add ∈ d.splitPlrdfTracingAdd, ∀ r ∈ add.2.2, r.1 < r.2
  sampled : d.splitSampledKeys.Pairwise (· ≤ ·)

theorem Tracing.Proper.applyNumericCompaction {t t' : Tracing ℤ} (ht : t.Proper)
    {d : RDFUpdateMetadata K} (hd : KeepsOrder stoll d) {entries : List (LevelFiles ℤ)}
    (h : t.applyNumericCompaction stoll d entries = some t') : t'.Proper := by
  unfold Tracing.applyNumericCompaction at h
  cases hinfo : d.fdRangetombstonesInfo with
  | none =>
    rw [hinfo] at h
    obtain rfl := Option.some.inj h
    exact ht
  | some info =>
    have hremoved := ht.gatherTracingRangesAndRemove info.sources
    simp only [hinfo] at h
    split_ifs at h
    · obtain rfl := Option.some.inj h
      exact ht
    · obtain ⟨gathered, hgathered, hrest⟩ := Option.bind_eq_some_iff.mp h
      split_ifs at hrest
      · obtain rfl := Option.some.inj hrest
        exact hremoved
      · obtain ⟨boundaries, hboundaries, hshift⟩ := Option.bind_eq_some_iff.mp hrest
        obtain rfl := Option.some.inj hshift
        apply hremoved.shiftTracingToOutputLevel info.dstLevel (hd.gathered _ hinfo _ hgathered)
        intro ab hab
        exact hd.destinations _ hinfo _ hboundaries ab.2 (List.of_mem_zip hab).2

theorem Tracing.Proper.applyNumericDelta {t t' : Tracing ℤ} (ht : t.Proper)
    {d : RDFUpdateMetadata K} (hd : KeepsOrder stoll d) {adds : List (ℕ × ℕ × List (ℤ × ℤ))}
    (hadds : ∀ add ∈ adds, ∀ r ∈ add.2.2, r.1 < r.2) {removes : List (ℕ × ℕ)}
    {entries : List (LevelFiles ℤ)}
    (h : t.applyNumericDelta stoll d adds removes entries = some t') : t'.Proper := by
  unfold Tracing.applyNumericDelta at h
  cases htype : d.type with
  | kFlush =>
    rw [htype] at h
    obtain rfl := Option.some.inj h
    clear h
    induction adds generalizing t with
    | nil => exact ht
    | cons add adds ih =>
      exact ih (ht.insertTracingRanges add.1 add.2.1 (hadds add List.mem_cons_self))
        fun a ha => hadds a (List.mem_cons_of_mem add ha)
  | kCompaction =>
    rw [htype] at h
    exact ht.applyNumericCompaction hd h
  | kCompactionDirectRemoved =>
    rw [htype] at h
    obtain rfl := Option.some.inj h
    clear h
    induction removes generalizing t with
    | nil => exact ht
    | cons p removes ih => exact ih (ht.removeTracingRanges p.1 p.2)
  | kCompactionDirectMoved =>
    rw [htype] at h
    exact ht.applyNumericCompaction hd h

namespace PLRDF

variable {f g : PLRDF ℤ} {entries : List (LevelFiles ℤ)} {outRanges : List (K × K)}

omit [LinearOrder K] in
theorem WellFormed.applyNumericCompaction (hf : f.WellFormed)
    (hout : ∀ out ∈ stollRanges stoll outRanges, ∀ r ∈ out, r.1 < r.2)
    (hlisted : ∀ e ∈ entries, ∀ x ∈ e.boundaries, x.1 ≤ x.2)
    (h : PLRDF.applyNumericCompaction stoll f entries outRanges = some g) : g.WellFormed := by
  cases entries with
  | nil =>
    obtain rfl := Option.some.inj h
    exact hf
  | cons e es =>
    obtain ⟨out, hconverted, hshift⟩ := Option.bind_eq_some_iff.mp h
    exact (hf.levelCoverage_shiftRDF (hout out hconverted) hlisted hshift).1

omit [LinearOrder K] in
theorem WellFormed.applyNumericSplitCompaction {splitFlag : Bool} {sampledKeys : List ℤ}
    (hf : f.WellFormed)
    (hout : ∀ out ∈ stollRanges stoll outRanges, ∀ r ∈ out, r.1 < r.2)
    (hlisted : ∀ e ∈ entries, ∀ x ∈ e.boundaries, x.1 ≤ x.2)
    (hkeys : sampledKeys.Pairwise (· ≤ ·))
    (h : PLRDF.applyNumericSplitCompaction stoll f entries outRanges splitFlag sampledKeys =
      some g) : g.WellFormed := by
  cases entries with
  | nil =>
    obtain rfl := Option.some.inj h
    exact hf
  | cons e es =>
    obtain ⟨out, hconverted, hsplit⟩ := Option.bind_eq_some_iff.mp h
    obtain ⟨mid, hshift, _⟩ := Option.bind_eq_some_iff.mp hsplit
    have hascends := ascends_of_shiftRDFToOutputLevel (hout out hconverted) hshift
    exact (hf.applySplitCompaction hascends hlisted hkeys hsplit).1

end PLRDF

namespace NumericTracedBundle

variable {s s' : NumericTracedBundle K} {d : NumericTracingMetadata K}

structure Proper (s : NumericTracedBundle K) : Prop where
  plrdf : s.plrdf.Proper
  splitPlrdf : s.splitPlrdf.Proper

omit [LinearOrder K] in
theorem proper_empty : (empty : NumericTracedBundle K).Proper :=
  ⟨⟨PLRDF.wellFormed_empty, Tracing.proper_empty⟩,
    ⟨PLRDF.wellFormed_empty, Tracing.proper_empty⟩⟩

theorem wellFormed_applyDelta {b b' : VersionRDFBundle K} (hd : ProperNumbers stoll d)
    (hplrdf : b.plrdf.WellFormed) (hsplit : b.splitPlrdf.WellFormed)
    (h : b.applyDelta stoll d.toRDFUpdateMetadata = some b') :
    b'.plrdf.WellFormed ∧ b'.splitPlrdf.WellFormed := by
  rcases VersionRDFBundle.applyDelta_cases h with ⟨_, h⟩ | ⟨_, h⟩ | ⟨_, h⟩
  · have hparts := VersionRDFBundle.flushParts h
    exact ⟨(hplrdf.applyFlush hparts.plrdf).1, (hsplit.applyFlush hparts.splitPlrdf).1⟩
  · have hparts := VersionRDFBundle.compactionParts h
    constructor
    · exact hplrdf.applyNumericCompaction hd.outRanges hd.listed hparts.plrdf
    · exact hsplit.applyNumericSplitCompaction hd.outRanges hd.splitListed hd.sampled
        hparts.splitPlrdf
  · have hparts := VersionRDFBundle.removalParts h
    exact ⟨(hplrdf.foldlM_deleteRDF hd.listed hparts.plrdf).1,
      (hsplit.foldlM_deleteRDF hd.splitListed hparts.splitPlrdf).1⟩

theorem Proper.applyDelta (hs : s.Proper) (hd : ProperNumbers stoll d)
    (h : s.applyDelta stoll d = some s') : s'.Proper := by
  obtain ⟨plrdfTracing, hplrdf, hrest⟩ := Option.bind_eq_some_iff.mp h
  obtain ⟨splitPlrdfTracing, hsplit, hrest⟩ := Option.bind_eq_some_iff.mp hrest
  obtain ⟨bundle, hbundle, hresult⟩ := Option.bind_eq_some_iff.mp hrest
  obtain rfl := Option.some.inj hresult
  obtain ⟨hwf, hsplitwf⟩ :=
    wellFormed_applyDelta hd hs.plrdf.wellFormed hs.splitPlrdf.wellFormed hbundle
  constructor
  · exact ⟨hwf, hs.plrdf.tracing.applyNumericDelta hd.toKeepsOrder hd.added hplrdf⟩
  · exact ⟨hsplitwf, hs.splitPlrdf.tracing.applyNumericDelta hd.toKeepsOrder hd.splitAdded hsplit⟩

theorem Proper.foldlM_applyDelta {deltas : List (NumericTracingMetadata K)} (hs : s.Proper)
    (hdeltas : ∀ d ∈ deltas, ProperNumbers stoll d)
    (hrun : deltas.foldlM (NumericTracedBundle.applyDelta stoll) s = some s') : s'.Proper := by
  induction deltas generalizing s with
  | nil =>
    obtain rfl := Option.some.inj hrun
    exact hs
  | cons d deltas ih =>
    obtain ⟨mid, hmid, hrest⟩ := Option.bind_eq_some_iff.mp hrun
    exact ih (hs.applyDelta (hdeltas d List.mem_cons_self) hmid)
      (fun d' hd' => hdeltas d' (List.mem_cons_of_mem d hd')) hrest

/-- File 1 with the tombstone `[1, 5)` is flushed. -/
def checkedFlush : NumericTracingMetadata Bytes :=
  { type := .kFlush
    plrdfFlushDelta := ⟨1, [(1, 5)], []⟩
    plrdfTracingAdd := [(0, 1, [(1, 5)])] }

def checkedCompaction : NumericTracingMetadata Bytes :=
  { type := .kCompaction
    plrdfCompactionDelta := [⟨0, 1, [(1, 5)], [1]⟩]
    fdRangetombstonesInfo := some ⟨[⟨0, [1], [([49], [53])]⟩], 1,
      [⟨2, ([49], [51])⟩, ⟨3, ([51], [51])⟩, ⟨4, ([51], [53])⟩]⟩ }

def checkedMove : NumericTracingMetadata Bytes :=
  { type := .kCompactionDirectMoved
    plrdfCompactionDelta := [⟨1, 2, [(3, 3)], [3]⟩]
    fdRangetombstonesInfo := some ⟨[⟨1, [3], []⟩], 2, [⟨5, ([51], [51])⟩]⟩ }

def checkedIntraLevel0 : NumericTracingMetadata Bytes :=
  { type := .kCompaction
    plrdfCompactionDelta := [⟨0, 0, [(1, 5)], [1]⟩]
    fdRangetombstonesInfo := some ⟨[⟨0, [1], [([49], [53])]⟩], 0, [⟨2, ([49], [53])⟩]⟩ }

theorem properNumbers_checked :
    ∀ d ∈ [checkedFlush, checkedCompaction, checkedMove, checkedIntraLevel0],
      ProperNumbers Bytes.stoll d := by
  intro d hd
  simp only [List.mem_cons, List.not_mem_nil, or_false] at hd
  rcases hd with rfl | rfl | rfl | rfl
  all_goals
    exact ⟨⟨by decide +kernel, by decide +kernel, by decide +kernel⟩, by decide, by decide,
      by decide, by decide, by decide⟩

end NumericTracedBundle

end Spry
