import Spry.BundleSplit

/-!
# Deltas that commute

The manifest writer applies the deltas of concurrent jobs in whatever order they finish. What a
compaction does to the split filter at a key depends on the filter at that key only, and a key
outside of the hull of the job is left alone. So two compactions with disjoint hulls commute, and
a flush commutes with every compaction that does not take the flushed file away.
-/

namespace Spry

open HalfOpen

namespace PLRDF

section Exits

variable {K : Type*} [LinearOrder K]

/-- The cases of the source are exhaustive, so the last exit is never taken. -/
theorem isSome_cutAtBoundaries (dropEmpty : Bool) (val : K × K) (bs : List (K × K)) :
    (cutAtBoundaries dropEmpty val bs).isSome = true := by
  induction bs generalizing val with
  | nil => rfl
  | cons fb bs ih =>
    unfold cutAtBoundaries
    by_cases h₁ : val.2 ≤ fb.1
    · rw [if_pos h₁]
      rfl
    by_cases h₂ : fb.2 ≤ val.1
    · rw [if_neg h₁, if_pos h₂]
      exact ih val
    rw [if_neg h₁, if_neg h₂]
    rw [not_le] at h₁ h₂
    split_ifs with h₃ h₄ h₅ h₆
    · rfl
    · rfl
    · exact ih (fb.2, val.2)
    · rw [Option.isSome_map]
      exact ih (fb.2, val.2)
    · exfalso
      rcases lt_or_ge val.1 fb.1 with hstart | hstart
      · rcases le_or_gt val.2 fb.2 with hstop | hstop
        · exact h₃ ⟨hstart, h₁, hstop⟩
        · exact h₆ ⟨hstart, hstop⟩
      · rcases le_or_gt val.2 fb.2 with hstop | hstop
        · exact h₄ ⟨hstart, hstop⟩
        · exact h₅ ⟨hstart, h₂, hstop⟩

theorem isSome_rangesOutside (dropEmpty : Bool) (rs bs : List (K × K)) :
    (rangesOutside dropEmpty rs bs).isSome = true := by
  induction rs generalizing bs with
  | nil => rfl
  | cons val rs ih =>
    obtain ⟨p, hp⟩ := Option.isSome_iff_exists.mp (isSome_cutAtBoundaries dropEmpty val bs)
    obtain ⟨rest, hrest⟩ := Option.isSome_iff_exists.mp (ih p.2)
    simp [rangesOutside, hp, hrest]

theorem isSome_shiftSource (f : PLRDF K) (e : LevelFiles K) :
    (f.shiftSource e).isSome = true := by
  unfold shiftSource removeRangeDeletesAndSplitKeyFromLevel
  split_ifs
  · rfl
  · rfl
  · rw [Option.isSome_map]
    exact isSome_rangesOutside true _ _

theorem isSome_foldlM_shiftSource (f : PLRDF K) (entries : List (LevelFiles K)) :
    (entries.foldlM shiftSource f).isSome = true := by
  induction entries generalizing f with
  | nil => rfl
  | cons e es ih =>
    obtain ⟨g, hg⟩ := Option.isSome_iff_exists.mp (f.isSome_shiftSource e)
    rw [List.foldlM_cons, hg]
    exact ih g

/-- A shift exits on output ranges out of order and for no other reason. -/
theorem isSome_shiftRDFToOutputLevel (f : PLRDF K) (e : LevelFiles K) (es : List (LevelFiles K))
    (out : List (K × K)) :
    (f.shiftRDFToOutputLevel (e :: es) out).isSome = true ↔ StartSorted out := by
  obtain ⟨g, hg⟩ := Option.isSome_iff_exists.mp (f.isSome_foldlM_shiftSource (e :: es))
  simp only [shiftRDFToOutputLevel, hg, Option.bind_eq_bind, Option.bind_some]
  by_cases hempty : out = []
  · simp [hempty, StartSorted]
  · rw [if_neg hempty]
    unfold addRangeDeleteInternal addRangeDelete
    rw [Option.isSome_map, if_neg hempty]
    split_ifs with hsorted
    · simp [hsorted]
    · simp [hsorted]

theorem exists_shiftRDFToOutputLevel {f g : PLRDF K} {entries : List (LevelFiles K)}
    {out : List (K × K)} (h : f.shiftRDFToOutputLevel entries out = some g) (f' : PLRDF K) :
    ∃ g', f'.shiftRDFToOutputLevel entries out = some g' := by
  cases entries with
  | nil => exact ⟨f', rfl⟩
  | cons e es =>
    have hsome := (f.isSome_shiftRDFToOutputLevel e es out).mp (Option.isSome_of_eq_some h)
    exact Option.isSome_iff_exists.mp ((f'.isSome_shiftRDFToOutputLevel e es out).mpr hsome)

end Exits

variable {K : Type} [LinearOrder K] {f f' g g' : PLRDF K}

section Exits

theorem exists_applyFlush {d : FlushDelta K} (h : f.applyFlush d = some g) (f' : PLRDF K) :
    ∃ g', f'.applyFlush d = some g' := by
  unfold applyFlush insertRangeDeleteToLevel0 at h ⊢
  split_ifs at h ⊢
  · exact ⟨_, rfl⟩
  · exact ⟨_, rfl⟩

theorem exists_applySplitCompaction {entries : List (LevelFiles K)} {out : List (K × K)}
    {flag : Bool} {keys : List K} (h : f.applySplitCompaction entries out flag keys = some g)
    (f' : PLRDF K) : ∃ g', f'.applySplitCompaction entries out flag keys = some g' := by
  cases entries with
  | nil => exact ⟨f', rfl⟩
  | cons e es =>
    obtain ⟨mid, hmid, _⟩ := Option.bind_eq_some_iff.mp h
    obtain ⟨mid', hmid'⟩ := exists_shiftRDFToOutputLevel hmid f'
    exact ⟨_, by rw [applySplitCompaction, hmid']; rfl⟩

theorem exists_applyTopLevelCompaction {entries : List (LevelFiles K)}
    {out : Option (List (K × K))} {flag : Bool} {keys : List K}
    (h : f.applyTopLevelCompaction entries out flag keys = some g) (f' : PLRDF K) :
    ∃ g', f'.applyTopLevelCompaction entries out flag keys = some g' := by
  cases entries with
  | nil => exact ⟨f', rfl⟩
  | cons e es =>
    simp only [applyTopLevelCompaction] at h ⊢
    split_ifs at h ⊢
    · obtain ⟨ranges, hranges, hrest⟩ := Option.bind_eq_some_iff.mp h
      obtain ⟨mid, hmid, _⟩ := Option.bind_eq_some_iff.mp hrest
      obtain ⟨mid', hmid'⟩ := exists_shiftRDFToOutputLevel hmid f'
      exact ⟨_, by rw [hranges, Option.bind_eq_bind, Option.bind_some, hmid']; rfl⟩
    · exact ⟨f', rfl⟩

theorem exists_applyNumericCompaction {S : Type} {stoll : S → Option ℤ} {p q : PLRDF ℤ}
    {entries : List (LevelFiles ℤ)} {out : List (S × S)}
    (h : applyNumericCompaction stoll p entries out = some q) (p' : PLRDF ℤ) :
    ∃ q', applyNumericCompaction stoll p' entries out = some q' := by
  unfold applyNumericCompaction at h ⊢
  split_ifs at h ⊢
  · exact ⟨p', rfl⟩
  · obtain ⟨ranges, hranges, hshift⟩ := Option.bind_eq_some_iff.mp h
    rw [hranges]
    exact exists_shiftRDFToOutputLevel hshift p'

theorem exists_applyNumericSplitCompaction {S : Type} {stoll : S → Option ℤ} {p q : PLRDF ℤ}
    {entries : List (LevelFiles ℤ)} {out : List (S × S)}
    {flag : Bool} {keys : List ℤ}
    (h : applyNumericSplitCompaction stoll p entries out flag keys = some q) (p' : PLRDF ℤ) :
    ∃ q', applyNumericSplitCompaction stoll p' entries out flag keys = some q' := by
  unfold applyNumericSplitCompaction at h ⊢
  split_ifs at h ⊢
  · exact ⟨p', rfl⟩
  · obtain ⟨ranges, hranges, hshift⟩ := Option.bind_eq_some_iff.mp h
    rw [hranges]
    exact exists_applySplitCompaction hshift p'

end Exits

theorem AgreeAt.symm {key : K} (h : AgreeAt f g key) : AgreeAt g f key :=
  fun level => ⟨(h level).1.symm, (h level).2.symm⟩

theorem AgreeAt.trans {key : K} {h : PLRDF K} (hfg : AgreeAt f g key) (hgh : AgreeAt g h key) :
    AgreeAt f h key :=
  fun level => ⟨(hfg level).1.trans (hgh level).1, (hfg level).2.trans (hgh level).2⟩

section Compaction

variable {e : LevelFiles K} {es : List (LevelFiles K)} {out : List (K × K)} {key : K}

theorem AgreeAt.shiftRDFToOutputLevel (hagree : AgreeAt f f' key) (hf : f.WellFormed)
    (hf' : f'.WellFormed) (hout : Ascends out)
    (hwf : ∀ e' ∈ e :: es, ∀ b ∈ e'.boundaries, b.1 ≤ b.2)
    (h : f.shiftRDFToOutputLevel (e :: es) out = some g)
    (h' : f'.shiftRDFToOutputLevel (e :: es) out = some g') : AgreeAt g g' key := by
  obtain ⟨_, mid, hremoved, hcov, hkeys⟩ := hf.shiftRDFToOutputLevel hout hwf h
  obtain ⟨_, mid', hremoved', hcov', hkeys'⟩ := hf'.shiftRDFToOutputLevel hout hwf h'
  have hmid : ∀ level, key ∈ mid.levelCoverage level ↔ key ∈ mid'.levelCoverage level := by
    intro level
    by_cases hzero : level = 0
    · rw [hzero, hremoved.level0, hremoved'.level0]
      exact (hagree 0).1
    · rw [hremoved.deeper level hzero, hremoved'.deeper level hzero, Set.mem_sdiff,
        Set.mem_sdiff, (hagree level).1]
  intro level
  constructor
  · rw [hcov level, hcov' level]
    split_ifs
    · rw [Set.mem_union, Set.mem_union, hmid level]
    · exact hmid level
  · rw [hkeys level key, hkeys' level key, hmid level, (hagree level).2]

theorem AgreeAt.splitRangesOnLevel (hagree : AgreeAt f f' key) (hf : f.WellFormed)
    (hf' : f'.WellFormed) (n : ℕ) {keys : List K} (hkeys : keys.Pairwise (· ≤ ·)) :
    AgreeAt (f.splitRangesOnLevel n keys) (f'.splitRangesOnLevel n keys) key := by
  intro level
  refine ⟨by simpa using (hagree level).1, ?_⟩
  by_cases hlevel : level = n
  · rw [hlevel, (hf.splitRangesOnLevel n hkeys).2.2, (hf'.splitRangesOnLevel n hkeys).2.2,
      (hagree n).1, (hagree n).2]
  · rw [getSplitKeys_splitRangesOnLevel_of_ne hlevel, getSplitKeys_splitRangesOnLevel_of_ne hlevel]
    exact (hagree level).2

theorem AgreeAt.applySplitCompaction (hagree : AgreeAt f f' key) (hf : f.WellFormed)
    (hf' : f'.WellFormed) (hout : Ascends out)
    (hwf : ∀ e' ∈ e :: es, ∀ b ∈ e'.boundaries, b.1 ≤ b.2) {flag : Bool} {keys : List K}
    (hkeys : keys.Pairwise (· ≤ ·))
    (h : f.applySplitCompaction (e :: es) out flag keys = some g)
    (h' : f'.applySplitCompaction (e :: es) out flag keys = some g') : AgreeAt g g' key := by
  obtain ⟨mid, hmid, hsplit⟩ := Option.bind_eq_some_iff.mp h
  obtain ⟨mid', hmid', hsplit'⟩ := Option.bind_eq_some_iff.mp h'
  have hmidwf := (hf.shiftRDFToOutputLevel hout hwf hmid).1
  have hmidwf' := (hf'.shiftRDFToOutputLevel hout hwf hmid').1
  have hshift := hagree.shiftRDFToOutputLevel hf hf' hout hwf hmid hmid'
  simp only [Option.pure_def, Option.some.injEq] at hsplit hsplit'
  rw [← hsplit, ← hsplit']
  split_ifs
  · exact hshift.splitRangesOnLevel hmidwf hmidwf' e.olevel hkeys
  · exact hshift

theorem WellFormed.lookup_applySplitCompaction (hf : f.WellFormed) (hout : Ascends out)
    (hwf : ∀ e' ∈ e :: es, ∀ b ∈ e'.boundaries, b.1 ≤ b.2) {flag : Bool} {keys : List K}
    (h : f.applySplitCompaction (e :: es) out flag keys = some g) (n : ℕ) :
    g.rdFilterLevel0.lookup n =
      if n ∈ listedFiles (e :: es) then none else f.rdFilterLevel0.lookup n := by
  obtain ⟨mid, hmid, hsplit⟩ := Option.bind_eq_some_iff.mp h
  obtain ⟨rest, mid', hmid', _, hremoved, hmap, _⟩ :=
    f.shiftRDFToOutputLevel_spec e es hf.ordered hout hwf
  obtain rfl : mid = mid' := Option.some.inj (hmid.symm.trans hmid')
  simp only [Option.pure_def, Option.some.injEq] at hsplit
  rw [← hremoved.files n, ← hmap, ← hsplit]
  split_ifs
  · rw [rdFilterLevel0_splitRangesOnLevel]
  · rfl

end Compaction

end PLRDF

namespace RDFUpdateMetadata

variable {K : Type} [LinearOrder K]

/-- The keys of the files a compaction lists for the split filter, both ends of a file included,
and those its output ranges cover. -/
def reach (d : RDFUpdateMetadata K) : Set K :=
  {k | (∃ e ∈ d.splitPlrdfStringkeyCompactionDelta, ∃ x ∈ e.boundaries, x.1 ≤ k ∧ k ≤ x.2) ∨
    k ∈ coverage d.rangetombstonesOnOutputLevel}

def hull (d : RDFUpdateMetadata K) : Set K :=
  {k | ∃ x ∈ d.reach, ∃ y ∈ d.reach, x ≤ k ∧ k ≤ y}

theorem reach_subset_hull (d : RDFUpdateMetadata K) : d.reach ⊆ d.hull :=
  fun k hk => ⟨k, hk, k, hk, le_rfl, le_rfl⟩

theorem notMem_coverage_of_notMem_reach {d : RDFUpdateMetadata K} {k : K} (hk : k ∉ d.reach) :
    ∀ e ∈ d.splitPlrdfStringkeyCompactionDelta, k ∉ coverage e.boundaries := by
  intro e he hcov
  obtain ⟨x, hx, hstart, hstop⟩ := hcov
  exact hk (Or.inl ⟨e, he, x, hx, hstart, hstop.le⟩)

end RDFUpdateMetadata

namespace VersionRDFBundle

variable {K : Type} [LinearOrder K] {stoll : K → Option ℤ} {b b' x y : VersionRDFBundle K}
  {d d₁ d₂ : RDFUpdateMetadata K}

/-- A delta as a job builds it: the sampled keys are keys of the input files. -/
structure JobDelta (d : RDFUpdateMetadata K) : Prop extends ProperDelta d where
  fromInputs : ∀ k ∈ d.splitSampledKeysStr,
    ∃ e ∈ d.splitPlrdfStringkeyCompactionDelta, ∃ x ∈ e.boundaries, x.1 ≤ k ∧ k ≤ x.2

/-- Two jobs that may finish in either order: a flush and a compaction that does not name the
flushed file, or two compactions with disjoint hulls. -/
inductive Independent (d₁ d₂ : RDFUpdateMetadata K) : Prop
  | flushFirst (h₁ : d₁.type = .kFlush) (h₂ : d₂.IsCompaction)
      (hname : d₁.splitPlrdfStringkeyFlushDelta.fileNum ∉
        PLRDF.listedFiles d₂.splitPlrdfStringkeyCompactionDelta)
  | flushSecond (h₁ : d₁.IsCompaction) (h₂ : d₂.type = .kFlush)
      (hname : d₂.splitPlrdfStringkeyFlushDelta.fileNum ∉
        PLRDF.listedFiles d₁.splitPlrdfStringkeyCompactionDelta)
  | compactions (h₁ : d₁.IsCompaction) (h₂ : d₂.IsCompaction) (hhull : Disjoint d₁.hull d₂.hull)

theorem exists_applyFlushDelta (h : b.applyFlushDelta d = some x) (b' : VersionRDFBundle K) :
    ∃ y, b'.applyFlushDelta d = some y := by
  obtain ⟨h₁, h₂, h₃, h₄, h₅, h₆⟩ := flushParts h
  obtain ⟨_, h₁'⟩ := PLRDF.exists_applyFlush h₁ b'.plrdf
  obtain ⟨_, h₂'⟩ := PLRDF.exists_applyFlush h₂ b'.plrdfStringkey
  obtain ⟨_, h₃'⟩ := PLRDF.exists_applyFlush h₃ b'.splitPlrdf
  obtain ⟨_, h₄'⟩ := PLRDF.exists_applyFlush h₄ b'.splitPlrdfStringkey
  obtain ⟨_, h₅'⟩ := PLRDF.exists_applyFlush h₅ b'.topLevelRdf
  obtain ⟨_, h₆'⟩ := PLRDF.exists_applyFlush h₆ b'.topLevelRdfStringkey
  simp [applyFlushDelta, h₁', h₂', h₃', h₄', h₅', h₆']

theorem exists_applyCompactionDelta (h : b.applyCompactionDelta stoll d = some x)
    (b' : VersionRDFBundle K) : ∃ y, b'.applyCompactionDelta stoll d = some y := by
  obtain ⟨h₁, h₂, h₃, h₄, h₅, h₆⟩ := compactionParts h
  obtain ⟨_, h₁'⟩ := PLRDF.exists_applyNumericCompaction h₁ b'.plrdf
  obtain ⟨_, h₂'⟩ := PLRDF.exists_shiftRDFToOutputLevel h₂ b'.plrdfStringkey
  obtain ⟨_, h₃'⟩ := PLRDF.exists_applyNumericSplitCompaction h₃ b'.splitPlrdf
  obtain ⟨_, h₄'⟩ := PLRDF.exists_applySplitCompaction h₄ b'.splitPlrdfStringkey
  obtain ⟨_, h₅'⟩ := PLRDF.exists_applyTopLevelCompaction h₅ b'.topLevelRdf
  obtain ⟨_, h₆'⟩ := PLRDF.exists_applyTopLevelCompaction h₆ b'.topLevelRdfStringkey
  simp [applyCompactionDelta, h₁', h₂', h₃', h₄', h₅', h₆']

theorem applyDelta_of_flush (hd : d.type = .kFlush) :
    b.applyDelta stoll d = b.applyFlushDelta d := by
  unfold applyDelta
  rw [hd]

theorem Independent.exists_swap (h : Independent d₁ d₂) (hfirst : b.applyDelta stoll d₁ = some b')
    (hsecond : b'.applyDelta stoll d₂ = some x) :
    ∃ c y, b.applyDelta stoll d₂ = some c ∧ c.applyDelta stoll d₁ = some y := by
  have hother : ∃ c, b.applyDelta stoll d₂ = some c := by
    cases h with
    | flushFirst _ h₂ _ | compactions _ h₂ _ =>
      rw [applyDelta_of_isCompaction h₂] at hsecond ⊢
      exact exists_applyCompactionDelta hsecond b
    | flushSecond _ h₂ _ =>
      rw [applyDelta_of_flush h₂] at hsecond ⊢
      exact exists_applyFlushDelta hsecond b
  obtain ⟨c, hc⟩ := hother
  refine ⟨c, ?_⟩
  simp only [hc, true_and]
  cases h with
  | flushFirst h₁ _ _ =>
    rw [applyDelta_of_flush h₁] at hfirst ⊢
    exact exists_applyFlushDelta hfirst c
  | flushSecond h₁ _ _ | compactions h₁ _ _ =>
    rw [applyDelta_of_isCompaction h₁] at hfirst ⊢
    exact exists_applyCompactionDelta hfirst c

section Split

theorem agreeAt_applyCompactionDelta {key : K} (hd : ProperDelta d)
    (hb : b.splitPlrdfStringkey.WellFormed) (hb' : b'.splitPlrdfStringkey.WellFormed)
    (h : b.applyCompactionDelta stoll d = some x) (h' : b'.applyCompactionDelta stoll d = some y)
    (hagree : PLRDF.AgreeAt b.splitPlrdfStringkey b'.splitPlrdfStringkey key) :
    PLRDF.AgreeAt x.splitPlrdfStringkey y.splitPlrdfStringkey key := by
  have hsplit := (compactionParts h).splitPlrdfStringkey
  have hsplit' := (compactionParts h').splitPlrdfStringkey
  cases hentries : d.splitPlrdfStringkeyCompactionDelta with
  | nil =>
    rw [hentries] at hsplit hsplit'
    rw [← Option.some.inj hsplit, ← Option.some.inj hsplit']
    exact hagree
  | cons e es =>
    have hout := hd.ascends hentries h
    have hwf := hd.boundaries
    rw [hentries] at hsplit hsplit' hwf
    exact hagree.applySplitCompaction hb hb' hout hwf hd.sampled hsplit hsplit'

theorem agreeAt_of_notMem_reach {key : K} (hd : JobDelta d)
    (hb : b.splitPlrdfStringkey.WellFormed) (h : b.applyCompactionDelta stoll d = some x)
    (hkey : key ∉ d.reach) :
    PLRDF.AgreeAt x.splitPlrdfStringkey b.splitPlrdfStringkey key := by
  have hsplit := (compactionParts h).splitPlrdfStringkey
  have hlisted := RDFUpdateMetadata.notMem_coverage_of_notMem_reach hkey
  have hsampled : key ∉ d.splitSampledKeysStr := fun hk => hkey (Or.inl (hd.fromInputs key hk))
  cases hentries : d.splitPlrdfStringkeyCompactionDelta with
  | nil =>
    rw [hentries] at hsplit
    rw [← Option.some.inj hsplit]
    exact fun _ => ⟨Iff.rfl, Iff.rfl⟩
  | cons e es =>
    have hout := hd.ascends hentries h
    have hwf := hd.boundaries
    rw [hentries] at hsplit hwf hlisted
    exact hb.applySplitCompaction_frame hout hwf hd.sampled hsplit hlisted
      (fun hk => hkey (Or.inr hk)) hsampled

theorem lookup_applyCompactionDelta (hd : ProperDelta d) (hb : b.splitPlrdfStringkey.WellFormed)
    (h : b.applyCompactionDelta stoll d = some x) (n : ℕ) :
    x.splitPlrdfStringkey.rdFilterLevel0.lookup n =
      if n ∈ PLRDF.listedFiles d.splitPlrdfStringkeyCompactionDelta then none
      else b.splitPlrdfStringkey.rdFilterLevel0.lookup n := by
  have hsplit := (compactionParts h).splitPlrdfStringkey
  cases hentries : d.splitPlrdfStringkeyCompactionDelta with
  | nil =>
    rw [hentries] at hsplit
    rw [← Option.some.inj hsplit]
    simp [PLRDF.listedFiles]
  | cons e es =>
    have hout := hd.ascends hentries h
    have hwf := hd.boundaries
    rw [hentries] at hsplit hwf
    exact hb.lookup_applySplitCompaction hout hwf hsplit n

theorem splitPlrdfStringkey_of_flush (h : b.applyFlushDelta d = some x) :
    (∀ key, PLRDF.AgreeAt x.splitPlrdfStringkey b.splitPlrdfStringkey key) ∧
      ∀ n, x.splitPlrdfStringkey.rdFilterLevel0.lookup n =
        if d.splitPlrdfStringkeyFlushDelta.fileNum ≠ 0 ∧
          n = d.splitPlrdfStringkeyFlushDelta.fileNum
        then some (PLRDF.sortAndMerge d.splitPlrdfStringkeyFlushDelta.ranges)
        else b.splitPlrdfStringkey.rdFilterLevel0.lookup n := by
  have hflush := (flushParts h).splitPlrdfStringkey
  unfold PLRDF.applyFlush PLRDF.insertRangeDeleteToLevel0 at hflush
  split_ifs at hflush with hzero
  · rw [← Option.some.inj hflush]
    exact ⟨fun _ _ => ⟨Iff.rfl, Iff.rfl⟩, fun n => by simp [hzero]⟩
  · rw [← Option.some.inj hflush]
    refine ⟨fun _ _ => ⟨Iff.rfl, Iff.rfl⟩, fun n => ?_⟩
    by_cases hn : n = d.splitPlrdfStringkeyFlushDelta.fileNum
    · subst hn
      simp [hzero]
    · simp [hn, AList.lookup_insert_ne hn]

/-- Two filters with the same coverage and the same split keys on every level, and the same map
from level-0 files to ranges. -/
structure SameState (f g : PLRDF K) : Prop where
  coverage_eq : ∀ level, f.levelCoverage level = g.levelCoverage level
  mem_splitKeys : ∀ level key, key ∈ f.getSplitKeys level ↔ key ∈ g.getSplitKeys level
  lookup_eq : ∀ n, f.rdFilterLevel0.lookup n = g.rdFilterLevel0.lookup n

theorem SameState.symm {f g : PLRDF K} (h : SameState f g) : SameState g f :=
  ⟨fun level => (h.coverage_eq level).symm, fun level key => (h.mem_splitKeys level key).symm,
    fun n => (h.lookup_eq n).symm⟩

theorem SameState.of_agreeAt {f g : PLRDF K} (hagree : ∀ key, PLRDF.AgreeAt f g key)
    (hlookup : ∀ n, f.rdFilterLevel0.lookup n = g.rdFilterLevel0.lookup n) : SameState f g :=
  ⟨fun level => Set.ext fun key => (hagree key level).1, fun level key => (hagree key level).2,
    hlookup⟩

variable {c : VersionRDFBundle K}

theorem sameState_flush (hb : b.splitPlrdfStringkey.WellFormed) (hd₂ : ProperDelta d₂)
    (hname : d₁.splitPlrdfStringkeyFlushDelta.fileNum ∉
      PLRDF.listedFiles d₂.splitPlrdfStringkeyCompactionDelta)
    (hflush : b.applyFlushDelta d₁ = some b') (hx : b'.applyCompactionDelta stoll d₂ = some x)
    (hcompact : b.applyCompactionDelta stoll d₂ = some c) (hy : c.applyFlushDelta d₁ = some y) :
    SameState x.splitPlrdfStringkey y.splitPlrdfStringkey := by
  have hb' : b'.splitPlrdfStringkey.WellFormed := by
    have hstep := (flushParts hflush).splitPlrdfStringkey
    unfold PLRDF.applyFlush at hstep
    split_ifs at hstep
    · rw [← Option.some.inj hstep]
      exact hb
    · exact hb.insertRangeDeleteToLevel0 hstep
  obtain ⟨hagree, hlookup⟩ := splitPlrdfStringkey_of_flush hflush
  obtain ⟨hagree', hlookup'⟩ := splitPlrdfStringkey_of_flush hy
  refine SameState.of_agreeAt (fun key => ?_) (fun n => ?_)
  · have hmoved := agreeAt_applyCompactionDelta hd₂ hb' hb hx hcompact (hagree key)
    exact hmoved.trans (hagree' key).symm
  · rw [lookup_applyCompactionDelta hd₂ hb' hx, hlookup, hlookup',
      lookup_applyCompactionDelta hd₂ hb hcompact]
    by_cases hn : n = d₁.splitPlrdfStringkeyFlushDelta.fileNum
    · subst hn
      simp [hname]
    · simp [hn]

theorem sameState_compactions (hb : b.splitPlrdfStringkey.WellFormed) (hd₁ : JobDelta d₁)
    (hd₂ : JobDelta d₂) (hhull : Disjoint d₁.hull d₂.hull)
    (h₁ : b.applyCompactionDelta stoll d₁ = some b')
    (hx : b'.applyCompactionDelta stoll d₂ = some x)
    (h₂ : b.applyCompactionDelta stoll d₂ = some c)
    (hy : c.applyCompactionDelta stoll d₁ = some y) :
    SameState x.splitPlrdfStringkey y.splitPlrdfStringkey := by
  have hb' := wellFormed_applyCompactionDelta hb hd₁.toProperDelta h₁
  have hc := wellFormed_applyCompactionDelta hb hd₂.toProperDelta h₂
  refine SameState.of_agreeAt (fun key => ?_) (fun n => ?_)
  · -- one of the two jobs does not reach the key, and the other sees it as it was
    by_cases hkey : key ∈ d₁.reach
    · have haway : key ∉ d₂.reach := fun hk =>
        Set.disjoint_left.mp hhull (d₁.reach_subset_hull hkey) (d₂.reach_subset_hull hk)
      have hlate := agreeAt_of_notMem_reach hd₂ hb' hx haway
      have hearly := agreeAt_of_notMem_reach hd₂ hb h₂ haway
      have hmoved := agreeAt_applyCompactionDelta hd₁.toProperDelta hc hb hy h₁ hearly
      exact hlate.trans hmoved.symm
    · have hearly := agreeAt_of_notMem_reach hd₁ hb h₁ hkey
      have hlate := agreeAt_of_notMem_reach hd₁ hc hy hkey
      have hmoved := agreeAt_applyCompactionDelta hd₂.toProperDelta hb' hb hx h₂ hearly
      exact hmoved.trans hlate.symm
  · rw [lookup_applyCompactionDelta hd₂.toProperDelta hb' hx,
      lookup_applyCompactionDelta hd₁.toProperDelta hb h₁,
      lookup_applyCompactionDelta hd₁.toProperDelta hc hy,
      lookup_applyCompactionDelta hd₂.toProperDelta hb h₂]
    split_ifs
    · rfl
    · rfl
    · rfl
    · rfl

end Split

/-- Independent jobs give the same split filter whichever is applied first. -/
theorem applyDelta_comm {deltas : List (RDFUpdateMetadata K)}
    (hdeltas : ∀ d ∈ deltas, ProperDelta d)
    (hb : deltas.foldlM (applyDelta stoll) empty = some b) (hd₁ : JobDelta d₁) (hd₂ : JobDelta d₂)
    (h : Independent d₁ d₂)
    (hx : (b.applyDelta stoll d₁).bind (fun b' => b'.applyDelta stoll d₂) = some x) :
    ∃ y, (b.applyDelta stoll d₂).bind (fun b' => b'.applyDelta stoll d₁) = some y ∧
      (∀ level, x.splitPlrdfStringkey.levelCoverage level =
        y.splitPlrdfStringkey.levelCoverage level) ∧
      (∀ level key, key ∈ x.splitPlrdfStringkey.getSplitKeys level ↔
        key ∈ y.splitPlrdfStringkey.getSplitKeys level) ∧
      ∀ n, x.splitPlrdfStringkey.rdFilterLevel0.lookup n =
        y.splitPlrdfStringkey.rdFilterLevel0.lookup n := by
  have hwf := wellFormed_foldlM_applyDelta PLRDF.wellFormed_empty hdeltas hb
  obtain ⟨b', hfirst, hsecond⟩ := Option.bind_eq_some_iff.mp hx
  obtain ⟨c, y, hc, hy⟩ := h.exists_swap hfirst hsecond
  have hsame : SameState x.splitPlrdfStringkey y.splitPlrdfStringkey := by
    cases h with
    | flushFirst h₁ h₂ hname =>
      rw [applyDelta_of_flush h₁] at hfirst hy
      rw [applyDelta_of_isCompaction h₂] at hsecond hc
      exact sameState_flush hwf hd₂.toProperDelta hname hfirst hsecond hc hy
    | flushSecond h₁ h₂ hname =>
      rw [applyDelta_of_isCompaction h₁] at hfirst hy
      rw [applyDelta_of_flush h₂] at hsecond hc
      exact (sameState_flush hwf hd₁.toProperDelta hname hc hy hfirst hsecond).symm
    | compactions h₁ h₂ hhull =>
      rw [applyDelta_of_isCompaction h₁] at hfirst hy
      rw [applyDelta_of_isCompaction h₂] at hsecond hc
      exact sameState_compactions hwf hd₁ hd₂ hhull hfirst hsecond hc hy
  refine ⟨y, ?_, hsame.coverage_eq, hsame.mem_splitKeys, hsame.lookup_eq⟩
  rw [hc, Option.bind_some, hy]

/-- The right end of what `sampleSplitDelta` left on level 1 goes on to level 2, with 7 sampled. -/
def sampleSplitDeltaRight : RDFUpdateMetadata ℕ :=
  { type := .kCompaction
    splitFlag := true
    splitPlrdfStringkeyCompactionDelta := [⟨1, 2, [(6, 8)], [9]⟩]
    splitSampledKeysStr := [7]
    fdRangetombstonesInfo := some ⟨[⟨1, [9], [(6, 8)]⟩], 2, [⟨10, (6, 8)⟩]⟩ }

theorem independent_samples : Independent sampleSplitDeltaDown sampleSplitDeltaRight := by
  have hleft : ∀ k ∈ sampleSplitDeltaDown.reach, k ≤ 5 := by
    rintro k (⟨e, he, r, hr, _, hk⟩ | ⟨r, hr, _, hk⟩)
    · obtain rfl := List.mem_singleton.mp he
      obtain rfl := List.mem_singleton.mp hr
      exact hk
    · obtain rfl := List.mem_singleton.mp hr
      exact hk.le
  have hright : ∀ k ∈ sampleSplitDeltaRight.reach, 6 ≤ k := by
    rintro k (⟨e, he, r, hr, hk, _⟩ | ⟨r, hr, hk, _⟩)
    · obtain rfl := List.mem_singleton.mp he
      obtain rfl := List.mem_singleton.mp hr
      exact hk
    · obtain rfl := List.mem_singleton.mp hr
      exact hk
  refine .compactions (Or.inl rfl) (Or.inl rfl) (Set.disjoint_left.mpr ?_)
  rintro k ⟨_, _, y, hy, _, hle⟩ ⟨x, hx, _, _, hge, _⟩
  have hy := hleft y hy
  have hx := hright x hx
  omega

theorem applyDelta_comm_samples : ∃ b x y : VersionRDFBundle ℕ,
    [sampleSplitDelta].foldlM (applyDelta fun _ => none) empty = some b ∧
      (b.applyDelta (fun _ => none) sampleSplitDeltaDown).bind
        (fun b' => b'.applyDelta (fun _ => none) sampleSplitDeltaRight) = some x ∧
      (b.applyDelta (fun _ => none) sampleSplitDeltaRight).bind
        (fun b' => b'.applyDelta (fun _ => none) sampleSplitDeltaDown) = some y ∧
      x.splitPlrdfStringkey.levelCoverage 2 = y.splitPlrdfStringkey.levelCoverage 2 := by
  have hrun : (([sampleSplitDelta].foldlM (applyDelta fun _ => none) empty).bind fun b =>
      (b.applyDelta (fun _ => none) sampleSplitDeltaDown).bind
        (fun b' => b'.applyDelta (fun _ => none) sampleSplitDeltaRight)).isSome = true := by decide
  obtain ⟨x, hrun⟩ := Option.isSome_iff_exists.mp hrun
  obtain ⟨b, hb, hx⟩ := Option.bind_eq_some_iff.mp hrun
  have hdown : JobDelta sampleSplitDeltaDown := ⟨properDelta_samples.2, by decide⟩
  have hright : JobDelta sampleSplitDeltaRight :=
    ⟨⟨⟨by decide, by decide, by decide⟩, by decide⟩, by decide⟩
  obtain ⟨y, hy, hcov, _⟩ :=
    applyDelta_comm properDelta_samples.1 hb hdown hright independent_samples hx
  exact ⟨b, x, y, hb, hx, hy, hcov 2⟩

end VersionRDFBundle

end Spry
