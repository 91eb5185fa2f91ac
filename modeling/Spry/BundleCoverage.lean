import Spry.Bundle
import Spry.PLRDFCoverage

/-!
# Compaction deltas on the string-key filter

The output ranges of a compaction are its input tombstones, sorted, merged and clipped by the
output files, and cover what both cover. Applied to a filter whose levels are ordered, the delta
replaces the listed parts of the source levels by these ranges on the output level.
-/

namespace Spry

open HalfOpen

variable {K : Type}

namespace RDFUpdateMetadata

def inputTombstones (d : RDFUpdateMetadata K) : List (K × K) :=
  match d.fdRangetombstonesInfo with
  | none => []
  | some info => info.inputTombstones

def outputBoundaries (d : RDFUpdateMetadata K) : List (K × K) :=
  match d.fdRangetombstonesInfo with
  | none => []
  | some info => info.dstBoundaries

def withoutPlrdfStringkey (d : RDFUpdateMetadata K) : RDFUpdateMetadata K :=
  { d with plrdfStringkeyCompactionDelta := [] }

/-- The delta lists source levels for the string-key filter and for no other. -/
structure OnlyPlrdfStringkey (d : RDFUpdateMetadata K) : Prop where
  plrdf : d.plrdfCompactionDelta = []
  splitPlrdf : d.splitPlrdfCompactionDelta = []
  topLevelPlrdf : d.topLevelPlrdfCompactionDelta = []
  splitPlrdfStringkey : d.splitPlrdfStringkeyCompactionDelta = []
  topLevelPlrdfStringkey : d.topLevelPlrdfStringkeyCompactionDelta = []

variable [LinearOrder K]

theorem rangetombstonesOnOutputLevel_eq (d : RDFUpdateMetadata K) :
    d.rangetombstonesOnOutputLevel =
      clip (coalesceAll (sortPairs d.inputTombstones)) d.outputBoundaries := by
  unfold rangetombstonesOnOutputLevel inputTombstones outputBoundaries
  cases d.fdRangetombstonesInfo with
  | none => rfl
  | some info =>
    simp only [getOutputLevelRangeTombstonesFilteredByFileRanges]
    split_ifs with hempty
    · rw [hempty, clip_nil_left]
    · rfl

theorem rangetombstonesOnOutputLevel_spec (d : RDFUpdateMetadata K)
    (hin : ∀ t ∈ d.inputTombstones, t.1 < t.2)
    (hsorted : d.outputBoundaries.Pairwise (fun a b => a.2 ≤ b.1))
    (hwf : ∀ b ∈ d.outputBoundaries, b.1 ≤ b.2) :
    Ordered d.rangetombstonesOnOutputLevel ∧
      coverage d.rangetombstonesOnOutputLevel =
        coverage d.inputTombstones ∩ coverage d.outputBoundaries := by
  have hsort := startSorted_sortPairs d.inputTombstones
  have hperm := sortPairs_perm d.inputTombstones
  have hmerged : Ordered (coalesceAll (sortPairs d.inputTombstones)) :=
    ordered_coalesceAll hsort (fun t ht => hin t (hperm.mem_iff.mp ht))
  rw [rangetombstonesOnOutputLevel_eq]
  refine ⟨(ordered_clip hmerged hsorted hwf).1, ?_⟩
  rw [coverage_clip hmerged hsorted hwf, coverage_coalesceAll hsort, coverage_perm hperm]

/-- A delta of proper ranges: the boundaries listed for the source levels and those of the
output files do not end before they start, and no input tombstone is empty. -/
structure ProperRanges (entries : List (LevelFiles K)) (d : RDFUpdateMetadata K) : Prop where
  boundaries : ∀ e ∈ entries, ∀ x ∈ e.boundaries, x.1 ≤ x.2
  tombstones : ∀ t ∈ d.inputTombstones, t.1 < t.2
  outputs : ∀ x ∈ d.outputBoundaries, x.1 ≤ x.2

theorem ProperRanges.nonempty {entries : List (LevelFiles K)} {d : RDFUpdateMetadata K}
    (hd : ProperRanges entries d) : ∀ r ∈ d.rangetombstonesOnOutputLevel, r.1 < r.2 := by
  rw [rangetombstonesOnOutputLevel_eq]
  apply nonempty_clip _ hd.outputs
  apply ordered_coalesceAll (startSorted_sortPairs d.inputTombstones)
  intro t ht
  exact hd.tombstones t ((sortPairs_perm d.inputTombstones).mem_iff.mp ht)

theorem ProperRanges.of_info {entries : List (LevelFiles K)}
    {d : RDFUpdateMetadata K} (hd : ProperRanges entries d) {info : MovingRDInfo K}
    (hinfo : d.fdRangetombstonesInfo = some info) :
    Ordered (coalesceAll (sortPairs info.inputTombstones)) ∧
      (∀ dst ∈ info.destinations, dst.2.1 ≤ dst.2.2) ∧
      d.rangetombstonesOnOutputLevel = clip (coalesceAll (sortPairs info.inputTombstones))
        (info.destinations.map Prod.snd) := by
  have hin : d.inputTombstones = info.inputTombstones := by
    rw [inputTombstones, hinfo]
  have hbounds : d.outputBoundaries = info.destinations.map Prod.snd := by
    rw [outputBoundaries, hinfo, MovingRDInfo.destinations, List.map_map]
    rfl
  refine ⟨?_, ?_, ?_⟩
  · apply ordered_coalesceAll (startSorted_sortPairs info.inputTombstones)
    intro r hr
    exact hd.tombstones r (hin ▸ (sortPairs_perm info.inputTombstones).mem_iff.mp hr)
  · intro dst hdst
    exact hd.outputs dst.2 (hbounds ▸ List.mem_map_of_mem hdst)
  · rw [rangetombstonesOnOutputLevel_eq, hin, hbounds]

def inputsAt (d : RDFUpdateMetadata K) (level : ℕ) : Set ℕ :=
  {fd | d.type ≠ .kFlush ∧
    ∃ e ∈ d.plrdfStringkeyCompactionDelta, e.clevel = level ∧ fd ∈ e.files}

def inside (boundary : ℕ → K × K) (files : Set ℕ) : Set K :=
  {k | ∃ fd ∈ files, k ∈ Set.Ico (boundary fd).1 (boundary fd).2}

theorem listedAt_eq_inside {d : RDFUpdateMetadata K} {boundary : ℕ → K × K} {level : ℕ}
    (htype : d.type ≠ .kFlush)
    (h : ∀ e ∈ d.plrdfStringkeyCompactionDelta, e.clevel = level →
      e.boundaries = e.files.map boundary) :
    PLRDF.listedAt d.plrdfStringkeyCompactionDelta level = inside boundary (d.inputsAt level) := by
  ext k
  constructor
  · rintro ⟨e, he, hlevel, r, hr, hk⟩
    rw [h e he hlevel] at hr
    obtain ⟨fd, hfd, rfl⟩ := List.mem_map.mp hr
    exact ⟨fd, ⟨htype, e, he, hlevel, hfd⟩, hk⟩
  · rintro ⟨fd, ⟨_, e, he, hlevel, hfd⟩, hk⟩
    refine ⟨e, he, hlevel, boundary fd, ?_, hk⟩
    rw [h e he hlevel]
    exact List.mem_map_of_mem hfd

end RDFUpdateMetadata

namespace PLRDF

theorem applyNumericCompaction_nil (stoll : K → Option ℤ) (f : PLRDF ℤ) (out : List (K × K)) :
    applyNumericCompaction stoll f [] out = some f := rfl

theorem applyNumericSplitCompaction_nil (stoll : K → Option ℤ) (f : PLRDF ℤ)
    (out : List (K × K)) (flag : Bool) (keys : List ℤ) :
    applyNumericSplitCompaction stoll f [] out flag keys = some f := rfl

variable [LinearOrder K]

theorem shiftRDFToOutputLevel_nil (f : PLRDF K) (out : List (K × K)) :
    f.shiftRDFToOutputLevel [] out = some f := rfl

theorem applySplitCompaction_nil (f : PLRDF K) (out : List (K × K)) (flag : Bool)
    (keys : List K) : f.applySplitCompaction [] out flag keys = some f := rfl

theorem applyTopLevelCompaction_nil (f : PLRDF K) (out : Option (List (K × K))) (flag : Bool)
    (keys : List K) : f.applyTopLevelCompaction [] out flag keys = some f := rfl

theorem applySplitCompaction_false (f : PLRDF K) (entries : List (LevelFiles K))
    (out : List (K × K)) (keys : List K) :
    f.applySplitCompaction entries out false keys = f.shiftRDFToOutputLevel entries out := by
  cases entries with
  | nil => rfl
  | cons e es => simp [applySplitCompaction]

theorem applyTopLevelCompaction_false (f : PLRDF K) (entries : List (LevelFiles K))
    (out : Option (List (K × K))) (keys : List K) :
    f.applyTopLevelCompaction entries out false keys = some f := by
  cases entries with
  | nil => rfl
  | cons e es => simp [applyTopLevelCompaction]

end PLRDF

namespace VersionRDFBundle

variable [LinearOrder K] (stoll : K → Option ℤ) (b : VersionRDFBundle K)
  (d : RDFUpdateMetadata K)

section Projection

variable {stoll} {b} {d} {b' : VersionRDFBundle K}

structure FlushParts (b : VersionRDFBundle K) (d : RDFUpdateMetadata K)
    (b' : VersionRDFBundle K) : Prop where
  plrdf : b.plrdf.applyFlush d.plrdfFlushDelta = some b'.plrdf
  plrdfStringkey : b.plrdfStringkey.applyFlush d.plrdfStringkeyFlushDelta = some b'.plrdfStringkey
  splitPlrdf : b.splitPlrdf.applyFlush d.splitPlrdfFlushDelta = some b'.splitPlrdf
  splitPlrdfStringkey :
    b.splitPlrdfStringkey.applyFlush d.splitPlrdfStringkeyFlushDelta = some b'.splitPlrdfStringkey
  topLevelRdf : b.topLevelRdf.applyFlush d.topLevelPlrdfFlushDelta = some b'.topLevelRdf
  topLevelRdfStringkey : b.topLevelRdfStringkey.applyFlush d.topLevelPlrdfStringkeyFlushDelta =
    some b'.topLevelRdfStringkey

theorem flushParts (h : b.applyFlushDelta d = some b') : FlushParts b d b' := by
  simp only [applyFlushDelta, Option.bind_eq_bind, Option.bind_eq_some_iff, Option.pure_def,
    Option.some.injEq] at h
  obtain ⟨_, h₁, _, h₂, _, h₃, _, h₄, _, h₅, _, h₆, rfl⟩ := h
  exact ⟨h₁, h₂, h₃, h₄, h₅, h₆⟩

structure CompactionParts (stoll : K → Option ℤ) (b : VersionRDFBundle K)
    (d : RDFUpdateMetadata K) (b' : VersionRDFBundle K) : Prop where
  plrdf : PLRDF.applyNumericCompaction stoll b.plrdf d.plrdfCompactionDelta
    d.rangetombstonesOnOutputLevel = some b'.plrdf
  plrdfStringkey : b.plrdfStringkey.shiftRDFToOutputLevel d.plrdfStringkeyCompactionDelta
    d.rangetombstonesOnOutputLevel = some b'.plrdfStringkey
  splitPlrdf : PLRDF.applyNumericSplitCompaction stoll b.splitPlrdf d.splitPlrdfCompactionDelta
    d.rangetombstonesOnOutputLevel d.splitFlag d.splitSampledKeys = some b'.splitPlrdf
  splitPlrdfStringkey : b.splitPlrdfStringkey.applySplitCompaction
    d.splitPlrdfStringkeyCompactionDelta d.rangetombstonesOnOutputLevel d.splitFlag
      d.splitSampledKeysStr = some b'.splitPlrdfStringkey
  topLevelRdf : b.topLevelRdf.applyTopLevelCompaction d.topLevelPlrdfCompactionDelta
    (stollRanges stoll d.rangetombstonesOnOutputLevel) d.splitFlag d.splitSampledKeys =
      some b'.topLevelRdf
  topLevelRdfStringkey : b.topLevelRdfStringkey.applyTopLevelCompaction
    d.topLevelPlrdfStringkeyCompactionDelta (some d.rangetombstonesOnOutputLevel) d.splitFlag
      d.splitSampledKeysStr = some b'.topLevelRdfStringkey

theorem compactionParts (h : b.applyCompactionDelta stoll d = some b') :
    CompactionParts stoll b d b' := by
  simp only [applyCompactionDelta, Option.bind_eq_bind, Option.bind_eq_some_iff, Option.pure_def,
    Option.some.injEq] at h
  obtain ⟨_, h₁, _, h₂, _, h₃, _, h₄, _, h₅, _, h₆, rfl⟩ := h
  exact ⟨h₁, h₂, h₃, h₄, h₅, h₆⟩

/-- What a direct removal that returns has done to each filter it touches. -/
structure RemovalParts (b : VersionRDFBundle K) (d : RDFUpdateMetadata K)
    (b' : VersionRDFBundle K) : Prop where
  plrdf : d.plrdfCompactionDelta.foldlM PLRDF.deleteRDFAssociatedWithFilesAtCurrentLevel b.plrdf =
    some b'.plrdf
  plrdfStringkey : d.plrdfStringkeyCompactionDelta.foldlM
    PLRDF.deleteRDFAssociatedWithFilesAtCurrentLevel b.plrdfStringkey = some b'.plrdfStringkey
  splitPlrdf : d.splitPlrdfCompactionDelta.foldlM
    PLRDF.deleteRDFAssociatedWithFilesAtCurrentLevel b.splitPlrdf = some b'.splitPlrdf
  splitPlrdfStringkey : d.splitPlrdfStringkeyCompactionDelta.foldlM
    PLRDF.deleteRDFAssociatedWithFilesAtCurrentLevel b.splitPlrdfStringkey =
      some b'.splitPlrdfStringkey

theorem removalParts (h : b.applyDirectRemovalDelta d = some b') : RemovalParts b d b' := by
  simp only [applyDirectRemovalDelta, Option.bind_eq_bind, Option.bind_eq_some_iff,
    Option.pure_def, Option.some.injEq] at h
  obtain ⟨_, h₁, _, h₂, _, h₃, _, h₄, rfl⟩ := h
  exact ⟨h₁, h₂, h₃, h₄⟩

end Projection

/-- If the update of the string-key filter returns, the whole update does what it would do
without it, and then stores that filter. -/
theorem applyCompactionDelta_eq_map {g : PLRDF K}
    (hg : b.plrdfStringkey.shiftRDFToOutputLevel d.plrdfStringkeyCompactionDelta
      d.rangetombstonesOnOutputLevel = some g) :
    b.applyCompactionDelta stoll d =
      (b.applyCompactionDelta stoll d.withoutPlrdfStringkey).map
        (fun b' => { b' with plrdfStringkey := g }) := by
  simp only [applyCompactionDelta, hg, RDFUpdateMetadata.withoutPlrdfStringkey,
    PLRDF.shiftRDFToOutputLevel_nil, Option.map_bind, Function.comp_def, Option.bind_eq_bind,
    Option.bind_some, Option.pure_def, Option.map_some]
  rfl

theorem applyCompactionDelta_withoutPlrdfStringkey (hd : d.OnlyPlrdfStringkey) :
    b.applyCompactionDelta stoll d.withoutPlrdfStringkey = some b := by
  simp [applyCompactionDelta, RDFUpdateMetadata.withoutPlrdfStringkey, hd.plrdf, hd.splitPlrdf,
    hd.topLevelPlrdf, hd.splitPlrdfStringkey, hd.topLevelPlrdfStringkey,
    PLRDF.shiftRDFToOutputLevel_nil, PLRDF.applyNumericCompaction_nil,
    PLRDF.applyNumericSplitCompaction_nil, PLRDF.applySplitCompaction_nil,
    PLRDF.applyTopLevelCompaction_nil]

/-- A compaction delta on the string-key filter never exits. Apart from the other filters, the
output level loses the boundaries listed for it and gains what the input tombstones cover inside
the output files, every other level loses the boundaries listed for it, and the level-0 map loses
the listed files. -/
theorem applyCompactionDelta_plrdfStringkey {e : LevelFiles K} {es : List (LevelFiles K)}
    (hd : d.plrdfStringkeyCompactionDelta = e :: es) (holevel : 1 ≤ e.olevel)
    (hord : b.plrdfStringkey.LevelsOrdered)
    (hlisted : ∀ e' ∈ e :: es, ∀ x ∈ e'.boundaries, x.1 ≤ x.2)
    (hin : ∀ t ∈ d.inputTombstones, t.1 < t.2)
    (hsorted : d.outputBoundaries.Pairwise (fun x y => x.2 ≤ y.1))
    (hwf : ∀ x ∈ d.outputBoundaries, x.1 ≤ x.2) :
    ∃ g : PLRDF K,
      b.applyCompactionDelta stoll d =
        (b.applyCompactionDelta stoll d.withoutPlrdfStringkey).map
          (fun b' => { b' with plrdfStringkey := g }) ∧
      (d.OnlyPlrdfStringkey →
        b.applyCompactionDelta stoll d = some { b with plrdfStringkey := g }) ∧
      g.levelCoverage e.olevel =
        (b.plrdfStringkey.levelCoverage e.olevel \ PLRDF.listedAt (e :: es) e.olevel) ∪
          (coverage d.inputTombstones ∩ coverage d.outputBoundaries) ∧
      (∀ level, 1 ≤ level → level ≠ e.olevel → g.levelCoverage level =
        b.plrdfStringkey.levelCoverage level \ PLRDF.listedAt (e :: es) level) ∧
      g.levelCoverage 0 = b.plrdfStringkey.levelCoverage 0 ∧
      (∀ level, level ≠ e.olevel → (∀ e' ∈ e :: es, e'.clevel ≠ level) →
        g.levelCoverage level = b.plrdfStringkey.levelCoverage level) ∧
      ∀ n, g.rdFilterLevel0.lookup n =
        if n ∈ PLRDF.listedFiles (e :: es) then none
        else b.plrdfStringkey.rdFilterLevel0.lookup n := by
  obtain ⟨hout, hcov⟩ := d.rangetombstonesOnOutputLevel_spec hin hsorted hwf
  obtain ⟨mid, g, hg, _, hrem, hmap, hlevels⟩ :=
    b.plrdfStringkey.shiftRDFToOutputLevel_spec e es hord hout.ascends hlisted
  rw [← hd] at hg
  have heq := b.applyCompactionDelta_eq_map stoll d hg
  have hother : ∀ level, level ≠ e.olevel → g.levelCoverage level = mid.levelCoverage level := by
    intro level hne
    rw [hlevels level, if_neg hne]
  have hzero : g.levelCoverage 0 = b.plrdfStringkey.levelCoverage 0 := by
    rw [hother 0 (by omega), hrem.level0]
  refine ⟨g, heq, ?_, ?_, ?_, hzero, ?_, ?_⟩
  · intro honly
    rw [heq, b.applyCompactionDelta_withoutPlrdfStringkey stoll d honly]
    rfl
  · rw [hlevels e.olevel, if_pos rfl, hrem.deeper e.olevel (by omega), hcov]
  · intro level hpos hne
    rw [hother level hne, hrem.deeper level (by omega)]
  · intro level hne hnone
    cases level with
    | zero => exact hzero
    | succ level =>
      rw [hother _ hne, hrem.deeper _ (by omega), PLRDF.listedAt_eq_empty hnone,
        Set.sdiff_empty]
  · intro n
    rw [hmap, hrem.files n]

/-- Level 1 covers `[2, 4)` and `[7, 9)`, and file 5 is at level 0. -/
def sampleBundle : VersionRDFBundle ℕ :=
  { empty with
    plrdfStringkey :=
      ⟨(∅ : AList (fun _ : ℕ => List (ℕ × ℕ))).insert 5 [(5, 9)],
        [[], [(2, 4), (7, 9)]], [[], []]⟩ }

/-- File 5 is compacted with a level-1 file over `[3, 8]` into two files. -/
def sampleDelta : RDFUpdateMetadata ℕ :=
  { type := .kCompaction
    plrdfStringkeyCompactionDelta := [⟨0, 1, [(5, 9)], [5]⟩, ⟨1, 1, [(3, 8)], [6]⟩]
    fdRangetombstonesInfo :=
      some ⟨[⟨0, [5], [(5, 9), (1, 2)]⟩], 1, [⟨8, (0, 6)⟩, ⟨9, (8, 10)⟩]⟩ }

theorem applyCompactionDelta_plrdfStringkey_sample :
    ∃ g : PLRDF ℕ,
      sampleBundle.applyCompactionDelta (fun _ => none) sampleDelta =
        some { sampleBundle with plrdfStringkey := g } ∧
      5 ∈ g.levelCoverage 1 ∧ 3 ∉ g.levelCoverage 1 ∧ g.rdFilterLevel0.lookup 5 = none := by
  obtain ⟨g, _, honly, hcov, _, _, _, hfiles⟩ :=
    sampleBundle.applyCompactionDelta_plrdfStringkey (fun _ => none) sampleDelta rfl
      (by decide) (by decide) (by decide) (by decide) (by decide) (by decide)
  refine ⟨g, honly ⟨rfl, rfl, rfl, rfl, rfl⟩, ?_, ?_, ?_⟩
  · exact hcov ▸ Or.inr ⟨by decide, by decide⟩
  · intro h
    rw [hcov] at h
    revert h
    decide
  · rw [hfiles 5]
    decide

end VersionRDFBundle

end Spry
