import Spry.BundleCoverage

/-!
# Trivial moves

A compaction whose input files overlap nothing on the output level moves the files instead of
rewriting them. The delta it hands to the filters lists the files under their old level and their
tombstones as input tombstones, but lists no output file, so the clip against the output files
leaves no range to add.
-/

namespace Spry

open HalfOpen

/-- The metadata of a table file, and the tombstones its range tombstone iterator yields. -/
structure FileMetaData (K : Type) [LinearOrder K] where
  number : ℕ
  smallest : K
  largest : K
  rangeTombstones : List (K × K)
  smallest_le_largest : smallest ≤ largest

structure CompactionInputFiles (K : Type) [LinearOrder K] where
  level : ℕ
  files : List (FileMetaData K)

variable {K : Type} [LinearOrder K]

namespace CompactionInputFiles

def boundaries (input : CompactionInputFiles K) : List (K × K) :=
  input.files.map (fun f => (f.smallest, f.largest))

def fileNumbers (input : CompactionInputFiles K) : List ℕ :=
  input.files.map (fun f => f.number)

def rangeTombstonesStr (input : CompactionInputFiles K) : List (K × K) :=
  input.files.flatMap (fun f => f.rangeTombstones)

end CompactionInputFiles

/-- The delta of a trivial move when the system uses string keys. Input levels equal to the
output level are skipped. -/
def trivialMoveDelta (types : List RdfType) (outputLevel : ℕ)
    (inputs : List (CompactionInputFiles K)) : RDFUpdateMetadata K :=
  let moved := inputs.filter (fun input => input.level ≠ outputLevel)
  let fileMetaDataVectorsStringkey := moved.map fun input =>
    (⟨input.level, outputLevel, input.boundaries, input.fileNumbers⟩ : LevelFiles K)
  let fileMetaDataVectorsToplevelStringkey := moved.map fun input =>
    (⟨input.level, outputLevel, input.rangeTombstonesStr, input.fileNumbers⟩ : LevelFiles K)
  { type := .kCompactionDirectMoved
    splitFlag := false
    plrdfStringkeyCompactionDelta :=
      if .plrdfStringKey ∈ types then fileMetaDataVectorsStringkey else []
    splitPlrdfStringkeyCompactionDelta :=
      if .splitPlrdfStringKey ∈ types then fileMetaDataVectorsStringkey else []
    topLevelPlrdfStringkeyCompactionDelta :=
      if .topLevelRdfStringKey ∈ types then fileMetaDataVectorsToplevelStringkey else []
    fdRangetombstonesInfo :=
      some
        { srcLevelInfoList := moved.map fun input =>
            ⟨input.level, input.fileNumbers, input.rangeTombstonesStr⟩
          dstLevel := outputLevel
          dstLevelInfoList := [] } }

theorem rangetombstonesOnOutputLevel_trivialMoveDelta (types : List RdfType) (outputLevel : ℕ)
    (inputs : List (CompactionInputFiles K)) :
    (trivialMoveDelta types outputLevel inputs).rangetombstonesOnOutputLevel = [] := by
  rw [RDFUpdateMetadata.rangetombstonesOnOutputLevel_eq]
  rfl

/-- The filters after a trivial move: only the source levels of the string-key filters change,
and nothing is added anywhere. -/
theorem applyDelta_trivialMoveDelta (stoll : K → Option ℤ) (b : VersionRDFBundle K)
    (types : List RdfType) (outputLevel : ℕ) (inputs : List (CompactionInputFiles K)) :
    b.applyDelta stoll (trivialMoveDelta types outputLevel inputs) = do
      let d := trivialMoveDelta types outputLevel inputs
      let plrdfStringkey ←
        b.plrdfStringkey.shiftRDFToOutputLevel d.plrdfStringkeyCompactionDelta []
      let splitPlrdfStringkey ←
        b.splitPlrdfStringkey.shiftRDFToOutputLevel d.splitPlrdfStringkeyCompactionDelta []
      return { b with plrdfStringkey, splitPlrdfStringkey } := by
  have hout := rangetombstonesOnOutputLevel_trivialMoveDelta types outputLevel inputs
  have hflag : (trivialMoveDelta types outputLevel inputs).splitFlag = false := rfl
  have hplrdf : (trivialMoveDelta types outputLevel inputs).plrdfCompactionDelta = [] := rfl
  have hsplit : (trivialMoveDelta types outputLevel inputs).splitPlrdfCompactionDelta = [] := rfl
  change b.applyCompactionDelta stoll _ = _
  simp only [VersionRDFBundle.applyCompactionDelta, hout, hflag, hplrdf, hsplit,
    PLRDF.applyNumericCompaction_nil, PLRDF.applyNumericSplitCompaction_nil,
    PLRDF.applySplitCompaction_false, PLRDF.applyTopLevelCompaction_false,
    Option.bind_eq_bind, Option.bind_some, Option.pure_def]

section Move

variable (i j : ℕ) (files : List (FileMetaData K))

def movedKeys (files : List (FileMetaData K)) : Set K :=
  coverage (files.flatMap (fun f => f.rangeTombstones))

instance (files : List (FileMetaData K)) (k : K) : Decidable (k ∈ movedKeys files) :=
  inferInstanceAs (Decidable (k ∈ coverage _))

/-- What a move of files from level `i` to level `j` must do to a filter. -/
structure MovesCoverage (f f' : PLRDF K) : Prop where
  gained : ∀ k ∈ movedKeys files, k ∈ f'.levelCoverage j
  lost : i ≠ 0 → ∀ k ∈ movedKeys files, k ∉ f'.levelCoverage i
  lostFiles : i = 0 → ∀ file ∈ files, f'.rdFilterLevel0.lookup file.number = none
  otherLevels : ∀ level, level ≠ i → level ≠ j → f'.levelCoverage level = f.levelCoverage level
  otherFiles : ∀ n, (i = 0 → ∀ file ∈ files, file.number ≠ n) →
    f'.rdFilterLevel0.lookup n = f.rdFilterLevel0.lookup n

/-- The moved keys are on level `j` already, and a deeper source level covers them only inside
the half-open boundaries of the moved files. -/
def CoverageInPlace (f : PLRDF K) : Prop :=
  ∀ k ∈ movedKeys files, k ∈ f.levelCoverage j ∧
    (i ≠ 0 → k ∈ f.levelCoverage i → k ∈ coverage (files.map (fun f => (f.smallest, f.largest))))

variable {i j files}

/-- The source level of a trivial move as the delta lists it. -/
def movedLevel (i j : ℕ) (files : List (FileMetaData K)) : LevelFiles K :=
  let input : CompactionInputFiles K := ⟨i, files⟩
  ⟨i, j, input.boundaries, input.fileNumbers⟩

theorem shift_movedLevel_spec (f : PLRDF K) (hf : f.LevelsOrdered) :
    ∃ g, f.shiftRDFToOutputLevel [movedLevel i j files] [] = some g ∧
      f.SourcesRemoved g [movedLevel i j files] := by
  have hwf : ∀ e ∈ [movedLevel i j files], ∀ x ∈ e.boundaries, x.1 ≤ x.2 := by
    intro e he x hx
    rw [List.mem_singleton] at he
    subst he
    obtain ⟨file, _, rfl⟩ := List.mem_map.mp hx
    exact file.smallest_le_largest
  obtain ⟨g, hg, _, hrem⟩ := f.foldlM_shiftSource_spec _ hf hwf
  exact ⟨g, by simp [PLRDF.shiftRDFToOutputLevel, hg], hrem⟩

theorem movesCoverage_iff {f g : PLRDF K} (hij : i < j)
    (hrem : f.SourcesRemoved g [movedLevel i j files]) :
    MovesCoverage i j files f g ↔ CoverageInPlace i j files f := by
  have hlisted : ∀ level, level ≠ i → PLRDF.listedAt [movedLevel i j files] level = ∅ := by
    intro level hne
    apply PLRDF.listedAt_eq_empty
    simpa [movedLevel] using hne.symm
  have hother : ∀ level, level ≠ i → g.levelCoverage level = f.levelCoverage level := by
    intro level hne
    cases level with
    | zero => exact hrem.level0
    | succ level => rw [hrem.deeper _ (by omega), hlisted _ hne, Set.sdiff_empty]
  have hsource : i ≠ 0 → ∀ k, k ∈ g.levelCoverage i ↔ k ∈ f.levelCoverage i ∧
      k ∉ coverage (files.map (fun f => (f.smallest, f.largest))) := by
    intro hi k
    rw [hrem.deeper i hi]
    simp [PLRDF.listedAt, movedLevel, CompactionInputFiles.boundaries]
  constructor
  · intro h k hk
    refine ⟨?_, ?_⟩
    · rw [← hother j (by omega)]
      exact h.gained k hk
    · intro hi hcov
      by_contra hout
      exact h.lost hi k hk ((hsource hi k).mpr ⟨hcov, hout⟩)
  · intro h
    refine ⟨?_, ?_, ?_, ?_, ?_⟩
    · intro k hk
      rw [hother j (by omega)]
      exact (h k hk).1
    · intro hi k hk hcov
      obtain ⟨hcov, hout⟩ := (hsource hi k).mp hcov
      exact hout ((h k hk).2 hi hcov)
    · intro hi file hfile
      rw [hrem.files, if_pos]
      exact ⟨movedLevel i j files, by simp, hi, List.mem_map_of_mem hfile⟩
    · intro level hne _
      exact hother level hne
    · intro n hn
      rw [hrem.files, if_neg]
      intro hmem
      obtain ⟨e, he, hzero, hin⟩ := hmem
      rw [List.mem_singleton] at he
      subst he
      obtain ⟨file, hfile, hnum⟩ := List.mem_map.mp hin
      exact hn hzero file hfile hnum

end Move

/-- A trivial move returns, and conserves the coverage of its tombstones exactly when there was
nothing left to move. -/
theorem applyDelta_trivialMove_movesCoverage (stoll : K → Option ℤ) (b : VersionRDFBundle K)
    (types : List RdfType) (i j : ℕ) (files : List (FileMetaData K)) (hij : i < j)
    (hord : b.plrdfStringkey.LevelsOrdered) (hsplit : b.splitPlrdfStringkey.LevelsOrdered) :
    ∃ b', b.applyDelta stoll (trivialMoveDelta types j [⟨i, files⟩]) = some b' ∧
      (.plrdfStringKey ∈ types →
        (MovesCoverage i j files b.plrdfStringkey b'.plrdfStringkey ↔
          CoverageInPlace i j files b.plrdfStringkey)) ∧
      (.splitPlrdfStringKey ∈ types →
        (MovesCoverage i j files b.splitPlrdfStringkey b'.splitPlrdfStringkey ↔
          CoverageInPlace i j files b.splitPlrdfStringkey)) := by
  have hne : i ≠ j := by omega
  have hshift : ∀ (f : PLRDF K) (type : RdfType), f.LevelsOrdered →
      ∃ g, f.shiftRDFToOutputLevel (if type ∈ types then [movedLevel i j files] else []) [] =
          some g ∧
        (type ∈ types → (MovesCoverage i j files f g ↔ CoverageInPlace i j files f)) := by
    intro f type hf
    obtain ⟨g, hg, hrem⟩ := shift_movedLevel_spec f hf
    by_cases htype : type ∈ types
    · exact ⟨g, by rw [if_pos htype, hg], fun _ => movesCoverage_iff hij hrem⟩
    · exact ⟨f, by rw [if_neg htype, PLRDF.shiftRDFToOutputLevel_nil], fun h => absurd h htype⟩
  obtain ⟨g, hg, hmoved⟩ := hshift b.plrdfStringkey .plrdfStringKey hord
  obtain ⟨g', hg', hmoved'⟩ := hshift b.splitPlrdfStringkey .splitPlrdfStringKey hsplit
  refine ⟨{ b with plrdfStringkey := g, splitPlrdfStringkey := g' }, ?_, hmoved, hmoved'⟩
  rw [applyDelta_trivialMoveDelta]
  have hfilter : [(⟨i, files⟩ : CompactionInputFiles K)].filter (fun input => input.level ≠ j) =
      [⟨i, files⟩] := by simp [hne]
  simp only [trivialMoveDelta, hfilter, List.map_cons, List.map_nil]
  simp only [movedLevel] at hg hg'
  simp [hg, hg']

def movedFile (number : ℕ) : FileMetaData ℕ := ⟨number, 1, 6, [(2, 4)], by decide⟩

def movedFileFlush : RDFUpdateMetadata ℕ :=
  { type := .kFlush
    plrdfStringkeyFlushDelta := ⟨7, (movedFile 7).rangeTombstones, []⟩
    splitPlrdfStringkeyFlushDelta := ⟨7, (movedFile 7).rangeTombstones, []⟩ }

/-- A file is flushed to level 0 and then moved to level 1: neither filter covers the keys of
its tombstone on level 1. -/
theorem trivialMove_loses_coverage :
    ∃ b b', VersionRDFBundle.empty.applyDelta (fun _ => none) movedFileFlush = some b ∧
      b.plrdfStringkey.LevelsOrdered ∧ b.splitPlrdfStringkey.LevelsOrdered ∧
      b.applyDelta (fun _ => none)
        (trivialMoveDelta [.plrdfStringKey, .splitPlrdfStringKey] 1 [⟨0, [movedFile 7]⟩]) =
          some b' ∧
      3 ∈ movedKeys [movedFile 7] ∧ 3 ∉ b'.plrdfStringkey.levelCoverage 1 ∧
      3 ∉ b'.splitPlrdfStringkey.levelCoverage 1 := by
  exact ⟨_, _, rfl, by decide, by decide, rfl, by decide, by decide, by decide⟩

theorem applyDelta_trivialMove_movesCoverage_sample :
    ∃ b', VersionRDFBundle.sampleBundle.applyDelta (fun _ => none)
        (trivialMoveDelta [.plrdfStringKey] 1 [⟨0, [movedFile 7]⟩]) = some b' ∧
      MovesCoverage 0 1 [movedFile 7] VersionRDFBundle.sampleBundle.plrdfStringkey
        b'.plrdfStringkey := by
  obtain ⟨b', hb', hmoved, _⟩ :=
    applyDelta_trivialMove_movesCoverage (fun _ => none) VersionRDFBundle.sampleBundle
      [.plrdfStringKey] 0 1 [movedFile 7] (by decide) (by decide) (by decide)
  refine ⟨b', hb', (hmoved (by decide)).mpr ?_⟩
  intro k hk
  refine ⟨?_, fun h => absurd rfl h⟩
  -- level 1 of the sample covers the moved tombstone already
  simp only [movedKeys, movedFile, List.flatMap_cons, List.flatMap_nil, List.append_nil,
    coverage_cons, coverage_nil, Set.union_empty] at hk
  change k ∈ coverage [(2, 4), (7, 9)]
  rw [coverage_cons]
  exact Or.inl hk

end Spry
