import Spry.BundleSplit

/-!
# Compaction deltas on the top-level filter

The top-level filter follows a compaction from level 0 only if the job splits and has sampled a
key. Otherwise the delta leaves it as it is, and the tombstones that moved to level 1 are not
recorded there.
-/

namespace Spry

open HalfOpen

variable {K : Type} [LinearOrder K]

namespace PLRDF

variable {f g : PLRDF K} {e : LevelFiles K} {es : List (LevelFiles K)} {out : List (K × K)}

/-- The coverage of level 1 loses the tombstones listed for it and gains the output ranges, and
the level-0 map loses the listed files. -/
def MovesToLevel1 (f g : PLRDF K) (entries : List (LevelFiles K)) (out : List (K × K)) : Prop :=
  g.levelCoverage 1 = (f.levelCoverage 1 \ listedAt entries 1) ∪ coverage out ∧
    ∀ n ∈ listedFiles entries, n ∉ g.rdFilterLevel0

theorem applyTopLevelCompaction_eq (hclevel : e.clevel = 0) (splitFlag : Bool)
    (sampledKeys : List K) :
    f.applyTopLevelCompaction (e :: es) (some out) splitFlag sampledKeys =
      if splitFlag = true ∧ sampledKeys ≠ [] then
        (f.shiftRDFToOutputLevel (e :: es) out).map fun g => g.splitRangesOnLevel 1 sampledKeys
      else some f := by
  simp only [applyTopLevelCompaction, hclevel, and_true, Option.bind_eq_bind, Option.bind_some,
    Option.pure_def]
  split_ifs
  · rw [Option.map_eq_bind]
    rfl
  · rfl

theorem movesToLevel1_of_guard (hf : f.LevelsOrdered) (hclevel : e.clevel = 0)
    (holevel : e.olevel = 1) (hwf : ∀ e' ∈ e :: es, ∀ b ∈ e'.boundaries, b.1 ≤ b.2)
    (hne : ∀ r ∈ out, r.1 < r.2) {splitFlag : Bool} {sampledKeys : List K}
    (hguard : splitFlag = true ∧ sampledKeys ≠ [])
    (h : f.applyTopLevelCompaction (e :: es) (some out) splitFlag sampledKeys = some g) :
    MovesToLevel1 f g (e :: es) out := by
  rw [applyTopLevelCompaction_eq hclevel, if_pos hguard] at h
  obtain ⟨mid, hmid, rfl⟩ := Option.map_eq_some_iff.mp h
  have hout := ascends_of_shiftRDFToOutputLevel hne hmid
  obtain ⟨rest, mid', hmid', _, hremoved, hmap, hcov⟩ :=
    f.shiftRDFToOutputLevel_spec e es hf hout hwf
  obtain rfl : mid = mid' := Option.some.inj (hmid.symm.trans hmid')
  constructor
  · rw [levelCoverage_splitRangesOnLevel, hcov 1, if_pos holevel.symm,
      hremoved.deeper 1 Nat.one_ne_zero]
  · intro n hn hmem
    rw [rdFilterLevel0_splitRangesOnLevel, hmap, ← AList.lookup_isSome, hremoved.files n,
      if_pos hn] at hmem
    cases hmem

end PLRDF

namespace VersionRDFBundle

variable {stoll : K → Option ℤ} {b b' : VersionRDFBundle K} {d : RDFUpdateMetadata K}

/-- A compaction from level 0 to level 1 is recorded in the top-level filter exactly if the job
splits and has sampled a key, or if there was nothing to record. -/
theorem topLevelRdfStringkey_movesToLevel1_iff {e : LevelFiles K} {es : List (LevelFiles K)}
    (hentries : d.topLevelPlrdfStringkeyCompactionDelta = e :: es) (hclevel : e.clevel = 0)
    (holevel : e.olevel = 1) (hord : b.topLevelRdfStringkey.LevelsOrdered)
    (hd : d.ProperRanges (e :: es)) (h : b.applyCompactionDelta stoll d = some b') :
    PLRDF.MovesToLevel1 b.topLevelRdfStringkey b'.topLevelRdfStringkey (e :: es)
        d.rangetombstonesOnOutputLevel ↔
      (d.splitFlag = true ∧ d.splitSampledKeysStr ≠ []) ∨
        PLRDF.MovesToLevel1 b.topLevelRdfStringkey b.topLevelRdfStringkey (e :: es)
          d.rangetombstonesOnOutputLevel := by
  have htop := (compactionParts h).topLevelRdfStringkey
  rw [hentries] at htop
  by_cases hguard : d.splitFlag = true ∧ d.splitSampledKeysStr ≠ []
  · have hmoves := PLRDF.movesToLevel1_of_guard hord hclevel holevel hd.boundaries hd.nonempty
      hguard htop
    exact iff_of_true hmoves (Or.inl hguard)
  · rw [PLRDF.applyTopLevelCompaction_eq hclevel, if_neg hguard] at htop
    rw [← Option.some.inj htop, or_iff_right hguard]

/-- File 5 with the tombstone `[2, 5)` is flushed into the top-level filter. -/
def sampleTopLevelFlush : RDFUpdateMetadata ℕ :=
  { type := .kFlush, topLevelPlrdfStringkeyFlushDelta := ⟨5, [(2, 5)], []⟩ }

def sampleTopLevelCompaction (sampledKeys : List ℕ) : RDFUpdateMetadata ℕ :=
  { type := .kCompaction
    splitFlag := true
    topLevelPlrdfStringkeyCompactionDelta := [⟨0, 1, [(2, 5)], [5]⟩]
    splitSampledKeysStr := sampledKeys
    fdRangetombstonesInfo := some ⟨[⟨0, [5], [(2, 5)]⟩], 1, [⟨6, (0, 9)⟩]⟩ }

theorem topLevelRdfStringkey_movesToLevel1_sample : ∃ b b' : VersionRDFBundle ℕ,
    empty.applyDelta (fun _ => none) sampleTopLevelFlush = some b ∧
      b.applyCompactionDelta (fun _ => none) (sampleTopLevelCompaction [3]) = some b' ∧
      PLRDF.MovesToLevel1 b.topLevelRdfStringkey b'.topLevelRdfStringkey [⟨0, 1, [(2, 5)], [5]⟩]
        (sampleTopLevelCompaction [3]).rangetombstonesOnOutputLevel := by
  have hrun : ((empty.applyDelta (fun _ => none) sampleTopLevelFlush).bind fun b =>
      if b.topLevelRdfStringkey.LevelsOrdered then
        b.applyCompactionDelta (fun _ => none) (sampleTopLevelCompaction [3])
      else none).isSome = true := by decide
  obtain ⟨b', hrun⟩ := Option.isSome_iff_exists.mp hrun
  obtain ⟨b, hb, hb'⟩ := Option.bind_eq_some_iff.mp hrun
  obtain ⟨hord, hb'⟩ := Option.ite_none_right_eq_some.mp hb'
  refine ⟨b, b', hb, hb', ?_⟩
  apply (topLevelRdfStringkey_movesToLevel1_iff rfl rfl rfl hord _ hb').mpr
  · exact Or.inl (by decide)
  · exact ⟨by decide, by decide, by decide⟩

/-- With no sampled key the range is lost at level 1 and the file stays in the level-0 map. -/
theorem topLevelRdfStringkey_misses_compaction :
    3 ∈ coverage (sampleTopLevelCompaction []).rangetombstonesOnOutputLevel ∧
      ((empty.applyDelta (fun _ => none) sampleTopLevelFlush).bind fun b =>
        (b.applyCompactionDelta (fun _ => none) (sampleTopLevelCompaction [])).map fun b' =>
          (decide (3 ∈ b'.topLevelRdfStringkey.levelCoverage 1),
            decide (5 ∈ b'.topLevelRdfStringkey.rdFilterLevel0))) = some (false, true) := by
  decide

end VersionRDFBundle

end Spry
