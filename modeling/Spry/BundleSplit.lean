import Spry.BundleCoverage
import Spry.PLRDFSplit

/-!
# The split filter over deltas

What a compaction delta does to the split filter over string keys, and that every run of deltas
keeps the filter well formed.
-/

namespace Spry

open HalfOpen

variable {K : Type} [LinearOrder K]

namespace PLRDF

variable {f g : PLRDF K}

/-- After a compaction a key is alive on the output level exactly if it was sampled, or if no
output range covers it and it was alive there before or lies in an input file of that level. -/
theorem WellFormed.applySplitCompaction (hf : f.WellFormed) {e : LevelFiles K}
    {es : List (LevelFiles K)} {out : List (K × K)} {splitFlag : Bool} {sampledKeys : List K}
    (hout : Ascends out) (hwf : ∀ e' ∈ e :: es, ∀ b ∈ e'.boundaries, b.1 ≤ b.2)
    (hkeys : sampledKeys.Pairwise (· ≤ ·))
    (h : f.applySplitCompaction (e :: es) out splitFlag sampledKeys = some g) :
    g.WellFormed ∧ ∀ key, g.isEntryAlive e.olevel key = true ↔
      (splitFlag = true ∧ key ∈ sampledKeys) ∨
        (key ∉ coverage out ∧ (f.isEntryAlive e.olevel key = true ∨
          (e.olevel ≠ 0 ∧ key ∈ listedAt (e :: es) e.olevel))) := by
  obtain ⟨mid, hmid, hsplit⟩ := Option.bind_eq_some_iff.mp h
  obtain ⟨hmidwf, rest, hremoved, hcov, hold⟩ := hf.shiftRDFToOutputLevel hout hwf hmid
  have hrest : ∀ key, key ∉ rest.levelCoverage e.olevel ↔
      key ∉ f.levelCoverage e.olevel ∨ (e.olevel ≠ 0 ∧ key ∈ listedAt (e :: es) e.olevel) := by
    intro key
    by_cases hzero : e.olevel = 0
    · rw [hzero, hremoved.level0]
      simp
    · rw [hremoved.deeper e.olevel hzero]
      simp only [Set.mem_sdiff, ne_eq, hzero, not_false_eq_true, true_and]
      tauto
  have hmidalive : ∀ key, mid.isEntryAlive e.olevel key = true ↔
      key ∉ coverage out ∧ (f.isEntryAlive e.olevel key = true ∨
        (e.olevel ≠ 0 ∧ key ∈ listedAt (e :: es) e.olevel)) := by
    intro key
    have hkey := hrest key
    rw [hmidwf.isEntryAlive_iff, hf.isEntryAlive_iff, hold, hcov, if_pos rfl]
    simp only [Set.mem_union, true_imp_iff]
    tauto
  simp only [Option.pure_def, Option.some.injEq] at hsplit
  by_cases hflag : splitFlag = true ∧ sampledKeys ≠ []
  · rw [if_pos hflag] at hsplit
    subst hsplit
    obtain ⟨hwf', hcov', hkeys'⟩ := hmidwf.splitRangesOnLevel e.olevel hkeys
    refine ⟨hwf', ?_⟩
    intro key
    rw [← hmidalive key, hwf'.isEntryAlive_iff, hmidwf.isEntryAlive_iff, hkeys' key, hcov']
    simp only [hflag.1, true_and]
    tauto
  · rw [if_neg hflag] at hsplit
    subst hsplit
    refine ⟨hmidwf, ?_⟩
    intro key
    have hnone : ¬ (splitFlag = true ∧ key ∈ sampledKeys) :=
      fun h => hflag ⟨h.1, List.ne_nil_of_mem h.2⟩
    rw [hmidalive key]
    simp only [hnone, false_or]

theorem WellFormed.applyFlush (hf : f.WellFormed) {d : FlushDelta K}
    (h : f.applyFlush d = some g) :
    g.WellFormed ∧ ∀ level, g.levelCoverage level = f.levelCoverage level := by
  unfold PLRDF.applyFlush at h
  split_ifs at h
  · obtain rfl := Option.some.inj h
    exact ⟨hf, fun _ => rfl⟩
  · refine ⟨hf.insertRangeDeleteToLevel0 h, fun level => ?_⟩
    unfold PLRDF.insertRangeDeleteToLevel0 at h
    split_ifs at h
    obtain rfl := Option.some.inj h
    rfl

/-- Two filters agree at a key if on every level it is covered, and a split key, in both or in
neither. -/
def AgreeAt (f g : PLRDF K) (key : K) : Prop :=
  ∀ level, (key ∈ f.levelCoverage level ↔ key ∈ g.levelCoverage level) ∧
    (key ∈ f.getSplitKeys level ↔ key ∈ g.getSplitKeys level)

theorem AgreeAt.isEntryAlive_eq {key : K} (h : AgreeAt f g key) (hf : f.WellFormed)
    (hg : g.WellFormed) (level : ℕ) : f.isEntryAlive level key = g.isEntryAlive level key := by
  rw [Bool.eq_iff_iff, hf.isEntryAlive_iff, hg.isEntryAlive_iff, (h level).1, (h level).2]

theorem WellFormed.shiftRDFToOutputLevel_frame (hf : f.WellFormed) {e : LevelFiles K}
    {es : List (LevelFiles K)} {out : List (K × K)} (hout : Ascends out)
    (hwf : ∀ e' ∈ e :: es, ∀ b ∈ e'.boundaries, b.1 ≤ b.2)
    (h : f.shiftRDFToOutputLevel (e :: es) out = some g) {key : K}
    (hlisted : ∀ e' ∈ e :: es, key ∉ coverage e'.boundaries) (hkey : key ∉ coverage out) :
    AgreeAt g f key := by
  obtain ⟨_, mid, hremoved, hcov, hsplit⟩ := hf.shiftRDFToOutputLevel hout hwf h
  intro level
  have hmid : key ∈ mid.levelCoverage level ↔ key ∈ f.levelCoverage level := by
    by_cases hzero : level = 0
    · rw [hzero, hremoved.level0]
    · have hnot : key ∉ listedAt (e :: es) level := by
        intro hmem
        obtain ⟨e', he', _, hin⟩ := hmem
        exact hlisted e' he' hin
      rw [hremoved.deeper level hzero, Set.mem_sdiff, and_iff_left hnot]
  constructor
  · rw [hcov level]
    split_ifs
    · rw [Set.mem_union, or_iff_left hkey, hmid]
    · exact hmid
  · rw [hsplit level key, hmid, and_iff_left fun _ => hkey]
    exact and_iff_left_of_imp (hf.inside level key)

theorem WellFormed.mem_getSplitKeys_splitRangesOnLevel (hf : f.WellFormed) (n : ℕ) {keys : List K}
    (hkeys : keys.Pairwise (· ≤ ·)) {key : K} (hkey : key ∉ keys) (level : ℕ) :
    key ∈ (f.splitRangesOnLevel n keys).getSplitKeys level ↔ key ∈ f.getSplitKeys level := by
  by_cases hlevel : level = n
  · subst hlevel
    rw [(hf.splitRangesOnLevel level hkeys).2.2 key, or_iff_left hkey]
    exact and_iff_left_of_imp (hf.inside level key)
  · rw [getSplitKeys_splitRangesOnLevel_of_ne hlevel]

theorem WellFormed.applySplitCompaction_frame (hf : f.WellFormed) {e : LevelFiles K}
    {es : List (LevelFiles K)} {out : List (K × K)} {splitFlag : Bool} {sampledKeys : List K}
    (hout : Ascends out) (hwf : ∀ e' ∈ e :: es, ∀ b ∈ e'.boundaries, b.1 ≤ b.2)
    (hkeys : sampledKeys.Pairwise (· ≤ ·))
    (h : f.applySplitCompaction (e :: es) out splitFlag sampledKeys = some g) {key : K}
    (hlisted : ∀ e' ∈ e :: es, key ∉ coverage e'.boundaries) (hkey : key ∉ coverage out)
    (hsampled : key ∉ sampledKeys) : AgreeAt g f key := by
  obtain ⟨mid, hmid, hsplit⟩ := Option.bind_eq_some_iff.mp h
  have hmidwf := (hf.shiftRDFToOutputLevel hout hwf hmid).1
  have hframe := hf.shiftRDFToOutputLevel_frame hout hwf hmid hlisted hkey
  simp only [Option.pure_def, Option.some.injEq] at hsplit
  intro level
  rw [← (hframe level).1, ← (hframe level).2, ← hsplit]
  split_ifs
  · rw [levelCoverage_splitRangesOnLevel,
      hmidwf.mem_getSplitKeys_splitRangesOnLevel e.olevel hkeys hsampled]
    exact ⟨Iff.rfl, Iff.rfl⟩
  · exact ⟨Iff.rfl, Iff.rfl⟩

end PLRDF

def RDFUpdateMetadata.IsCompaction {K : Type} (d : RDFUpdateMetadata K) : Prop :=
  d.type = .kCompaction ∨ d.type = .kCompactionDirectMoved

instance {K : Type} (d : RDFUpdateMetadata K) : Decidable d.IsCompaction :=
  inferInstanceAs (Decidable (_ ∨ _))

namespace VersionRDFBundle

variable {stoll : K → Option ℤ} {b b' : VersionRDFBundle K} {d : RDFUpdateMetadata K}

theorem applyDelta_of_isCompaction (hd : d.IsCompaction) :
    b.applyDelta stoll d = b.applyCompactionDelta stoll d := by
  unfold applyDelta
  rcases hd with htype | htype
  · rw [htype]
  · rw [htype]

theorem applyDelta_cases (h : b.applyDelta stoll d = some b') :
    (d.type = .kFlush ∧ b.applyFlushDelta d = some b') ∨
      (d.IsCompaction ∧ b.applyCompactionDelta stoll d = some b') ∨
      (d.type = .kCompactionDirectRemoved ∧ b.applyDirectRemovalDelta d = some b') := by
  unfold applyDelta at h
  cases htype : d.type with
  | kFlush =>
    rw [htype] at h
    exact Or.inl ⟨rfl, h⟩
  | kCompaction =>
    rw [htype] at h
    exact Or.inr (Or.inl ⟨Or.inl htype, h⟩)
  | kCompactionDirectRemoved =>
    rw [htype] at h
    exact Or.inr (Or.inr ⟨rfl, h⟩)
  | kCompactionDirectMoved =>
    rw [htype] at h
    exact Or.inr (Or.inl ⟨Or.inr htype, h⟩)

/-- What a delta must list for the split filter over string keys to stay well formed. -/
structure SplitDelta (d : RDFUpdateMetadata K) : Prop where
  boundaries : ∀ e ∈ d.splitPlrdfStringkeyCompactionDelta, ∀ x ∈ e.boundaries, x.1 ≤ x.2
  output : Ordered d.rangetombstonesOnOutputLevel
  sampled : d.splitSampledKeysStr.Pairwise (· ≤ ·)

structure ProperDelta (d : RDFUpdateMetadata K) : Prop
    extends RDFUpdateMetadata.ProperRanges d.splitPlrdfStringkeyCompactionDelta d where
  sampled : d.splitSampledKeysStr.Pairwise (· ≤ ·)

/-- A compaction that does not exit adds its output ranges in the order of their starts. -/
theorem ProperDelta.ascends (hd : ProperDelta d) {e : LevelFiles K} {es : List (LevelFiles K)}
    (hentries : d.splitPlrdfStringkeyCompactionDelta = e :: es)
    (h : b.applyCompactionDelta stoll d = some b') : Ascends d.rangetombstonesOnOutputLevel := by
  have hsplit := (compactionParts h).splitPlrdfStringkey
  rw [hentries] at hsplit
  obtain ⟨g, hshift, _⟩ := Option.bind_eq_some_iff.mp hsplit
  exact PLRDF.ascends_of_shiftRDFToOutputLevel hd.nonempty hshift

theorem wellFormed_applyCompactionDelta (hb : b.splitPlrdfStringkey.WellFormed)
    (hd : ProperDelta d) (h : b.applyCompactionDelta stoll d = some b') :
    b'.splitPlrdfStringkey.WellFormed := by
  have hsplit := (compactionParts h).splitPlrdfStringkey
  cases hentries : d.splitPlrdfStringkeyCompactionDelta with
  | nil =>
    rw [hentries] at hsplit
    rw [← Option.some.inj hsplit]
    exact hb
  | cons e es =>
    rw [hentries] at hsplit
    exact (hb.applySplitCompaction (hd.ascends hentries h) (hentries ▸ hd.boundaries)
      hd.sampled hsplit).1

theorem wellFormed_applyDelta (hb : b.splitPlrdfStringkey.WellFormed) (hd : ProperDelta d)
    (h : b.applyDelta stoll d = some b') : b'.splitPlrdfStringkey.WellFormed := by
  rcases applyDelta_cases h with ⟨_, h⟩ | ⟨_, h⟩ | ⟨_, h⟩
  · exact (hb.applyFlush (flushParts h).splitPlrdfStringkey).1
  · exact wellFormed_applyCompactionDelta hb hd h
  · exact (hb.foldlM_deleteRDF hd.boundaries (removalParts h).splitPlrdfStringkey).1

/-- Whatever deltas a version has gone through, its split filter over string keys is well
formed. -/
theorem wellFormed_foldlM_applyDelta (hb : b.splitPlrdfStringkey.WellFormed)
    {deltas : List (RDFUpdateMetadata K)} (hd : ∀ d ∈ deltas, ProperDelta d)
    (h : deltas.foldlM (applyDelta stoll) b = some b') : b'.splitPlrdfStringkey.WellFormed := by
  induction deltas generalizing b with
  | nil =>
    cases h
    exact hb
  | cons d deltas ih =>
    obtain ⟨mid, hmid, hrest⟩ := Option.bind_eq_some_iff.mp h
    exact ih (wellFormed_applyDelta hb (hd d List.mem_cons_self) hmid)
      (fun d' hd' => hd d' (List.mem_cons_of_mem d hd')) hrest

theorem wellFormed_plrdfStringkey_applyDelta (hb : b.plrdfStringkey.WellFormed)
    (hd : d.ProperRanges d.plrdfStringkeyCompactionDelta)
    (h : b.applyDelta stoll d = some b') : b'.plrdfStringkey.WellFormed := by
  rcases applyDelta_cases h with ⟨_, h⟩ | ⟨_, h⟩ | ⟨_, h⟩
  · exact (hb.applyFlush (flushParts h).plrdfStringkey).1
  · have hshift := (compactionParts h).plrdfStringkey
    have hwf := hd.boundaries
    cases hentries : d.plrdfStringkeyCompactionDelta with
    | nil =>
      rw [hentries] at hshift
      exact Option.some.inj hshift ▸ hb
    | cons e es =>
      rw [hentries] at hshift hwf
      exact (hb.levelCoverage_shiftRDF hd.nonempty hwf hshift).1
  · exact (hb.foldlM_deleteRDF hd.boundaries (removalParts h).plrdfStringkey).1

/-- After a compaction that splits, every sampled key is alive on the output level, and nothing
changes on any level for a key outside of the listed boundaries and the output ranges that was
not sampled. -/
theorem applyCompactionDelta_isEntryAlive_frame {deltas : List (RDFUpdateMetadata K)}
    (hdeltas : ∀ d ∈ deltas, ProperDelta d)
    (hb : deltas.foldlM (applyDelta stoll) empty = some b) (hd : ProperDelta d)
    (hflag : d.splitFlag = true) {e : LevelFiles K} {es : List (LevelFiles K)}
    (hentries : d.splitPlrdfStringkeyCompactionDelta = e :: es)
    (h : b.applyCompactionDelta stoll d = some b') :
    (∀ k ∈ d.splitSampledKeysStr, b'.splitPlrdfStringkey.isEntryAlive e.olevel k = true) ∧
      ∀ level k, (∀ e' ∈ d.splitPlrdfStringkeyCompactionDelta, k ∉ coverage e'.boundaries) →
        k ∉ coverage d.rangetombstonesOnOutputLevel → k ∉ d.splitSampledKeysStr →
        b'.splitPlrdfStringkey.isEntryAlive level k =
          b.splitPlrdfStringkey.isEntryAlive level k := by
  have hbwf := wellFormed_foldlM_applyDelta PLRDF.wellFormed_empty hdeltas hb
  have hout := hd.ascends hentries h
  have hsplit := (compactionParts h).splitPlrdfStringkey
  have hwf := hd.boundaries
  rw [hentries] at hsplit hwf ⊢
  constructor
  · intro k hk
    have halive := (hbwf.applySplitCompaction hout hwf hd.sampled hsplit).2 k
    exact halive.mpr (Or.inl ⟨hflag, hk⟩)
  · intro level k hlisted hkey hsampled
    have hwf' := (hbwf.applySplitCompaction hout hwf hd.sampled hsplit).1
    have hframe := hbwf.applySplitCompaction_frame hout hwf hd.sampled hsplit hlisted hkey hsampled
    exact hframe.isEntryAlive_eq hwf' hbwf level

def sampleSplitDelta : RDFUpdateMetadata ℕ :=
  { type := .kCompaction
    splitFlag := true
    splitPlrdfStringkeyCompactionDelta := [⟨0, 1, [(2, 9)], [5]⟩]
    splitSampledKeysStr := [4]
    fdRangetombstonesInfo := some ⟨[⟨0, [5], [(2, 9)]⟩], 1, [⟨6, (0, 20)⟩]⟩ }

def sampleSplitDeltaDown : RDFUpdateMetadata ℕ :=
  { type := .kCompaction
    splitFlag := true
    splitPlrdfStringkeyCompactionDelta := [⟨1, 2, [(2, 5)], [6]⟩]
    splitSampledKeysStr := [3]
    fdRangetombstonesInfo := some ⟨[⟨1, [6], [(2, 5)]⟩], 2, [⟨7, (0, 5)⟩]⟩ }

theorem properDelta_samples :
    (∀ d ∈ [sampleSplitDelta], ProperDelta d) ∧ ProperDelta sampleSplitDeltaDown := by
  constructor
  · intro d hd
    obtain rfl := List.mem_singleton.mp hd
    exact ⟨⟨by decide, by decide, by decide⟩, by decide⟩
  · exact ⟨⟨by decide, by decide, by decide⟩, by decide⟩

theorem applyCompactionDelta_isEntryAlive_frame_sample : ∃ b b' : VersionRDFBundle ℕ,
    [sampleSplitDelta].foldlM (applyDelta fun _ => none) empty = some b ∧
      b.applyCompactionDelta (fun _ => none) sampleSplitDeltaDown = some b' ∧
      b'.splitPlrdfStringkey.isEntryAlive 2 3 = true ∧
      b'.splitPlrdfStringkey.isEntryAlive 1 7 = b.splitPlrdfStringkey.isEntryAlive 1 7 := by
  have hrun : (([sampleSplitDelta].foldlM (applyDelta fun _ => none) empty).bind fun b =>
      b.applyCompactionDelta (fun _ => none) sampleSplitDeltaDown).isSome = true := by decide
  obtain ⟨b', hrun⟩ := Option.isSome_iff_exists.mp hrun
  obtain ⟨b, hb, hb'⟩ := Option.bind_eq_some_iff.mp hrun
  obtain ⟨hsampled, hframe⟩ := applyCompactionDelta_isEntryAlive_frame properDelta_samples.1 hb
    properDelta_samples.2 rfl rfl hb'
  exact ⟨b, b', hb, hb', hsampled 3 (by decide),
    hframe 1 7 (by decide) (by decide) (by decide)⟩

/-- What every run of deltas keeps of the split filter over string keys. -/
theorem splitPlrdfStringkey_invariants {deltas : List (RDFUpdateMetadata K)}
    (hdeltas : ∀ d ∈ deltas, ProperDelta d)
    (hb : deltas.foldlM (applyDelta stoll) empty = some b) :
    (∀ ranges ∈ b.splitPlrdfStringkey.rdFilter, ranges.Pairwise (fun x y => x.1 < y.1) ∧
      (∀ r ∈ ranges, r.1 < r.2) ∧
      ranges.Pairwise (fun x y => Disjoint (Set.Ico x.1 x.2) (Set.Ico y.1 y.2))) ∧
    (∀ level, (b.splitPlrdfStringkey.getSplitKeys level).Pairwise (· < ·) ∧
      ∀ k ∈ b.splitPlrdfStringkey.getSplitKeys level,
        ∃ r ∈ b.splitPlrdfStringkey.getLevelRanges level, r.1 ≤ k ∧ k < r.2) ∧
    b.splitPlrdfStringkey.rdFilter.length = b.splitPlrdfStringkey.splitKeys.length ∧
    ∀ level < b.splitPlrdfStringkey.rdFilter.length, ∀ key,
      b.splitPlrdfStringkey.isEntryAlive level key = false ↔
        (∃ r ∈ b.splitPlrdfStringkey.getLevelRanges level, r.1 ≤ key ∧ key < r.2) ∧
          key ∉ b.splitPlrdfStringkey.getSplitKeys level := by
  have hwf := wellFormed_foldlM_applyDelta PLRDF.wellFormed_empty hdeltas hb
  refine ⟨fun ranges hranges => ?_, fun level => ⟨hwf.sorted level, hwf.inside level⟩,
    hwf.length_eq.symm, fun level _ key => ?_⟩
  · have hord := PLRDF.levelsOrdered_iff.mp hwf.ordered ranges hranges
    refine ⟨hord.disjoint.imp_of_mem ?_, hord.nonempty, hord.disjoint.imp ?_⟩
    · intro x y hx _ hxy
      exact (hord.nonempty x hx).trans_le hxy
    · intro x y hxy
      rw [Set.disjoint_left]
      intro k hk hk'
      exact absurd (hk.2.trans_le hxy) (not_lt.mpr hk'.1)
  · rw [← Bool.not_eq_true, hwf.isEntryAlive_iff, not_or, not_not]
    rfl

theorem splitPlrdfStringkey_invariants_sample : ∃ b : VersionRDFBundle ℕ,
    [sampleSplitDelta].foldlM (applyDelta fun _ => none) empty = some b ∧
      b.splitPlrdfStringkey.rdFilter.length = 2 ∧
      ((∃ r ∈ b.splitPlrdfStringkey.getLevelRanges 1, r.1 ≤ 5 ∧ 5 < r.2) ∧
        5 ∉ b.splitPlrdfStringkey.getSplitKeys 1) := by
  have hrun : (([sampleSplitDelta].foldlM (applyDelta fun _ => none) empty).map fun b =>
      (b.splitPlrdfStringkey.rdFilter.length, b.splitPlrdfStringkey.isEntryAlive 1 5)) =
      some (2, false) := by decide
  obtain ⟨b, hb, heq⟩ := Option.map_eq_some_iff.mp hrun
  obtain ⟨hlength, halive⟩ := Prod.mk.inj heq
  obtain ⟨_, _, _, hdeleted⟩ := splitPlrdfStringkey_invariants properDelta_samples.1 hb
  exact ⟨b, hb, hlength, (hdeleted 1 (by omega) 5).mp halive⟩

end VersionRDFBundle

end Spry
