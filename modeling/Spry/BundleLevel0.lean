import Spry.BundleSplit

/-!
# Level 0 of the string-key filter

Ranges at level 0 are held per file, except for those of a compaction into level 0, which go to
the range list of the level. Taking files out of level 0 only erases them from the map, so the
range list of level 0 never loses anything.
-/

namespace Spry

open HalfOpen

variable {K : Type} [LinearOrder K]

namespace RDFUpdateMetadata

def outputFiles (d : RDFUpdateMetadata K) : List ℕ :=
  match d.fdRangetombstonesInfo with
  | none => []
  | some info => info.dstLevelInfoList.map (fun dst => dst.fd)

def intoLevel0 (d : RDFUpdateMetadata K) : Prop :=
  (d.type = .kCompaction ∨ d.type = .kCompactionDirectMoved) ∧
    d.plrdfStringkeyCompactionDelta.head?.map LevelFiles.olevel = some 0

instance (d : RDFUpdateMetadata K) : Decidable d.intoLevel0 :=
  inferInstanceAs (Decidable (_ ∧ _))

/-- The files that are at level 0 because of the delta: a flushed one, or the output files of a
compaction into level 0. -/
def level0Outputs (d : RDFUpdateMetadata K) : List ℕ :=
  if d.type = .kFlush ∧ d.plrdfStringkeyFlushDelta.fileNum ≠ 0 then
    [d.plrdfStringkeyFlushDelta.fileNum]
  else if d.intoLevel0 then d.outputFiles
  else []

def level0Inputs (d : RDFUpdateMetadata K) : Set ℕ :=
  {n | d.type ≠ .kFlush ∧ n ∈ PLRDF.listedFiles d.plrdfStringkeyCompactionDelta}

def level0Ranges (d : RDFUpdateMetadata K) : List (K × K) :=
  if d.intoLevel0 then d.rangetombstonesOnOutputLevel else []

end RDFUpdateMetadata

def Level0Consumed : List (RDFUpdateMetadata K) → Prop
  | [] => True
  | d :: later =>
    (∀ n ∈ d.level0Outputs, ∃ d' ∈ later, n ∈ d'.level0Inputs) ∧ Level0Consumed later

structure Level0Step (d : RDFUpdateMetadata K) (f g : PLRDF K) : Prop where
  wellFormed : g.WellFormed
  unsplit : ∀ level, g.getSplitKeys level = []
  coverage_eq : g.levelCoverage 0 = f.levelCoverage 0 ∪ coverage d.level0Ranges
  files : ∀ n ∈ g.rdFilterLevel0,
    n ∈ d.level0Outputs ∨ (n ∈ f.rdFilterLevel0 ∧ n ∉ d.level0Inputs)

section Step

variable {d : RDFUpdateMetadata K} {f g : PLRDF K}

theorem level0Step_flush (hf : f.WellFormed) (hunsplit : ∀ level, f.getSplitKeys level = [])
    (htype : d.type = .kFlush) (h : f.applyFlush d.plrdfStringkeyFlushDelta = some g) :
    Level0Step d f g := by
  have hranges : d.level0Ranges = [] := by
    simp [RDFUpdateMetadata.level0Ranges, RDFUpdateMetadata.intoLevel0, htype]
  have hinputs : ∀ n, n ∉ d.level0Inputs := by
    intro n hn
    exact hn.1 htype
  unfold PLRDF.applyFlush at h
  split_ifs at h with hzero
  · obtain rfl := Option.some.inj h
    refine ⟨hf, hunsplit, by rw [hranges]; simp, fun n hn => Or.inr ⟨hn, hinputs n⟩⟩
  · have hg := hf.insertRangeDeleteToLevel0 h
    unfold PLRDF.insertRangeDeleteToLevel0 at h
    split_ifs at h
    obtain rfl := Option.some.inj h
    refine ⟨hg, hunsplit, by rw [hranges]; simp; rfl, fun n hn => ?_⟩
    rcases AList.mem_insert _ |>.mp hn with rfl | hn
    · apply Or.inl
      simp [RDFUpdateMetadata.level0Outputs, htype, hzero]
    · exact Or.inr ⟨hn, hinputs n⟩

theorem level0Step_compaction (hf : f.WellFormed) (hunsplit : ∀ level, f.getSplitKeys level = [])
    (htype : d.type = .kCompaction ∨ d.type = .kCompactionDirectMoved)
    (hd : d.ProperRanges d.plrdfStringkeyCompactionDelta)
    (h : f.shiftRDFToOutputLevel d.plrdfStringkeyCompactionDelta d.rangetombstonesOnOutputLevel =
      some g) : Level0Step d f g := by
  have hwf := hd.boundaries
  cases hentries : d.plrdfStringkeyCompactionDelta with
  | nil =>
    rw [hentries] at h
    obtain rfl := Option.some.inj h
    refine ⟨hf, hunsplit, ?_, fun n hn => Or.inr ⟨hn, fun hin => ?_⟩⟩
    · simp [RDFUpdateMetadata.level0Ranges, RDFUpdateMetadata.intoLevel0, hentries]
    · simpa [hentries, PLRDF.listedFiles] using hin.2
  | cons e es =>
    rw [hentries] at h hwf
    have hout := PLRDF.ascends_of_shiftRDFToOutputLevel hd.nonempty h
    obtain ⟨hg, mid, hremoved, hcov, hkeys⟩ := hf.shiftRDFToOutputLevel hout hwf h
    obtain ⟨mid', g', hg', _, hremoved', hmap, _⟩ :=
      f.shiftRDFToOutputLevel_spec e es hf.ordered hout hwf
    obtain rfl : g = g' := Option.some.inj (h.symm.trans hg')
    refine ⟨hg, fun level => List.eq_nil_iff_forall_not_mem.mpr fun k hk => ?_, ?_, ?_⟩
    · have hold := ((hkeys level k).mp hk).1.1
      rw [hunsplit level] at hold
      cases hold
    · rw [hcov 0, hremoved.level0]
      by_cases holevel : e.olevel = 0
      · have hinto : d.intoLevel0 := ⟨htype, by simp [hentries, holevel]⟩
        rw [if_pos holevel.symm, RDFUpdateMetadata.level0Ranges, if_pos hinto]
      · have hinto : ¬ d.intoLevel0 := fun hinto => holevel (by simpa [hentries] using hinto.2)
        rw [if_neg (Ne.symm holevel), RDFUpdateMetadata.level0Ranges, if_neg hinto, coverage_nil,
          Set.union_empty]
    · intro n hn
      have hlookup := hremoved'.files n
      rw [← AList.lookup_isSome, hmap, hlookup] at hn
      split_ifs at hn with hlisted
      · cases hn
      · exact Or.inr ⟨AList.lookup_isSome.mp hn, fun hin => hlisted (hentries ▸ hin.2)⟩

omit [LinearOrder K] in
theorem mem_foldlM_eraseLevel0OrExit {files : List ℕ} {m m' : AList (fun _ : ℕ => List (K × K))}
    (h : files.foldlM PLRDF.eraseLevel0OrExit m = some m') {n : ℕ} (hn : n ∈ m') :
    n ∈ m ∧ n ∉ files := by
  induction files generalizing m with
  | nil =>
    obtain rfl := Option.some.inj h
    exact ⟨hn, List.not_mem_nil⟩
  | cons file files ih =>
    obtain ⟨mid, hmid, hrest⟩ := Option.bind_eq_some_iff.mp h
    unfold PLRDF.eraseLevel0OrExit at hmid
    split_ifs at hmid
    obtain rfl := Option.some.inj hmid
    obtain ⟨hmem, hnot⟩ := ih hrest
    obtain ⟨hne, hmem⟩ := AList.mem_erase.mp hmem
    refine ⟨hmem, fun hin => ?_⟩
    cases List.mem_cons.mp hin with
    | inl heq => exact hne heq
    | inr hin => exact hnot hin

theorem deleteRDF_level0 {e : LevelFiles K}
    (h : f.deleteRDFAssociatedWithFilesAtCurrentLevel e = some g) :
    g.levelCoverage 0 = f.levelCoverage 0 ∧
      ∀ n ∈ g.rdFilterLevel0, n ∈ f.rdFilterLevel0 ∧ ¬ (e.clevel = 0 ∧ n ∈ e.files) := by
  unfold PLRDF.deleteRDFAssociatedWithFilesAtCurrentLevel at h
  split_ifs at h with hzero hlen
  · obtain ⟨m, hm, rfl⟩ := Option.map_eq_some_iff.mp h
    refine ⟨rfl, fun n hn => ?_⟩
    obtain ⟨hmem, hnot⟩ := mem_foldlM_eraseLevel0OrExit hm hn
    exact ⟨hmem, fun hin => hnot hin.2⟩
  · obtain rfl := Option.some.inj h
    exact ⟨rfl, fun n hn => ⟨hn, fun hin => hzero hin.1⟩⟩
  · obtain ⟨ranges, _, rfl⟩ := Option.map_eq_some_iff.mp h
    refine ⟨?_, fun n hn => ⟨hn, fun hin => hzero hin.1⟩⟩
    rw [PLRDF.levelCoverage, f.getLevelRanges_restrictLevel e.clevel 0 ranges (not_le.mp hlen),
      if_neg (Ne.symm hzero)]
    rfl

theorem foldlM_deleteRDF_level0 {entries : List (LevelFiles K)}
    (hwf : ∀ e ∈ entries, ∀ x ∈ e.boundaries, x.1 ≤ x.2) (hf : f.WellFormed)
    (hunsplit : ∀ level, f.getSplitKeys level = [])
    (h : entries.foldlM PLRDF.deleteRDFAssociatedWithFilesAtCurrentLevel f = some g) :
    g.WellFormed ∧ (∀ level, g.getSplitKeys level = []) ∧
      g.levelCoverage 0 = f.levelCoverage 0 ∧
      ∀ n ∈ g.rdFilterLevel0, n ∈ f.rdFilterLevel0 ∧ n ∉ PLRDF.listedFiles entries := by
  induction entries generalizing f with
  | nil =>
    obtain rfl := Option.some.inj h
    exact ⟨hf, hunsplit, rfl, fun n hn => ⟨hn, by simp [PLRDF.listedFiles]⟩⟩
  | cons e es ih =>
    obtain ⟨mid, hmid, hrest⟩ := Option.bind_eq_some_iff.mp h
    obtain ⟨hmidwf, hkeeps⟩ := hf.deleteRDFAssociatedWithFilesAtCurrentLevel
      (hwf e List.mem_cons_self) hmid
    obtain ⟨hcov, hfiles⟩ := deleteRDF_level0 hmid
    have hmidunsplit : ∀ level, mid.getSplitKeys level = [] := by
      intro level
      apply List.eq_nil_iff_forall_not_mem.mpr
      intro k hk
      have hold := ((hkeeps level k).mp hk).1
      rw [hunsplit level] at hold
      cases hold
    obtain ⟨hg, hgunsplit, hgcov, hgfiles⟩ :=
      ih (fun e' he' => hwf e' (List.mem_cons_of_mem e he')) hmidwf hmidunsplit hrest
    refine ⟨hg, hgunsplit, hgcov.trans hcov, fun n hn => ?_⟩
    obtain ⟨hmem, hnot⟩ := hgfiles n hn
    obtain ⟨hmem, hnot'⟩ := hfiles n hmem
    refine ⟨hmem, ?_⟩
    rintro ⟨e', he', hin⟩
    cases List.mem_cons.mp he' with
    | inl heq => exact hnot' (heq ▸ hin)
    | inr he' => exact hnot ⟨e', he', hin⟩

theorem level0Step_removal (hf : f.WellFormed) (hunsplit : ∀ level, f.getSplitKeys level = [])
    (htype : d.type = .kCompactionDirectRemoved)
    (hd : d.ProperRanges d.plrdfStringkeyCompactionDelta)
    (h : d.plrdfStringkeyCompactionDelta.foldlM PLRDF.deleteRDFAssociatedWithFilesAtCurrentLevel f =
      some g) : Level0Step d f g := by
  have hranges : d.level0Ranges = [] := by
    simp [RDFUpdateMetadata.level0Ranges, RDFUpdateMetadata.intoLevel0, htype]
  obtain ⟨hg, hgunsplit, hcov, hfiles⟩ :=
    foldlM_deleteRDF_level0 hd.boundaries hf hunsplit h
  refine ⟨hg, hgunsplit, by rw [hcov, hranges, coverage_nil, Set.union_empty], fun n hn => ?_⟩
  exact Or.inr ⟨(hfiles n hn).1, fun hin => (hfiles n hn).2 hin.2⟩

end Step

namespace VersionRDFBundle

variable {stoll : K → Option ℤ} {b b' : VersionRDFBundle K} {d : RDFUpdateMetadata K}
  {deltas : List (RDFUpdateMetadata K)}

theorem level0Step_applyDelta (hb : b.plrdfStringkey.WellFormed)
    (hunsplit : ∀ level, b.plrdfStringkey.getSplitKeys level = [])
    (hd : d.ProperRanges d.plrdfStringkeyCompactionDelta)
    (h : b.applyDelta stoll d = some b') : Level0Step d b.plrdfStringkey b'.plrdfStringkey := by
  rcases applyDelta_cases h with ⟨htype, h⟩ | ⟨htype, h⟩ | ⟨htype, h⟩
  · exact level0Step_flush hb hunsplit htype (flushParts h).plrdfStringkey
  · exact level0Step_compaction hb hunsplit htype hd (compactionParts h).plrdfStringkey
  · exact level0Step_removal hb hunsplit htype hd (removalParts h).plrdfStringkey

/-- Over a run that consumes what it brings to level 0, the map gains no file, and the range list
of level 0 gains the output ranges of every compaction into level 0. -/
theorem level0_run (hb : b.plrdfStringkey.WellFormed)
    (hunsplit : ∀ level, b.plrdfStringkey.getSplitKeys level = [])
    (hproper : ∀ d ∈ deltas, d.ProperRanges d.plrdfStringkeyCompactionDelta)
    (hconsumed : Level0Consumed deltas)
    (hrun : deltas.foldlM (applyDelta stoll) b = some b') :
    b'.plrdfStringkey.WellFormed ∧ (∀ level, b'.plrdfStringkey.getSplitKeys level = []) ∧
      (∀ k, k ∈ b'.plrdfStringkey.levelCoverage 0 ↔
        k ∈ b.plrdfStringkey.levelCoverage 0 ∨ ∃ d ∈ deltas, k ∈ coverage d.level0Ranges) ∧
      ∀ n ∈ b'.plrdfStringkey.rdFilterLevel0, n ∈ b.plrdfStringkey.rdFilterLevel0 ∧
        ∀ d ∈ deltas, n ∉ d.level0Inputs := by
  induction deltas generalizing b with
  | nil =>
    obtain rfl := Option.some.inj hrun
    exact ⟨hb, hunsplit, fun k => by simp, fun n hn => ⟨hn, by simp⟩⟩
  | cons d later ih =>
    obtain ⟨mid, hmid, hrest⟩ := Option.bind_eq_some_iff.mp hrun
    have hstep := level0Step_applyDelta hb hunsplit (hproper d List.mem_cons_self) hmid
    obtain ⟨hwf, hkeys, hcov, hfiles⟩ := ih hstep.wellFormed hstep.unsplit
      (fun d' hd' => hproper d' (List.mem_cons_of_mem d hd')) hconsumed.2 hrest
    refine ⟨hwf, hkeys, fun k => ?_, fun n hn => ?_⟩
    · rw [hcov k, hstep.coverage_eq, Set.mem_union, or_assoc]
      simp
    · obtain ⟨hmem, hlater⟩ := hfiles n hn
      rcases hstep.files n hmem with hout | ⟨hmem, hnot⟩
      · obtain ⟨d', hd', hin⟩ := hconsumed.1 n hout
        exact absurd hin (hlater d' hd')
      · exact ⟨hmem, List.forall_mem_cons.mpr ⟨hnot, hlater⟩⟩

/-- Once every level-0 file has been consumed the level-0 map is empty, and no key is covered at
level 0 exactly if no compaction into level 0 has had an output range. -/
theorem level0_uncovered_iff
    (hproper : ∀ d ∈ deltas, d.ProperRanges d.plrdfStringkeyCompactionDelta)
    (hrun : deltas.foldlM (applyDelta stoll) empty = some b) (hconsumed : Level0Consumed deltas) :
    b.plrdfStringkey.rdFilterLevel0 = ∅ ∧
      ((∀ k, b.plrdfStringkey.isEntryAlive 0 k = true) ↔
        ∀ d ∈ deltas, d.intoLevel0 → d.rangetombstonesOnOutputLevel = []) := by
  obtain ⟨hwf, hkeys, hcov, hfiles⟩ := level0_run PLRDF.wellFormed_empty
    (fun _ => rfl) hproper hconsumed hrun
  have hempty : ∀ k, k ∉ (empty : VersionRDFBundle K).plrdfStringkey.levelCoverage 0 := by
    simp [empty, PLRDF.empty, PLRDF.levelCoverage, PLRDF.getLevelRanges]
  have halive : ∀ k, b.plrdfStringkey.isEntryAlive 0 k = true ↔
      ∀ d ∈ deltas, k ∉ coverage d.level0Ranges := by
    intro k
    rw [hwf.isEntryAlive_iff, hkeys, or_iff_left List.not_mem_nil, hcov k, or_iff_right (hempty k)]
    simp
  constructor
  · apply AList.ext
    apply List.eq_nil_iff_forall_not_mem.mpr
    intro entry hentry
    have hmem := (hfiles entry.1 (List.mem_map_of_mem hentry)).1
    exact AList.notMem_empty entry.1 hmem
  · constructor
    · intro h d hd hinto
      apply List.eq_nil_iff_forall_not_mem.mpr
      intro r hr
      have hne := (hproper d hd).nonempty r hr
      have hnot := (halive r.1).mp (h r.1) d hd
      rw [RDFUpdateMetadata.level0Ranges, if_pos hinto] at hnot
      exact hnot ⟨r, hr, le_rfl, hne⟩
    · intro h k
      apply (halive k).mpr
      intro d hd
      rw [RDFUpdateMetadata.level0Ranges]
      split_ifs with hinto
      · rw [h d hd hinto, coverage_nil]
        exact Set.notMem_empty k
      · rw [coverage_nil]
        exact Set.notMem_empty k

/-- File 1 with the tombstone `[2, 5)` is flushed, compacted into file 2 of the level `olevel`,
and file 2 into file 3 of level 1. -/
def sampleLevel0Deltas (olevel : ℕ) : List (RDFUpdateMetadata ℕ) :=
  [{ type := .kFlush, plrdfStringkeyFlushDelta := ⟨1, [(2, 5)], []⟩ },
    { type := .kCompaction
      plrdfStringkeyCompactionDelta := [⟨0, olevel, [(2, 5)], [1]⟩]
      fdRangetombstonesInfo := some ⟨[⟨0, [1], [(2, 5)]⟩], olevel, [⟨2, (0, 9)⟩]⟩ },
    { type := .kCompaction
      plrdfStringkeyCompactionDelta := [⟨olevel, 1, [(0, 9)], [2]⟩]
      fdRangetombstonesInfo := some ⟨[⟨olevel, [2], [(2, 5)]⟩], 1, [⟨3, (0, 9)⟩]⟩ }]

theorem properRanges_sampleLevel0Deltas (olevel : ℕ) :
    ∀ d ∈ sampleLevel0Deltas olevel, d.ProperRanges d.plrdfStringkeyCompactionDelta := by
  intro d hd
  simp only [sampleLevel0Deltas, List.mem_cons, List.not_mem_nil, or_false] at hd
  rcases hd with rfl | rfl | rfl
  · exact ⟨by simp, by simp [RDFUpdateMetadata.inputTombstones],
      by simp [RDFUpdateMetadata.outputBoundaries]⟩
  · exact ⟨by simp, by simp [RDFUpdateMetadata.inputTombstones, MovingRDInfo.inputTombstones],
      by simp [RDFUpdateMetadata.outputBoundaries, MovingRDInfo.dstBoundaries]⟩
  · exact ⟨by simp, by simp [RDFUpdateMetadata.inputTombstones, MovingRDInfo.inputTombstones],
      by simp [RDFUpdateMetadata.outputBoundaries, MovingRDInfo.dstBoundaries]⟩

theorem level0Consumed_sampleLevel0Deltas (olevel : ℕ) :
    Level0Consumed (sampleLevel0Deltas olevel) := by
  refine ⟨?_, ?_, ?_, trivial⟩
  · simp [RDFUpdateMetadata.level0Outputs, RDFUpdateMetadata.level0Inputs, PLRDF.listedFiles]
  · intro n hn
    simp only [RDFUpdateMetadata.level0Outputs, RDFUpdateMetadata.intoLevel0] at hn
    simp_all [RDFUpdateMetadata.level0Inputs, PLRDF.listedFiles, RDFUpdateMetadata.outputFiles]
  · simp [RDFUpdateMetadata.level0Outputs, RDFUpdateMetadata.intoLevel0]

theorem level0_uncovered_sample : ∃ b : VersionRDFBundle ℕ,
    (sampleLevel0Deltas 1).foldlM (applyDelta fun _ => none) empty = some b ∧
      b.plrdfStringkey.rdFilterLevel0 = ∅ ∧ ∀ k, b.plrdfStringkey.isEntryAlive 0 k = true := by
  have hrun : ((sampleLevel0Deltas 1).foldlM (applyDelta fun _ => none) empty).isSome = true := by
    decide
  obtain ⟨b, hb⟩ := Option.isSome_iff_exists.mp hrun
  obtain ⟨hmap, hiff⟩ := level0_uncovered_iff (properRanges_sampleLevel0Deltas 1) hb
    (level0Consumed_sampleLevel0Deltas 1)
  exact ⟨b, hb, hmap, hiff.mpr (by decide)⟩

/-- A compaction into level 0 leaves its ranges there for good. -/
theorem level0_keeps_stale_range :
    (∀ d ∈ sampleLevel0Deltas 0, d.ProperRanges d.plrdfStringkeyCompactionDelta) ∧
      Level0Consumed (sampleLevel0Deltas 0) ∧
      ((sampleLevel0Deltas 0).foldlM (applyDelta fun _ => none) empty).map
        (fun b => b.plrdfStringkey.isEntryAlive 0 3) = some false :=
  ⟨properRanges_sampleLevel0Deltas 0, level0Consumed_sampleLevel0Deltas 0, by decide⟩

end VersionRDFBundle

end Spry
