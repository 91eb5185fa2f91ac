import Spry.SuRFCompaction

/-!
# The per-file filter next to the string-key filter

Both filters follow the same deltas. After a compaction into files of their own, the trie of an
output file and the output level of the string-key filter delete the same keys of the file.
-/

namespace Spry

open HalfOpen

variable {K : Type} [LinearOrder K]

structure SuRFBundle (K : Type) where
  bundle : VersionRDFBundle K
  surfLevelFileRdf : Option (SuRFRDF K)

namespace SuRFBundle

variable {env : SuRFEnv K} {stoll : K → Option ℤ} {s s' : SuRFBundle K} {d : SuRFMetadata K}

def empty : SuRFBundle K := ⟨VersionRDFBundle.empty, none⟩

def applyDelta (env : SuRFEnv K) (stoll : K → Option ℤ) (s : SuRFBundle K) (d : SuRFMetadata K) :
    Option (SuRFBundle K) :=
  (s.bundle.applyDelta stoll d.toRDFUpdateMetadata).map fun bundle =>
    ⟨bundle, SuRFRDF.applyDelta env s.surfLevelFileRdf d⟩

/-- After a run the string-key filter is well formed, and only files that some delta built have a
trie. -/
theorem foldlM_applyDelta_spec {deltas : List (SuRFMetadata K)}
    (hdeltas : ∀ d ∈ deltas, d.ProperRanges d.plrdfStringkeyCompactionDelta)
    (hs : s.bundle.plrdfStringkey.WellFormed)
    (hrun : deltas.foldlM (applyDelta env stoll) s = some s') :
    s'.bundle.plrdfStringkey.WellFormed ∧
      ∀ fd ∈ (s'.surfLevelFileRdf.getD SuRFRDF.empty).files,
        fd ∈ (s.surfLevelFileRdf.getD SuRFRDF.empty).files ∨ ∃ d ∈ deltas, fd ∈ d.newFiles := by
  induction deltas generalizing s with
  | nil =>
    obtain rfl := Option.some.inj hrun
    exact ⟨hs, fun fd hfd => Or.inl hfd⟩
  | cons d deltas ih =>
    obtain ⟨mid, hmid, hrest⟩ := Option.bind_eq_some_iff.mp hrun
    obtain ⟨b, hb, rfl⟩ := Option.map_eq_some_iff.mp hmid
    have hbwf := VersionRDFBundle.wellFormed_plrdfStringkey_applyDelta hs
      (hdeltas d List.mem_cons_self) hb
    obtain ⟨hwf, hfiles⟩ := ih (fun d' hd' => hdeltas d' (List.mem_cons_of_mem d hd')) hbwf hrest
    refine ⟨hwf, fun fd hfd => ?_⟩
    rcases hfiles fd hfd with hmem | ⟨d', hd', hnew⟩
    · rcases SuRFRDF.files_applyDelta env s.surfLevelFileRdf d hmem with hold | hnew
      · exact Or.inl hold
      · exact Or.inr ⟨d, List.mem_cons_self, hnew⟩
    · exact Or.inr ⟨d', List.mem_cons_of_mem d hd', hnew⟩

/-- A compaction delta that hands the same files and tombstones to both filters, with output files
of their own numbers and disjoint boundaries. -/
structure HandsOver (d : SuRFMetadata K) (info : MovingRDInfo K) : Prop where
  type_eq : d.type = .kCompaction
  stringkey : d.fdRangetombstonesInfo = some info
  surf : d.surfCompactionInfo = some ⟨info, false⟩
  olevel : d.plrdfStringkeyCompactionDelta.head?.map LevelFiles.olevel = some info.dstLevel
  nodup : (info.destinations.map Prod.fst).Nodup
  own : ∀ dst ∈ info.destinations, ∀ src ∈ info.sources, dst.1 ∉ src.2
  disjoint : info.destinations.Pairwise
    (fun x y => Disjoint (Set.Ico x.2.1 x.2.2) (Set.Ico y.2.1 y.2.2))

/-- A key of an output file is covered by the output ranges exactly if the pieces of the file
cover it. -/
theorem HandsOver.mem_coverage_clip {info : MovingRDInfo K} (h : HandsOver d info)
    {rs : List (K × K)} (hrs : Ordered rs) (hwf : ∀ dst ∈ info.destinations, dst.2.1 ≤ dst.2.2)
    {dst : ℕ × (K × K)} (hdst : dst ∈ info.destinations) {k : K}
    (hk : k ∈ Set.Ico dst.2.1 dst.2.2) :
    k ∈ coverage (clip rs (info.destinations.map Prod.snd)) ↔
      ∃ ranges, (dst.1, ranges) ∈ clipTagged rs info.destinations ∧ k ∈ coverage ranges := by
  have hsymm : Std.Symm fun x y : ℕ × (K × K) =>
      Disjoint (Set.Ico x.2.1 x.2.2) (Set.Ico y.2.1 y.2.2) := ⟨fun _ _ hxy => hxy.symm⟩
  rw [mem_coverage_clip_iff]
  constructor
  · rintro ⟨fd, ranges, hmem, hcov⟩
    obtain ⟨x, hx, _, hsub⟩ := mem_clipTagged hrs hwf hmem
    have hsame : (fd, x) = dst := by
      by_contra hne
      exact Set.disjoint_left.mp (h.disjoint.forall hx hdst hne)
        (hsub hcov) hk
    exact ⟨ranges, hsame ▸ hmem, hcov⟩
  · rintro ⟨ranges, hmem, hcov⟩
    exact ⟨dst.1, ranges, hmem, hcov⟩

/-- On the output level the string-key filter covers of an output file what the output ranges
cover: what was there before lay in input files, or in files apart from it. -/
theorem HandsOver.mem_levelCoverage_iff {info : MovingRDInfo K} (hinfo : HandsOver d info)
    (hs : s.bundle.plrdfStringkey.WellFormed) {boundary : ℕ → K × K} {live : Set ℕ}
    (hinside : s.bundle.plrdfStringkey.levelCoverage info.dstLevel ⊆
      RDFUpdateMetadata.inside boundary live)
    (hd : d.ProperRanges d.plrdfStringkeyCompactionDelta)
    (hlisted : ∀ e ∈ d.plrdfStringkeyCompactionDelta, e.clevel = info.dstLevel →
      e.boundaries = e.files.map boundary)
    (hlevel : info.dstLevel ≠ 0) {dst : ℕ × (K × K)}
    (hapart : ∀ fd ∈ live \ d.inputsAt info.dstLevel,
      Disjoint (Set.Ico dst.2.1 dst.2.2) (Set.Ico (boundary fd).1 (boundary fd).2))
    {b : VersionRDFBundle K} (h : s.bundle.applyDelta stoll d.toRDFUpdateMetadata = some b)
    {k : K} (hk : k ∈ Set.Ico dst.2.1 dst.2.2) :
    k ∈ b.plrdfStringkey.levelCoverage info.dstLevel ↔
      k ∈ coverage d.rangetombstonesOnOutputLevel := by
  rw [VersionRDFBundle.applyDelta_of_isCompaction (Or.inl hinfo.type_eq)] at h
  have hshift := (VersionRDFBundle.compactionParts h).plrdfStringkey
  obtain ⟨e, hhead, holevel⟩ := Option.map_eq_some_iff.mp hinfo.olevel
  obtain ⟨es, hentries⟩ := List.head?_eq_some_iff.mp hhead
  have hwf := hd.boundaries
  have hinputs := RDFUpdateMetadata.listedAt_eq_inside (by simp [hinfo.type_eq]) hlisted
  rw [hentries] at hshift hwf hinputs
  have hcov := (hs.levelCoverage_shiftRDF hd.nonempty hwf hshift).2 info.dstLevel hlevel
  rw [hcov, if_pos holevel.symm, hinputs, Set.mem_union, or_iff_right]
  rintro ⟨hold, hnot⟩
  obtain ⟨fd, hfd, hkfd⟩ := hinside hold
  have hremains : fd ∉ d.inputsAt info.dstLevel := fun hin => hnot ⟨fd, hin, hkfd⟩
  exact Set.disjoint_left.mp (hapart fd ⟨hfd, hremains⟩) hk hkfd

/-- A file has a trie of each non-empty part that names it, and none if they are all empty: it
deletes the keys these parts cover. -/
theorem deleted_iff_mem_parts {surf : SuRFRDF K} {level fd : ℕ}
    {parts : List (ℕ × List (K × K))} {k : K}
    (hverdict : ∀ ranges, (fd, ranges) ∈ parts → ranges ≠ [] →
      (surf.isEntryAliveAtLevelOfFd env level fd k = false ↔ k ∈ coverage ranges))
    (hnone : (∀ ranges, (fd, ranges) ∈ parts → ranges = []) →
      (surf.atLevel level).lookup fd = none) :
    surf.isEntryAliveAtLevelOfFd env level fd k = false ↔
      ∃ ranges, (fd, ranges) ∈ parts ∧ k ∈ coverage ranges := by
  constructor
  · intro hdeleted
    by_cases hempty : ∀ ranges, (fd, ranges) ∈ parts → ranges = []
    · rw [SuRFRDF.isEntryAliveAtLevelOfFd, hnone hempty] at hdeleted
      cases hdeleted
    · push Not at hempty
      obtain ⟨ranges, hmem, hne⟩ := hempty
      exact ⟨ranges, hmem, (hverdict ranges hmem hne).mp hdeleted⟩
  · rintro ⟨ranges, hmem, hcov⟩
    have hne : ranges ≠ [] := by
      rintro rfl
      simp at hcov
    exact (hverdict ranges hmem hne).mpr hcov

/-- File 1 with the tombstone `[2, 5)` is flushed. -/
def sampleSuRFFlush : SuRFMetadata ℕ :=
  { type := .kFlush
    plrdfStringkeyFlushDelta := ⟨1, [(2, 5)], []⟩
    surfFlushInfo := some ⟨1, [(2, 5)]⟩ }

def sampleSuRFCompaction : SuRFMetadata ℕ :=
  let info : MovingRDInfo ℕ := ⟨[⟨0, [1], [(2, 5)]⟩], 1, [⟨2, (0, 4)⟩, ⟨3, (6, 9)⟩]⟩
  { type := .kCompaction
    plrdfStringkeyCompactionDelta := [⟨0, 1, [(2, 5)], [1]⟩]
    fdRangetombstonesInfo := some info
    surfCompactionInfo := some ⟨info, false⟩ }

theorem handsOver_sampleSuRFCompaction :
    HandsOver sampleSuRFCompaction ⟨[⟨0, [1], [(2, 5)]⟩], 1, [⟨2, (0, 4)⟩, ⟨3, (6, 9)⟩]⟩ := by
  refine ⟨rfl, rfl, rfl, rfl, by decide, by decide, ?_⟩
  refine List.pairwise_pair.mpr (Set.disjoint_left.mpr fun k hk hk' => ?_)
  exact absurd (hk.2.trans_le (by decide)) (not_lt.mpr hk'.1)

end SuRFBundle

end Spry
