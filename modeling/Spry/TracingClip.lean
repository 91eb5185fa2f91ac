import Spry.Tracing

/-!
# Two ways to clip the output of a compaction

The delta hands the filters one list of tombstones clipped by the output files, and tracing clips
the same tombstones file by file while it consumes them. Both give the intersections of the
tombstones with the files.
-/

namespace Spry

open HalfOpen

variable {K : Type}

def Tracing.stored (t : Tracing K) (level fd : ℕ) : List (K × K) :=
  ((t.mapOf level).lookupAt level fd).getD []

variable [LinearOrder K]

theorem Tracing.stored_shift {dstLevel : ℕ} {rdMerged : List (K × K)} (hrd : Ordered rdMerged)
    {dst : List (ℕ × (K × K))} (hwf : ∀ ab ∈ dst, ab.2.1 ≤ ab.2.2)
    (hnodup : (dst.map Prod.fst).Nodup) (hbs : StartSorted (dst.map Prod.snd))
    (hdisjoint : dst.Pairwise
      (fun x y => Disjoint (Set.Ico x.2.1 x.2.2) (Set.Ico y.2.1 y.2.2)))
    {t : Tracing K} (hnew : ∀ ab ∈ dst, t.stored dstLevel ab.1 = []) {ab : ℕ × (K × K)}
    (hab : ab ∈ dst) :
    (shiftTracingToOutputLevel dstLevel t rdMerged dst).stored dstLevel ab.1 =
      intersections rdMerged ab.2 := by
  have hwf' : ∀ b ∈ dst.map Prod.snd, b.1 ≤ b.2 := List.forall_mem_map.mpr hwf
  have hdisjoint' : (dst.map Prod.snd).Pairwise
      (fun x y => Disjoint (Set.Ico x.1 x.2) (Set.Ico y.1 y.2)) := List.pairwise_map.mpr hdisjoint
  obtain ⟨hwritten, hkept⟩ := lookupAt_mapOf_shift dstLevel hrd hwf hnodup hdisjoint
    (ordered_clip_of_disjoint hrd hwf' hbs hdisjoint').startSorted t
  have hentries := clipTagged_eq_map hrd hwf hbs
  by_cases hpieces : intersections rdMerged ab.2 = []
  · -- its number is not the number of another file, so nothing is written for it
    have hnone : dstLevel = dstLevel →
        ∀ ranges, (ab.1, ranges) ∈ clipTagged rdMerged dst → ranges = [] := by
      intro _ ranges hmem
      rw [hentries] at hmem
      obtain ⟨cd, hcd, heq⟩ := List.mem_map.mp hmem
      obtain ⟨hfd, rfl⟩ := Prod.mk.inj heq
      obtain rfl : cd = ab :=
        List.inj_on_of_nodup_map hnodup (List.mem_filter.mp hcd).1 hab hfd
      exact hpieces
    rw [stored, hkept dstLevel ab.1 hnone, hpieces]
    exact hnew ab hab
  · have hne : ab.2.1 ≠ ab.2.2 := fun heq => hpieces (intersections_eq_nil_of_eq rdMerged heq)
    have hmem : (ab.1, intersections rdMerged ab.2) ∈ clipTagged rdMerged dst := by
      rw [hentries]
      exact List.mem_map.mpr ⟨ab, List.mem_filter.mpr ⟨hab, by simpa using hne⟩, rfl⟩
    rw [stored, hwritten ab.1 _ hmem hpieces]
    rfl

theorem Tracing.clip_eq_flatMap_stored {rdMerged fileBoundaryList : List (K × K)}
    (hrd : Ordered rdMerged) (hwf : ∀ b ∈ fileBoundaryList, b.1 ≤ b.2)
    (hbs : StartSorted fileBoundaryList)
    (hdisjoint : fileBoundaryList.Pairwise
      (fun x y => Disjoint (Set.Ico x.1 x.2) (Set.Ico y.1 y.2)))
    {dstFdList : List ℕ} (hlength : dstFdList.length = fileBoundaryList.length)
    (hnodup : dstFdList.Nodup) {dstLevel : ℕ} {t : Tracing K}
    (hnew : ∀ fd ∈ dstFdList, t.stored dstLevel fd = []) :
    clip rdMerged fileBoundaryList = dstFdList.flatMap fun fd =>
      (Tracing.shiftTracingToOutputLevel dstLevel t rdMerged
        (dstFdList.zip fileBoundaryList)).stored dstLevel fd := by
  have hfst : (dstFdList.zip fileBoundaryList).map Prod.fst = dstFdList :=
    List.map_fst_zip hlength.le
  have hsnd : (dstFdList.zip fileBoundaryList).map Prod.snd = fileBoundaryList :=
    List.map_snd_zip hlength.ge
  have hstored : ∀ ab ∈ dstFdList.zip fileBoundaryList,
      (Tracing.shiftTracingToOutputLevel dstLevel t rdMerged
        (dstFdList.zip fileBoundaryList)).stored dstLevel ab.1 =
        intersections rdMerged ab.2 := by
    intro ab hab
    refine Tracing.stored_shift hrd ?_ (hfst.symm ▸ hnodup) (hsnd.symm ▸ hbs) ?_ ?_ hab
    · exact fun cd hcd => hwf cd.2 (List.of_mem_zip hcd).2
    · rw [← hsnd, List.pairwise_map] at hdisjoint
      exact hdisjoint
    · exact fun cd hcd => hnew cd.1 (List.of_mem_zip hcd).1
  calc clip rdMerged fileBoundaryList
      = ((dstFdList.zip fileBoundaryList).map Prod.snd).flatMap (intersections rdMerged) := by
        rw [hsnd, clip_eq_intersections hrd hwf hbs]
    _ = (dstFdList.zip fileBoundaryList).flatMap fun ab => intersections rdMerged ab.2 :=
        List.flatMap_map ..
    _ = (dstFdList.zip fileBoundaryList).flatMap fun ab =>
          (Tracing.shiftTracingToOutputLevel dstLevel t rdMerged
            (dstFdList.zip fileBoundaryList)).stored dstLevel ab.1 :=
        List.flatMap_congr fun ab hab => (hstored ab hab).symm
    _ = ((dstFdList.zip fileBoundaryList).map Prod.fst).flatMap fun fd =>
          (Tracing.shiftTracingToOutputLevel dstLevel t rdMerged
            (dstFdList.zip fileBoundaryList)).stored dstLevel fd :=
        (List.flatMap_map ..).symm
    _ = _ := by rw [hfst]

/-- The clipped list is the list of the non-empty intersections of tombstones and output files,
file by file. It is ordered, so it can be added to any level, and it is what tracing stores for
the files, one after the other. -/
theorem clippers_agree {rdMerged fileBoundaryList : List (K × K)} (hrd : Ordered rdMerged)
    (hwf : ∀ b ∈ fileBoundaryList, b.1 ≤ b.2) (hbs : StartSorted fileBoundaryList)
    (hdisjoint : fileBoundaryList.Pairwise
      (fun x y => Disjoint (Set.Ico x.1 x.2) (Set.Ico y.1 y.2))) :
    RDFUpdateMetadata.getOutputLevelRangeTombstonesFilteredByFileRanges rdMerged
        fileBoundaryList = fileBoundaryList.flatMap (intersections rdMerged) ∧
      Ordered (RDFUpdateMetadata.getOutputLevelRangeTombstonesFilteredByFileRanges rdMerged
        fileBoundaryList) ∧
      (∀ rdList, (PLRDF.addRangeDelete rdList
        (RDFUpdateMetadata.getOutputLevelRangeTombstonesFilteredByFileRanges rdMerged
          fileBoundaryList)).isSome) ∧
      ∀ (dstFdList : List ℕ) (dstLevel : ℕ) (t : Tracing K),
        dstFdList.length = fileBoundaryList.length → dstFdList.Nodup →
        (∀ fd ∈ dstFdList, t.stored dstLevel fd = []) →
        RDFUpdateMetadata.getOutputLevelRangeTombstonesFilteredByFileRanges rdMerged
          fileBoundaryList = dstFdList.flatMap fun fd =>
            (Tracing.shiftTracingToOutputLevel dstLevel t rdMerged
              (dstFdList.zip fileBoundaryList)).stored dstLevel fd := by
  have hout : RDFUpdateMetadata.getOutputLevelRangeTombstonesFilteredByFileRanges rdMerged
      fileBoundaryList = clip rdMerged fileBoundaryList := by
    unfold RDFUpdateMetadata.getOutputLevelRangeTombstonesFilteredByFileRanges
    split_ifs with hnil
    · rw [hnil, clip_nil_left]
    · rfl
  have hord := ordered_clip_of_disjoint hrd hwf hbs hdisjoint
  have hinter := clip_eq_intersections hrd hwf hbs
  rw [hout]
  refine ⟨hinter, hord, ?_, ?_⟩
  · intro rdList
    unfold PLRDF.addRangeDelete
    split_ifs with hempty hsorted
    · rfl
    · rfl
    · exact absurd hord.startSorted hsorted
  · intro dstFdList dstLevel t hlength hnodup hnew
    exact Tracing.clip_eq_flatMap_stored hrd hwf hbs hdisjoint hlength hnodup hnew

/-- A tombstone over two files, and a file with a single key in between. -/
theorem clippers_agree_sample :
    RDFUpdateMetadata.getOutputLevelRangeTombstonesFilteredByFileRanges
        [((1 : ℕ), 6), (8, 9)] [(2, 4), (4, 4), (4, 9)] = [(2, 4), (4, 6), (8, 9)] ∧
      RDFUpdateMetadata.getOutputLevelRangeTombstonesFilteredByFileRanges
        [((1 : ℕ), 6), (8, 9)] [(2, 4), (4, 4), (4, 9)] =
        [10, 11, 12].flatMap fun fd =>
          (Tracing.shiftTracingToOutputLevel 2 Tracing.empty [((1 : ℕ), 6), (8, 9)]
            ([10, 11, 12].zip [(2, 4), (4, 4), (4, 9)])).stored 2 fd := by
  refine ⟨by decide, ?_⟩
  have hdisjoint : [((2 : ℕ), 4), (4, 4), (4, 9)].Pairwise
      (fun x y => Disjoint (Set.Ico x.1 x.2) (Set.Ico y.1 y.2)) := by
    simp [Set.Ico_disjoint_Ico]
  exact (clippers_agree (by decide) (by decide) (by decide) hdisjoint).2.2.2 [10, 11, 12] 2
    Tracing.empty rfl (by decide) fun fd _ => rfl

end Spry
