import Spry.BundleSplit
import Spry.Interval.ClipTagged

/-!
# Compactions on the per-file filter

A compaction erases the tries of its input files and builds one for each output file from the
pieces of its merged tombstones inside of the file. It is compared with the string-key filter,
which stores the same pieces on the output level.
-/

namespace Spry

open HalfOpen

structure SuRFCompactionMovingRDInfo (K : Type) extends MovingRDInfo K where
  flagDirectMoveToDstLevel : Bool := false

structure SuRFCompactionDirectRemovalInfo where
  srcLevel : ℕ
  srcFdList : List ℕ

structure SuRFMetadata (K : Type) extends RDFUpdateMetadata K where
  surfCompactionInfo : Option (SuRFCompactionMovingRDInfo K) := none
  surfDirectRemovalInfo : Option SuRFCompactionDirectRemovalInfo := none

variable {K : Type}

namespace SuRFRDF

def removeSuRFAtLevelOfFd (f : SuRFRDF K) (srcLevel fd : ℕ) : SuRFRDF K :=
  ⟨LevelMap.eraseAt f.levelFileSurfRdf srcLevel fd⟩

def entry (f : SuRFRDF K) (level fd : ℕ) : Option (SuRF K) :=
  LevelMap.lookupAt f.levelFileSurfRdf level fd

/-- A file without a trie on the source level stays as it is. -/
def directMoveFileToLevel (f : SuRFRDF K) (fd srcLevel dstLevel : ℕ) : SuRFRDF K :=
  match f.entry srcLevel fd with
  | none => f
  | some surf =>
    ⟨LevelMap.eraseAt (LevelMap.insertAt f.levelFileSurfRdf dstLevel fd surf) srcLevel fd⟩

def removeSuRF (f : SuRFRDF K) (sources : List (ℕ × List ℕ)) : SuRFRDF K :=
  sources.foldl (fun f src => src.2.foldl (fun f fd => f.removeSuRFAtLevelOfFd src.1 fd) f) f

def files (f : SuRFRDF K) : Set ℕ := {fd | ∃ level surf, f.entry level fd = some surf}

theorem levelFileSurfRdf_removeSuRF (f : SuRFRDF K) (sources : List (ℕ × List ℕ)) :
    (f.removeSuRF sources).levelFileSurfRdf = LevelMap.eraseFiles f.levelFileSurfRdf sources := by
  have hlevel : ∀ (f : SuRFRDF K) (src : ℕ × List ℕ),
      src.2.foldl (fun m fd => LevelMap.eraseAt m src.1 fd) f.levelFileSurfRdf =
        (src.2.foldl (fun f fd => f.removeSuRFAtLevelOfFd src.1 fd) f).levelFileSurfRdf :=
    fun f src => List.foldl_hom SuRFRDF.levelFileSurfRdf (fun _ _ => rfl)
  exact (List.foldl_hom SuRFRDF.levelFileSurfRdf hlevel).symm

theorem entry_removeSuRF (f : SuRFRDF K) (sources : List (ℕ × List ℕ)) (level fd : ℕ) :
    (f.removeSuRF sources).entry level fd =
      if ∃ src ∈ sources, src.1 = level ∧ fd ∈ src.2 then none else f.entry level fd := by
  rw [entry, levelFileSurfRdf_removeSuRF, LevelMap.lookupAt_eraseFiles]
  rfl

theorem files_removeSuRFAtLevelOfFd (f : SuRFRDF K) (srcLevel fd : ℕ) :
    (f.removeSuRFAtLevelOfFd srcLevel fd).files ⊆ f.files := by
  rintro n ⟨level, surf, h⟩
  rw [entry, removeSuRFAtLevelOfFd, LevelMap.lookupAt_eraseAt, Option.ite_none_left_eq_some] at h
  exact ⟨level, surf, h.2⟩

theorem files_directMoveFileToLevel (f : SuRFRDF K) (fd srcLevel dstLevel : ℕ) :
    (f.directMoveFileToLevel fd srcLevel dstLevel).files ⊆ f.files := by
  unfold directMoveFileToLevel
  cases hold : f.entry srcLevel fd with
  | none => exact subset_rfl
  | some old =>
    rintro n ⟨level, surf, h⟩
    rw [entry, LevelMap.lookupAt_eraseAt, Option.ite_none_left_eq_some,
      LevelMap.lookupAt_insertAt] at h
    obtain ⟨_, h⟩ := h
    split_ifs at h with heq
    · exact ⟨srcLevel, old, heq.2 ▸ hold⟩
    · exact ⟨level, surf, h⟩

theorem files_foldl_subset {α : Type*} {op : SuRFRDF K → α → SuRFRDF K}
    (hop : ∀ f a, (op f a).files ⊆ f.files) (as : List α) (f : SuRFRDF K) :
    (as.foldl op f).files ⊆ f.files := by
  induction as generalizing f with
  | nil => exact subset_rfl
  | cons a as ih => exact (ih (op f a)).trans (hop f a)

theorem files_removeSuRF (f : SuRFRDF K) (sources : List (ℕ × List ℕ)) :
    (f.removeSuRF sources).files ⊆ f.files := by
  apply files_foldl_subset
  intro f src
  apply files_foldl_subset
  intro f fd
  exact f.files_removeSuRFAtLevelOfFd src.1 fd

variable [LinearOrder K]

def shiftRDFToOutputLevel (env : SuRFEnv K) (dstLevel : ℕ) :
    SuRFRDF K → List (K × K) → List (ℕ × (K × K)) → SuRFRDF K
  | f, _, [] => f
  | f, rdMerged, (dstFd, fileBoundary) :: dst =>
    if fileBoundary.1 = fileBoundary.2 then shiftRDFToOutputLevel env dstLevel f rdMerged dst
    else
      let rest := rdMerged.dropWhile (fun r => r.2 ≤ fileBoundary.1)
      let rangesToInsert := clipOne rest fileBoundary
      shiftRDFToOutputLevel env dstLevel
        (if rangesToInsert = [] then f
          else f.insertRangesAtLevelOfFd env dstLevel dstFd rangesToInsert) rest dst

/-- The filter is created if there is none. Both the tombstones and the output boundaries are
rewritten to condensed keys. -/
def applyCompaction (env : SuRFEnv K) (f : Option (SuRFRDF K))
    (info : Option (SuRFCompactionMovingRDInfo K)) : Option (SuRFRDF K) :=
  match info with
  | none => f
  | some info =>
    let condensed := fun r : K × K => (env.condense r.1, env.condense r.2)
    if info.flagDirectMoveToDstLevel then
      some (info.sources.foldl
        (fun f src => src.2.foldl (fun f fd => f.directMoveFileToLevel fd src.1 info.dstLevel) f)
        (f.getD empty))
    else
      let removed := (f.getD empty).removeSuRF info.sources
      let rangeTombstoneMerged := coalesceAll (sortPairs (info.inputTombstones.map condensed))
      some (if rangeTombstoneMerged = [] then removed
        else removed.shiftRDFToOutputLevel env info.dstLevel rangeTombstoneMerged
          (info.destinations.map fun dst => (dst.1, condensed dst.2)))

def applyDirectRemoval (f : Option (SuRFRDF K)) (info : Option SuRFCompactionDirectRemovalInfo) :
    Option (SuRFRDF K) :=
  match info with
  | none => f
  | some info =>
    some (info.srcFdList.foldl (fun f fd => f.removeSuRFAtLevelOfFd info.srcLevel fd)
      (f.getD empty))

def applyDelta (env : SuRFEnv K) (f : Option (SuRFRDF K)) (d : SuRFMetadata K) :
    Option (SuRFRDF K) :=
  match d.type with
  | .kFlush => applyFlush env f d.surfFlushInfo
  | .kCompaction => applyCompaction env f d.surfCompactionInfo
  | .kCompactionDirectRemoved => applyDirectRemoval f d.surfDirectRemovalInfo
  | .kCompactionDirectMoved => applyCompaction env f d.surfCompactionInfo

theorem files_insertRangesAtLevelOfFd (env : SuRFEnv K) (f : SuRFRDF K) (level fd : ℕ)
    (ranges : List (K × K)) :
    (f.insertRangesAtLevelOfFd env level fd ranges).files ⊆ f.files ∪ {fd} := by
  rintro n ⟨ℓ, surf, h⟩
  rw [entry, levelFileSurfRdf_insertRangesAtLevelOfFd, LevelMap.lookupAt_insertAt] at h
  split_ifs at h with heq
  · exact Or.inr heq.2
  · exact Or.inl ⟨ℓ, surf, h⟩

theorem files_insertRangeDeleteToLevel0 (env : SuRFEnv K) (f : SuRFRDF K) (fileNum : ℕ)
    (ranges : List (K × K)) :
    (f.insertRangeDeleteToLevel0 env fileNum ranges).files ⊆ f.files ∪ {fileNum} := by
  unfold insertRangeDeleteToLevel0
  split_ifs
  · exact Set.subset_union_left
  · exact Set.subset_union_left
  · exact f.files_insertRangesAtLevelOfFd env 0 fileNum ranges

theorem files_shiftRDFToOutputLevel (env : SuRFEnv K) (dstLevel : ℕ) (rdMerged : List (K × K))
    (dst : List (ℕ × (K × K))) (f : SuRFRDF K) :
    (f.shiftRDFToOutputLevel env dstLevel rdMerged dst).files ⊆
      f.files ∪ {fd | fd ∈ dst.map Prod.fst} := by
  induction dst generalizing f rdMerged with
  | nil => exact Set.subset_union_left
  | cons ab dst ih =>
    have hrest : {fd | fd ∈ dst.map Prod.fst} ⊆ {fd | fd ∈ (ab :: dst).map Prod.fst} :=
      fun fd hfd => List.mem_cons_of_mem ab.1 hfd
    rw [shiftRDFToOutputLevel]
    split_ifs with heq
    · exact (ih rdMerged f).trans (Set.union_subset_union_right _ hrest)
    · refine (ih _ _).trans (Set.union_subset ?_ (hrest.trans Set.subset_union_right))
      split_ifs
      · exact Set.subset_union_left
      · refine (f.files_insertRangesAtLevelOfFd env dstLevel ab.1 _).trans ?_
        apply Set.union_subset_union_right
        rintro fd rfl
        exact List.mem_cons_self

theorem levelFileSurfRdf_shiftRDFToOutputLevel (env : SuRFEnv K) (dstLevel : ℕ)
    (rdMerged : List (K × K)) (dst : List (ℕ × (K × K))) (f : SuRFRDF K) :
    (f.shiftRDFToOutputLevel env dstLevel rdMerged dst).levelFileSurfRdf =
      ((clipTagged rdMerged dst).filter (fun e => e.2 ≠ [])).foldl
        (fun m e => LevelMap.insertAt m dstLevel e.1
          (SuRF.rangesToSurf env (processRanges none e.2))) f.levelFileSurfRdf := by
  induction dst generalizing f rdMerged with
  | nil => rfl
  | cons ab dst ih =>
    rw [shiftRDFToOutputLevel, clipTagged]
    by_cases heq : ab.2.1 = ab.2.2
    · rw [if_pos heq, if_pos heq, ih]
    · rw [if_neg heq, if_neg heq]
      simp only
      rw [ih, List.filter_cons]
      by_cases hpieces : clipOne (rdMerged.dropWhile (fun r => r.2 ≤ ab.2.1)) ab.2 = []
      · simp [hpieces]
      · simp [hpieces, levelFileSurfRdf_insertRangesAtLevelOfFd]

theorem shiftRDFToOutputLevel_nil (env : SuRFEnv K) (dstLevel : ℕ) (dst : List (ℕ × (K × K)))
    (f : SuRFRDF K) : f.shiftRDFToOutputLevel env dstLevel [] dst = f := by
  induction dst with
  | nil => rfl
  | cons ab dst ih =>
    rw [shiftRDFToOutputLevel]
    split_ifs
    · exact ih
    · simpa [clipOne] using ih

theorem applyCompaction_of_not_move (env : SuRFEnv K) (f : Option (SuRFRDF K))
    {info : SuRFCompactionMovingRDInfo K} (hmove : ¬ info.flagDirectMoveToDstLevel = true) :
    applyCompaction env f (some info) =
      some (((f.getD empty).removeSuRF info.sources).shiftRDFToOutputLevel env info.dstLevel
        (coalesceAll (sortPairs (info.inputTombstones.map
          fun r => (env.condense r.1, env.condense r.2))))
        (info.destinations.map
          fun dst => (dst.1, (env.condense dst.2.1, env.condense dst.2.2)))) := by
  simp only [applyCompaction, if_neg hmove]
  split_ifs with hmerged
  · rw [hmerged, shiftRDFToOutputLevel_nil]
  · rfl

theorem applyCompaction_eq (env : SuRFEnv K) (hcondense : ∀ x, env.condense x = x)
    (f : Option (SuRFRDF K)) (info : MovingRDInfo K) :
    applyCompaction env f (some ⟨info, false⟩) =
      some (((f.getD empty).removeSuRF info.sources).shiftRDFToOutputLevel env info.dstLevel
        (coalesceAll (sortPairs info.inputTombstones)) info.destinations) := by
  rw [applyCompaction_of_not_move env f Bool.false_ne_true]
  simp only [hcondense, Prod.mk.eta, List.map_id_fun', id_eq]

/-- After a compaction into new files of their own numbers, an output file has the trie of its
pieces if there are any and none otherwise, and the input files have no trie on their level. -/
theorem entry_applyCompaction (env : SuRFEnv K) (hcondense : ∀ x, env.condense x = x)
    (f : Option (SuRFRDF K)) {info : MovingRDInfo K}
    (hnodup : (info.destinations.map Prod.fst).Nodup)
    (hnew : ∀ dst ∈ info.destinations, dst.1 ∉ (f.getD empty).files)
    (hinputs : ∀ dst ∈ info.destinations, ∀ src ∈ info.sources, dst.1 ∉ src.2) :
    ∃ g, applyCompaction env f (some ⟨info, false⟩) = some g ∧
      (∀ fd ranges, (fd, ranges) ∈ clipTagged (coalesceAll (sortPairs info.inputTombstones))
          info.destinations → ranges ≠ [] →
        g.entry info.dstLevel fd = some (SuRF.rangesToSurf env (processRanges none ranges))) ∧
      (∀ dst ∈ info.destinations, (∀ ranges, (dst.1, ranges) ∈
          clipTagged (coalesceAll (sortPairs info.inputTombstones)) info.destinations →
          ranges = []) → g.entry info.dstLevel dst.1 = none) ∧
      ∀ src ∈ info.sources, ∀ fd ∈ src.2, g.entry src.1 fd = none := by
  let merged := coalesceAll (sortPairs info.inputTombstones)
  let removed := (f.getD empty).removeSuRF info.sources
  have hnodup' := (map_fst_clipTagged_sublist merged info.destinations).nodup hnodup
  obtain ⟨hwritten, hkept⟩ := LevelMap.lookupAt_foldl_insertAt_filter info.dstLevel
    (fun ranges => SuRF.rangesToSurf env (processRanges none ranges)) (fun e => e.2 ≠ []) hnodup'
    removed.levelFileSurfRdf
  have hentry : ∀ level fd,
      (removed.shiftRDFToOutputLevel env info.dstLevel merged info.destinations).entry level fd =
        LevelMap.lookupAt (((clipTagged merged info.destinations).filter
          (fun e => e.2 ≠ [])).foldl (fun m e => LevelMap.insertAt m info.dstLevel e.1
            (SuRF.rangesToSurf env (processRanges none e.2))) removed.levelFileSurfRdf)
          level fd := by
    intro level fd
    rw [entry, levelFileSurfRdf_shiftRDFToOutputLevel]
  refine ⟨_, applyCompaction_eq env hcondense f info, ?_, ?_, ?_⟩
  · intro fd ranges hmem hne
    rw [hentry, hwritten fd ranges hmem (by simpa using hne)]
  · intro dst hdst hnone
    rw [hentry, hkept info.dstLevel dst.1 fun _ ranges hmem => by simpa using hnone ranges hmem]
    cases hold : LevelMap.lookupAt removed.levelFileSurfRdf info.dstLevel dst.1 with
    | none => rfl
    | some surf =>
      exact absurd (files_removeSuRF _ _ ⟨info.dstLevel, surf, hold⟩) (hnew dst hdst)
  · intro src hsrc fd hfd
    have hother : ∀ ranges, (fd, ranges) ∉ clipTagged merged info.destinations := by
      intro ranges hmem
      have hdst := (map_fst_clipTagged_sublist merged info.destinations).subset
        (List.mem_map_of_mem (f := Prod.fst) hmem)
      obtain ⟨dst, hdst, heq⟩ := List.mem_map.mp hdst
      exact hinputs dst hdst src hsrc (heq ▸ hfd)
    rw [hentry, hkept src.1 fd fun _ ranges hmem => absurd hmem (hother ranges)]
    have hremoved := (f.getD empty).entry_removeSuRF info.sources src.1 fd
    rwa [if_pos ⟨src, hsrc, rfl, hfd⟩] at hremoved

/-- Without cut keys and without the bypass, a file with the trie of some ranges has exactly the
keys deleted that the ranges cover. -/
theorem isEntryAliveAtLevelOfFd_of_entry {env : SuRFEnv K} (hcut : ∀ x, env.cut x = x)
    (hbypass : env.bypassIfSameKey = false) {f : SuRFRDF K} {level fd : ℕ}
    {ranges : List (K × K)} (hne : ∀ r ∈ ranges, r.1 < r.2)
    (h : f.entry level fd = some (SuRF.rangesToSurf env (processRanges none ranges))) (key : K) :
    f.isEntryAliveAtLevelOfFd env level fd key = false ↔ key ∈ coverage ranges := by
  have hlookup : (f.atLevel level).lookup fd =
      some (SuRF.rangesToSurf env (processRanges none ranges)) := h
  rw [isEntryAliveAtLevelOfFd, hlookup, processRanges_of_nonempty none hne, ← Bool.not_eq_true]
  simp only [hcut, hbypass]
  rw [SuRF.isEntryAlive_rangesToSurf env hcut hne]
  simp

end SuRFRDF

namespace SuRFMetadata

def newFiles (d : SuRFMetadata K) : Set ℕ :=
  {fd | (∃ info, d.surfFlushInfo = some info ∧ fd = info.dstFd) ∨
    ∃ info, d.surfCompactionInfo = some info ∧ fd ∈ info.destinations.map Prod.fst}

end SuRFMetadata

namespace SuRFRDF

variable [LinearOrder K]

theorem files_applyDelta (env : SuRFEnv K) (f : Option (SuRFRDF K)) (d : SuRFMetadata K) :
    ((applyDelta env f d).getD empty).files ⊆ (f.getD empty).files ∪ d.newFiles := by
  have hcompaction : ((applyCompaction env f d.surfCompactionInfo).getD empty).files ⊆
      (f.getD empty).files ∪ d.newFiles := by
    unfold applyCompaction
    cases hinfo : d.surfCompactionInfo with
    | none => exact Set.subset_union_left
    | some info =>
      have hnew : {fd | fd ∈ info.destinations.map Prod.fst} ⊆ d.newFiles :=
        fun fd hfd => Or.inr ⟨info, hinfo, hfd⟩
      simp only
      split_ifs
      · refine subset_trans ?_ Set.subset_union_left
        apply files_foldl_subset
        intro f src
        apply files_foldl_subset
        intro f fd
        exact f.files_directMoveFileToLevel fd src.1 info.dstLevel
      · exact (files_removeSuRF _ _).trans Set.subset_union_left
      · refine (files_shiftRDFToOutputLevel _ _ _ _ _).trans
          (Set.union_subset_union (files_removeSuRF _ _) (subset_trans ?_ hnew))
        rw [List.map_map]
        exact subset_rfl
  unfold applyDelta
  cases htype : d.type with
  | kFlush =>
    unfold applyFlush
    cases hinfo : d.surfFlushInfo with
    | none => exact Set.subset_union_left
    | some info =>
      refine (files_insertRangeDeleteToLevel0 env _ _ _).trans
        (Set.union_subset_union_right _ ?_)
      rintro fd rfl
      exact Or.inl ⟨info, hinfo, rfl⟩
  | kCompaction => exact hcompaction
  | kCompactionDirectRemoved =>
    unfold applyDirectRemoval
    cases d.surfDirectRemovalInfo with
    | none => exact Set.subset_union_left
    | some info =>
      refine subset_trans ?_ Set.subset_union_left
      apply files_foldl_subset
      intro f fd
      exact f.files_removeSuRFAtLevelOfFd info.srcLevel fd
  | kCompactionDirectMoved => exact hcompaction

end SuRFRDF

end Spry
