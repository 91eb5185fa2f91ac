import Spry.BundleSplit
import Spry.Interval.ClipTagged

/-!
# Tracing the ranges of each file

With tracing the string-key filter also keeps, for every level and file, the ranges that belong
to the file. Compactions and removals take the entries of their input files away, and a
compaction writes the pieces of its merged tombstones to its output files.
-/

namespace Spry

open HalfOpen

variable {K : Type}

structure Tracing (K : Type) where
  tracingRdFilterLevel0 : AList (fun _ : ℕ => List (K × K))
  tracingLevelFileRdFilter : LevelMap (List (K × K))

structure TracingMetadata (K : Type) extends RDFUpdateMetadata K where
  plrdfStringkeyTracingAdd : List (ℕ × ℕ × List (K × K)) := []
  plrdfStringkeyTracingRemove : List (ℕ × ℕ) := []

namespace Tracing

def empty : Tracing K := ⟨∅, []⟩

def insertTracingRangesAtLevelOfFd (t : Tracing K) (level fd : ℕ) (ranges : List (K × K)) :
    Tracing K :=
  if ranges = [] then t
  else if level = 0 then
    { t with tracingRdFilterLevel0 := t.tracingRdFilterLevel0.insert fd ranges }
  else
    { t with tracingLevelFileRdFilter := t.tracingLevelFileRdFilter.insertAt level fd ranges }

def removeTracingRangesAtLevelOfFd (t : Tracing K) (level fd : ℕ) : Tracing K :=
  if level = 0 then { t with tracingRdFilterLevel0 := t.tracingRdFilterLevel0.erase fd }
  else { t with tracingLevelFileRdFilter := t.tracingLevelFileRdFilter.eraseAt level fd }

/-- The loop body of `gatherTracingRangesAndRemove` for one file. A level-0 file is looked up in
the level-0 map and then in the map of level 0 like any other. -/
def gatherFile (level : ℕ) (acc : List (K × K) × Tracing K) (fd : ℕ) :
    List (K × K) × Tracing K :=
  let (agg, t) :=
    if level = 0 then
      (acc.1 ++ (acc.2.tracingRdFilterLevel0.lookup fd).getD [],
        { acc.2 with tracingRdFilterLevel0 := acc.2.tracingRdFilterLevel0.erase fd })
    else acc
  (agg ++ (t.tracingLevelFileRdFilter.lookupAt level fd).getD [],
    { t with tracingLevelFileRdFilter := t.tracingLevelFileRdFilter.eraseAt level fd })

def applyFlush (t : Tracing K) (d : TracingMetadata K) : Tracing K :=
  d.plrdfStringkeyTracingAdd.foldl
    (fun t add => t.insertTracingRangesAtLevelOfFd add.1 add.2.1 add.2.2) t

def applyDirectRemoval (t : Tracing K) (d : TracingMetadata K) : Tracing K :=
  d.plrdfStringkeyTracingRemove.foldl (fun t p => t.removeTracingRangesAtLevelOfFd p.1 p.2) t

/-! ### The entries of the deeper levels -/

def rangesOf (t : Tracing K) (level fd : ℕ) : Option (List (K × K)) :=
  t.tracingLevelFileRdFilter.lookupAt level fd

def mapOf (t : Tracing K) (level : ℕ) : LevelMap (List (K × K)) :=
  if level = 0 then [t.tracingRdFilterLevel0] else t.tracingLevelFileRdFilter

theorem mapOf_of_ne_zero (t : Tracing K) {level : ℕ} (hlevel : level ≠ 0) :
    t.mapOf level = t.tracingLevelFileRdFilter := if_neg hlevel

theorem mapOf_insertTracingRanges (t : Tracing K) (level fd : ℕ) {ranges : List (K × K)}
    (hne : ranges ≠ []) :
    (t.insertTracingRangesAtLevelOfFd level fd ranges).mapOf level =
      (t.mapOf level).insertAt level fd ranges := by
  rw [insertTracingRangesAtLevelOfFd, if_neg hne, mapOf, mapOf]
  by_cases hlevel : level = 0
  · rw [if_pos hlevel, if_pos hlevel, if_pos hlevel, hlevel]
    rfl
  · rw [if_neg hlevel, if_neg hlevel, if_neg hlevel]

theorem rangesOf_applyFlush (t : Tracing K) {d : TracingMetadata K}
    (hadd : ∀ add ∈ d.plrdfStringkeyTracingAdd, add.1 = 0) (level fd : ℕ) :
    (t.applyFlush d).rangesOf level fd = t.rangesOf level fd := by
  unfold applyFlush
  generalize d.plrdfStringkeyTracingAdd = adds at hadd
  induction adds generalizing t with
  | nil => rfl
  | cons add adds ih =>
    rw [List.foldl_cons, ih _ fun a ha => hadd a (List.mem_cons_of_mem add ha),
      insertTracingRangesAtLevelOfFd, if_pos (hadd add List.mem_cons_self)]
    split_ifs <;> rfl

theorem rangesOf_applyDirectRemoval (t : Tracing K) (d : TracingMetadata K) {level : ℕ}
    (hlevel : level ≠ 0) (fd : ℕ) :
    (t.applyDirectRemoval d).rangesOf level fd =
      if (level, fd) ∈ d.plrdfStringkeyTracingRemove then none else t.rangesOf level fd := by
  unfold applyDirectRemoval
  induction d.plrdfStringkeyTracingRemove generalizing t with
  | nil => simp
  | cons p ps ih =>
    have hone : (t.removeTracingRangesAtLevelOfFd p.1 p.2).rangesOf level fd =
        if (level, fd) = p then none else t.rangesOf level fd := by
      rw [removeTracingRangesAtLevelOfFd]
      split_ifs with hzero heq heq
      · exact absurd ((congrArg Prod.fst heq).trans hzero) hlevel
      · rfl
      · rw [rangesOf, LevelMap.lookupAt_eraseAt, if_pos (by simp [← heq])]
      · rw [rangesOf, LevelMap.lookupAt_eraseAt, if_neg (by simpa [Prod.ext_iff] using heq)]
        rfl
    rw [List.foldl_cons, ih, hone]
    by_cases hin : (level, fd) ∈ ps
    · simp [hin]
    · simp [hin]

theorem tracingLevelFileRdFilter_gather (sources : List (ℕ × List ℕ))
    (acc : List (K × K) × Tracing K) :
    (sources.foldl (fun acc src => src.2.foldl (gatherFile src.1) acc)
        acc).2.tracingLevelFileRdFilter =
      acc.2.tracingLevelFileRdFilter.eraseFiles sources := by
  have hfile : ∀ level (acc : List (K × K) × Tracing K) fd,
      acc.2.tracingLevelFileRdFilter.eraseAt level fd =
        (gatherFile level acc fd).2.tracingLevelFileRdFilter := by
    intro level acc fd
    rw [gatherFile]
    split_ifs <;> rfl
  have hlevel : ∀ (acc : List (K × K) × Tracing K) (src : ℕ × List ℕ),
      src.2.foldl (fun m fd => m.eraseAt src.1 fd) acc.2.tracingLevelFileRdFilter =
        (src.2.foldl (gatherFile src.1) acc).2.tracingLevelFileRdFilter := fun acc src =>
    List.foldl_hom (fun acc : List (K × K) × Tracing K => acc.2.tracingLevelFileRdFilter)
      (hfile src.1)
  exact (List.foldl_hom (fun acc : List (K × K) × Tracing K => acc.2.tracingLevelFileRdFilter)
    hlevel).symm

variable [LinearOrder K]

def gatherTracingRangesAndRemove (t : Tracing K) (sources : List (ℕ × List ℕ)) :
    List (K × K) × Tracing K :=
  let (agg, t) := sources.foldl (fun acc src => src.2.foldl (gatherFile src.1) acc) ([], t)
  (PLRDF.sortAndMerge agg, t)

/-- The second loop of `shiftTracingToOutputLevel`: the pieces inside of the boundary, and the
ranges not used up. A range that goes on after the boundary ends the loop. -/
def collectRanges (fileBoundary : K × K) : List (K × K) → List (K × K) × List (K × K)
  | [] => ([], [])
  | r :: rs =>
    if r.1 < fileBoundary.2 then
      let rangeIn := (max r.1 fileBoundary.1, min r.2 fileBoundary.2)
      if fileBoundary.2 < r.2 then ([rangeIn], r :: rs)
      else
        let (rangesToInsert, rest) := collectRanges fileBoundary rs
        (rangeIn :: rangesToInsert, rest)
    else ([], r :: rs)

def shiftTracingToOutputLevel (dstLevel : ℕ) :
    Tracing K → List (K × K) → List (ℕ × (K × K)) → Tracing K
  | t, _, [] => t
  | t, rdMerged, (dstFd, fileBoundary) :: dst =>
    if rdMerged = [] then t
    else if fileBoundary.1 = fileBoundary.2 then shiftTracingToOutputLevel dstLevel t rdMerged dst
    else
      let (rangesToInsert, rest) :=
        collectRanges fileBoundary (rdMerged.dropWhile (fun r => r.2 ≤ fileBoundary.1))
      shiftTracingToOutputLevel dstLevel
        (if rangesToInsert = [] then t
          else t.insertTracingRangesAtLevelOfFd dstLevel dstFd rangesToInsert) rest dst

def applyCompaction (t : Tracing K) (d : TracingMetadata K) : Tracing K :=
  match d.fdRangetombstonesInfo with
  | none => t
  | some info =>
    if d.plrdfStringkeyCompactionDelta = [] then t
    else
      let (_, t) := t.gatherTracingRangesAndRemove info.sources
      let gathered := coalesceAll (sortPairs info.inputTombstones)
      if gathered = [] then t
      else shiftTracingToOutputLevel info.dstLevel t gathered info.destinations

def applyDelta (t : Tracing K) (d : TracingMetadata K) : Tracing K :=
  match d.type with
  | .kFlush => t.applyFlush d
  | .kCompaction => t.applyCompaction d
  | .kCompactionDirectRemoved => t.applyDirectRemoval d
  | .kCompactionDirectMoved => t.applyCompaction d

theorem rangesOf_gatherTracingRangesAndRemove (t : Tracing K) (sources : List (ℕ × List ℕ))
    (level fd : ℕ) :
    (t.gatherTracingRangesAndRemove sources).2.rangesOf level fd =
      if ∃ src ∈ sources, src.1 = level ∧ fd ∈ src.2 then none else t.rangesOf level fd := by
  rw [rangesOf, gatherTracingRangesAndRemove, tracingLevelFileRdFilter_gather,
    LevelMap.lookupAt_eraseFiles]
  rfl

theorem collectRanges_eq {rs : List (K × K)} (hrs : Ordered rs) (b : K × K) :
    collectRanges b rs = (clipOne rs b, rs.dropWhile (fun r => r.2 ≤ b.2)) := by
  induction rs with
  | nil => rfl
  | cons r rs ih =>
    obtain ⟨hr, hnext, hrs'⟩ := Ordered.cons_iff.mp hrs
    rw [collectRanges]
    by_cases hstart : r.1 < b.2
    · have hone : clipOne (r :: rs) b = (max r.1 b.1, min r.2 b.2) :: clipOne rs b := by
        rw [clipOne, List.takeWhile_cons_of_pos (by simpa using hstart)]
        rfl
      rw [if_pos hstart, hone]
      by_cases hend : b.2 < r.2
      · have hnil : clipOne rs b = [] :=
          (clipOne_eq_nil_iff hrs' b).mpr fun s hs => hend.le.trans (hnext s hs)
        rw [if_pos hend, hnil, List.dropWhile_cons_of_neg (by simpa using hend)]
      · rw [if_neg hend, ih hrs', List.dropWhile_cons_of_pos (by simpa using hend)]
    · have hend : b.2 < r.2 := (not_lt.mp hstart).trans_lt hr
      rw [if_neg hstart, clipOne, List.takeWhile_cons_of_neg (by simpa using hstart),
        List.dropWhile_cons_of_neg (by simpa using hend)]
      rfl

theorem mapOf_shift (dstLevel : ℕ) {rdMerged : List (K × K)} (hrd : Ordered rdMerged)
    (dst : List (ℕ × (K × K))) (t : Tracing K) :
    (shiftTracingToOutputLevel dstLevel t rdMerged dst).mapOf dstLevel =
      ((consumeTagged rdMerged dst).filter (fun e => e.2 ≠ [])).foldl
        (fun m e => m.insertAt dstLevel e.1 e.2) (t.mapOf dstLevel) := by
  induction dst generalizing t rdMerged with
  | nil => rfl
  | cons ab dst ih =>
    rw [shiftTracingToOutputLevel]
    by_cases hnil : rdMerged = []
    · rw [if_pos hnil, hnil, filter_consumeTagged_nil]
      rfl
    · rw [if_neg hnil, consumeTagged]
      by_cases heq : ab.2.1 = ab.2.2
      · rw [if_pos heq, if_pos heq, ih hrd]
      · have hrd' : Ordered (rdMerged.dropWhile (fun r => r.2 ≤ ab.2.1)) :=
          hrd.sublist (List.dropWhile_sublist _)
        rw [if_neg heq, if_neg heq, collectRanges_eq hrd' ab.2]
        simp only
        rw [ih (hrd'.sublist (List.dropWhile_sublist _)), List.filter_cons]
        by_cases hpieces : clipOne (rdMerged.dropWhile (fun r => r.2 ≤ ab.2.1)) ab.2 = []
        · simp [hpieces]
        · simp [hpieces, mapOf_insertTracingRanges t dstLevel ab.1 hpieces]

/-- Given disjoint output files of their own numbers and pieces in ascending order, the shift
stores the pieces of each file and nothing else. -/
theorem lookupAt_mapOf_shift (dstLevel : ℕ) {rdMerged : List (K × K)} (hrd : Ordered rdMerged)
    {dst : List (ℕ × (K × K))} (hwf : ∀ ab ∈ dst, ab.2.1 ≤ ab.2.2)
    (hnodup : (dst.map Prod.fst).Nodup)
    (hdisjoint : dst.Pairwise
      (fun x y => Disjoint (Set.Ico x.2.1 x.2.2) (Set.Ico y.2.1 y.2.2)))
    (hsorted : StartSorted (clip rdMerged (dst.map Prod.snd))) (t : Tracing K) :
    (∀ fd ranges, (fd, ranges) ∈ clipTagged rdMerged dst → ranges ≠ [] →
      ((shiftTracingToOutputLevel dstLevel t rdMerged dst).mapOf dstLevel).lookupAt dstLevel fd =
        some ranges) ∧
    ∀ level fd, (level = dstLevel →
        ∀ ranges, (fd, ranges) ∈ clipTagged rdMerged dst → ranges = []) →
      ((shiftTracingToOutputLevel dstLevel t rdMerged dst).mapOf dstLevel).lookupAt level fd =
        (t.mapOf dstLevel).lookupAt level fd := by
  have hsame : Behind rdMerged rdMerged (dst.map Prod.snd) := Or.inl rfl
  have hpieces := hsame.filter_consumeTagged hrd hwf hdisjoint hsorted
  have hnodup' := (map_fst_clipTagged_sublist rdMerged dst).nodup hnodup
  obtain ⟨hwritten, hkept⟩ := LevelMap.lookupAt_foldl_insertAt_filter dstLevel id
    (fun e => e.2 ≠ []) hnodup' (t.mapOf dstLevel)
  simp only [mapOf_shift dstLevel hrd, hpieces]
  constructor
  · exact fun fd ranges hmem hne => hwritten fd ranges hmem (by simpa using hne)
  · exact fun level fd hnone => hkept level fd fun hdst ranges hmem => by
      simpa using hnone hdst ranges hmem

/-- What a shift does to the deeper levels when it is given disjoint output files of their own
numbers and its pieces come in ascending order. -/
theorem rangesOf_shiftTracingToOutputLevel {dstLevel : ℕ} (hlevel : dstLevel ≠ 0)
    {rdMerged : List (K × K)} (hrd : Ordered rdMerged) {dst : List (ℕ × (K × K))}
    (hwf : ∀ ab ∈ dst, ab.2.1 ≤ ab.2.2) (hnodup : (dst.map Prod.fst).Nodup)
    (hdisjoint : dst.Pairwise
      (fun x y => Disjoint (Set.Ico x.2.1 x.2.2) (Set.Ico y.2.1 y.2.2)))
    (hsorted : StartSorted (clip rdMerged (dst.map Prod.snd))) (t : Tracing K) :
    (∀ fd ranges, (fd, ranges) ∈ clipTagged rdMerged dst → ranges ≠ [] →
      (shiftTracingToOutputLevel dstLevel t rdMerged dst).rangesOf dstLevel fd = some ranges) ∧
    ∀ level fd, (level = dstLevel →
        ∀ ranges, (fd, ranges) ∈ clipTagged rdMerged dst → ranges = []) →
      (shiftTracingToOutputLevel dstLevel t rdMerged dst).rangesOf level fd =
        t.rangesOf level fd := by
  have hlookup := lookupAt_mapOf_shift dstLevel hrd hwf hnodup hdisjoint hsorted t
  simp only [mapOf_of_ne_zero _ hlevel] at hlookup
  exact hlookup

/-- With tombstones to move, what a compaction leaves after gathering is shifted; with none, the
shift does nothing. -/
theorem applyCompaction_eq (t : Tracing K) {d : TracingMetadata K} {info : MovingRDInfo K}
    (hinfo : d.fdRangetombstonesInfo = some info)
    (hentries : d.plrdfStringkeyCompactionDelta ≠ []) :
    t.applyCompaction d = shiftTracingToOutputLevel info.dstLevel
      (t.gatherTracingRangesAndRemove info.sources).2
      (coalesceAll (sortPairs info.inputTombstones)) info.destinations := by
  simp only [applyCompaction, hinfo, if_neg hentries]
  split_ifs with hnil
  · rw [hnil]
    cases info.destinations with
    | nil => rfl
    | cons ab dst => rw [shiftTracingToOutputLevel, if_pos rfl]
  · rfl

end Tracing

end Spry
