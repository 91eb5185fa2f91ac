import Spry.SuRFCompaction
import Spry.SuRFPoints

/-!
# Ranges for the output files of a compaction

Two loops find the pieces of the merged tombstones inside of an output file. One goes on as long
as the ranges start in front of the end of the file. The other, which also stores point keys, goes
on as long as they end there, and takes one more range that only starts in front of it. For ordered
ranges both hand the same pieces to every file.
-/

namespace Spry

open HalfOpen

namespace SuRFRDF

variable {K : Type} [LinearOrder K]

def rangesToInsert (goesOn : K × K → Bool) (fileBoundary : K × K) : List (K × K) → List (K × K)
  | [] => []
  | rd :: rds =>
    if goesOn rd then
      (max rd.1 fileBoundary.1, min rd.2 fileBoundary.2) :: rangesToInsert goesOn fileBoundary rds
    else if rd.1 < fileBoundary.2 then
      [(max rd.1 fileBoundary.1, min rd.2 fileBoundary.2)]
    else []

/-- The loop over the output files, with what the loop over the ranges asks for and what is done
with the pieces. -/
def shiftRanges (goesOn : (fileBoundary rd : K × K) → Bool)
    (insert : SuRFRDF K → ℕ → List (K × K) → SuRFRDF K) :
    SuRFRDF K → List (K × K) → List (ℕ × (K × K)) → SuRFRDF K
  | f, _, [] => f
  | f, rdMerged, (dstFd, fileBoundary) :: dst =>
    if fileBoundary.1 = fileBoundary.2 then shiftRanges goesOn insert f rdMerged dst
    else
      let rest := rdMerged.dropWhile (fun r => r.2 ≤ fileBoundary.1)
      let ranges := rangesToInsert (goesOn fileBoundary) fileBoundary rest
      shiftRanges goesOn insert (if ranges = [] then f else insert f dstFd ranges) rest dst

def startsBeforeEnd (fileBoundary rd : K × K) : Bool := rd.1 < fileBoundary.2

def endsBeforeEnd (fileBoundary rd : K × K) : Bool := rd.2 ≤ fileBoundary.2

def shiftRDFWithPointKeysToOutputLevel (env : SuRFEnv K) (dstLevel : ℕ) (f : SuRFRDF K)
    (rdMerged : List (K × K)) (pointKeys : List K) (dst : List (ℕ × (K × K))) : SuRFRDF K :=
  shiftRanges endsBeforeEnd
    (fun f fd ranges => f.insertRangesWithPointKeysAtLevelOfFd env dstLevel fd ranges pointKeys)
    f rdMerged dst

theorem rangesToInsert_startsBeforeEnd (b : K × K) (rs : List (K × K)) :
    rangesToInsert (startsBeforeEnd b) b rs = clipOne rs b := by
  induction rs with
  | nil => rfl
  | cons r rs ih =>
    rw [rangesToInsert, startsBeforeEnd, ih]
    by_cases hstart : r.1 < b.2
    · rw [if_pos (by simpa using hstart), clipOne, clipOne,
        List.takeWhile_cons_of_pos (by simpa using hstart), List.map_cons]
    · rw [if_neg (by simpa using hstart), if_neg hstart, clipOne,
        List.takeWhile_cons_of_neg (by simpa using hstart), List.map_nil]

theorem rangesToInsert_endsBeforeEnd {b : K × K} {rs : List (K × K)} (hrs : Ordered rs) :
    rangesToInsert (endsBeforeEnd b) b rs = clipOne rs b := by
  induction rs with
  | nil => rfl
  | cons r rs ih =>
    obtain ⟨hr, hlater, hrest⟩ := Ordered.cons_iff.mp hrs
    rw [rangesToInsert, endsBeforeEnd, ih hrest]
    by_cases hend : r.2 ≤ b.2
    · have hstart : r.1 < b.2 := hr.trans_le hend
      rw [if_pos (by simpa using hend), clipOne, clipOne,
        List.takeWhile_cons_of_pos (by simpa using hstart), List.map_cons]
    · rw [if_neg (by simpa using hend)]
      by_cases hstart : r.1 < b.2
      · have hnil : clipOne rs b = [] := by
          apply (clipOne_eq_nil_iff hrest b).mpr
          exact fun s hs => (not_le.mp hend).le.trans (hlater s hs)
        rw [if_pos hstart, clipOne, List.takeWhile_cons_of_pos (by simpa using hstart),
          List.map_cons]
        exact congrArg _ hnil.symm
      · rw [if_neg hstart, clipOne, List.takeWhile_cons_of_neg (by simpa using hstart),
          List.map_nil]

theorem shiftRDFToOutputLevel_eq_shiftRanges (env : SuRFEnv K) (dstLevel : ℕ) (f : SuRFRDF K)
    (rdMerged : List (K × K)) (dst : List (ℕ × (K × K))) :
    f.shiftRDFToOutputLevel env dstLevel rdMerged dst =
      shiftRanges startsBeforeEnd (fun f fd => f.insertRangesAtLevelOfFd env dstLevel fd)
        f rdMerged dst := by
  induction dst generalizing f rdMerged with
  | nil => rfl
  | cons ab dst ih =>
    rw [shiftRDFToOutputLevel, shiftRanges]
    simp only [rangesToInsert_startsBeforeEnd, ih]

def handed (rdMerged : List (K × K)) (dst : List (ℕ × (K × K))) : List (ℕ × List (K × K)) :=
  (dst.map fun d => (d.1, intersections rdMerged d.2)).filter fun e => e.2 ≠ []

theorem filter_clipTagged_eq_handed {rdMerged : List (K × K)} {dst : List (ℕ × (K × K))}
    (hrd : Ordered rdMerged) (hwf : ∀ d ∈ dst, d.2.1 ≤ d.2.2)
    (hdst : StartSorted (dst.map Prod.snd)) :
    (clipTagged rdMerged dst).filter (fun e => e.2 ≠ []) = handed rdMerged dst := by
  rw [clipTagged_eq_map hrd hwf hdst, handed, List.filter_map, List.filter_map, List.filter_filter]
  congr 1
  apply List.filter_congr
  intro d _
  by_cases heq : d.2.1 = d.2.2
  · simp [intersections_eq_nil_of_eq rdMerged heq]
  · simp [heq]

theorem shiftRanges_eq_foldl {goesOn : (fileBoundary rd : K × K) → Bool}
    (hpieces : ∀ b rs, Ordered rs → rangesToInsert (goesOn b) b rs = clipOne rs b)
    (insert : SuRFRDF K → ℕ → List (K × K) → SuRFRDF K) (f : SuRFRDF K) {rdMerged : List (K × K)}
    (hrd : Ordered rdMerged) (dst : List (ℕ × (K × K))) :
    shiftRanges goesOn insert f rdMerged dst =
      ((clipTagged rdMerged dst).filter fun e => e.2 ≠ []).foldl
        (fun f e => insert f e.1 e.2) f := by
  induction dst generalizing f rdMerged with
  | nil => rfl
  | cons ab dst ih =>
    rw [shiftRanges, clipTagged]
    by_cases heq : ab.2.1 = ab.2.2
    · rw [if_pos heq, if_pos heq, ih f hrd]
    · have hrest : Ordered (rdMerged.dropWhile fun r => r.2 ≤ ab.2.1) :=
        hrd.sublist (List.dropWhile_sublist _)
      rw [if_neg heq, if_neg heq]
      simp only [hpieces ab.2 _ hrest]
      rw [ih _ hrest, List.filter_cons]
      by_cases hnil : clipOne (rdMerged.dropWhile fun r => r.2 ≤ ab.2.1) ab.2 = []
      · simp [hnil]
      · simp [hnil]

/-- Both functions hand the same pieces to every output file, the non-empty intersections of the
ranges with its boundary. -/
theorem shiftRDF_hands_intersections (env : SuRFEnv K) (dstLevel : ℕ) (f : SuRFRDF K)
    (pointKeys : List K) {rdMerged : List (K × K)} {dst : List (ℕ × (K × K))}
    (hrd : Ordered rdMerged) (hwf : ∀ d ∈ dst, d.2.1 ≤ d.2.2)
    (hdst : StartSorted (dst.map Prod.snd)) :
    f.shiftRDFToOutputLevel env dstLevel rdMerged dst =
        (handed rdMerged dst).foldl
          (fun f e => f.insertRangesAtLevelOfFd env dstLevel e.1 e.2) f ∧
      f.shiftRDFWithPointKeysToOutputLevel env dstLevel rdMerged pointKeys dst =
        (handed rdMerged dst).foldl
          (fun f e => f.insertRangesWithPointKeysAtLevelOfFd env dstLevel e.1 e.2 pointKeys) f := by
  rw [← filter_clipTagged_eq_handed hrd hwf hdst]
  constructor
  · rw [shiftRDFToOutputLevel_eq_shiftRanges]
    exact shiftRanges_eq_foldl (fun b rs _ => rangesToInsert_startsBeforeEnd b rs) _ f hrd dst
  · exact shiftRanges_eq_foldl (fun _ _ => rangesToInsert_endsBeforeEnd) _ f hrd dst

/-- A range over both files and one that ends where the second file does. -/
theorem shiftRDF_hands_intersections_sample :
    empty.shiftRDFWithPointKeysToOutputLevel ⟨true, true, id, id⟩ 1 [(1, 6), (7, 9)] [3]
        [(4, (2, 5)), (5, (5, 9))] =
      (empty.insertRangesWithPointKeysAtLevelOfFd ⟨true, true, id, id⟩ 1 4 [(2, 5)] [3]
        ).insertRangesWithPointKeysAtLevelOfFd ⟨true, true, id, id⟩ 1 5 [(5, 6), (7, 9)] [3] := by
  have hrd : Ordered [(1, 6), (7, 9)] := by decide
  have hwf : ∀ d ∈ [(4, (2, 5)), (5, (5, 9))], d.2.1 ≤ d.2.2 := by decide
  exact (shiftRDF_hands_intersections _ 1 empty [3] hrd hwf (by decide)).2

end SuRFRDF

end Spry
