import Spry.Interval.NormalForm
import Spry.PLRDFCoverage

/-!
# One normal form, three ways to merge

`sortAndMerge` sorts and folds, `addRangeDelete` merges two sorted lists, and the overload for a
single range inserts it in one pass. All of them reach the normal form of what they are given.
-/

namespace Spry.PLRDF

open HalfOpen

variable {K : Type*} [LinearOrder K]

/-- The overload of `addRangeDelete` for one range: ranges that end before it stay in front, the
ones it meets are joined to it, and the pass stops at the first range that starts after it. -/
def addRangeDeleteSingle (rdList : List (K × K)) (rd : K × K) : List (K × K) :=
  insertRange rd.1 rd.2 rd rdList

theorem sortAndMerge_eq_coalesceAll {rs ts : List (K × K)} (hwf : ∀ r ∈ rs, r.1 ≤ r.2)
    (hts : StartSorted ts) (hperm : ts.Perm rs) : sortAndMerge rs = coalesceAll ts := by
  rw [sortAndMerge_eq hwf]
  refine coalesceAll_eq_of_perm ((sortByStart_perm rs).trans hperm.symm)
    (startSorted_sortByStart rs) hts ?_
  intro r hr
  exact hwf r ((sortByStart_perm rs).mem_iff.mp hr)

theorem normal_sortAndMerge {rs : List (K × K)} (hne : ∀ r ∈ rs, r.1 < r.2) :
    Normal (sortAndMerge rs) := by
  rw [sortAndMerge_eq fun r hr => (hne r hr).le]
  refine normal_coalesceAll (startSorted_sortByStart rs) ?_
  intro r hr
  exact hne r ((sortByStart_perm rs).mem_iff.mp hr)

theorem gapped_sortAndMerge {rs : List (K × K)} (hwf : ∀ r ∈ rs, r.1 ≤ r.2) :
    Gapped (sortAndMerge rs) := by
  rw [sortAndMerge_eq hwf]
  exact gapped_coalesceAll (startSorted_sortByStart rs)

theorem start_le_end_append {rdList rdListIn : List (K × K)} (hnormal : Normal rdList)
    (hwf : ∀ r ∈ rdListIn, r.1 ≤ r.2) : ∀ r ∈ rdList ++ rdListIn, r.1 ≤ r.2 := by
  intro r hr
  rcases List.mem_append.mp hr with hr | hr
  · exact (hnormal.nonempty r hr).le
  · exact hwf r hr

theorem addRangeDelete_eq_sortAndMerge {rdList rdListIn : List (K × K)} (hnormal : Normal rdList)
    (hin : StartSorted rdListIn) (hwf : ∀ r ∈ rdListIn, r.1 ≤ r.2) :
    addRangeDelete rdList rdListIn = some (sortAndMerge (rdList ++ rdListIn)) := by
  have hle := start_le_end_append hnormal hwf
  by_cases hempty : rdListIn = []
  · subst hempty
    -- nothing is added: the list is its own normal form
    rw [List.append_nil, addRangeDelete, if_pos rfl, Option.some.injEq]
    exact hnormal.eq_of_coverage_eq (normal_sortAndMerge hnormal.nonempty)
      (coverage_sortAndMerge rdList).symm
  · rw [addRangeDelete, if_neg hempty, if_pos hin, Option.some.injEq]
    exact (sortAndMerge_eq_coalesceAll hle
      (startSorted_interleave hnormal.ordered.startSorted hin) (interleave_perm _ _)).symm

theorem foldl_addRangeDeleteSingle_eq_sortAndMerge {rdList rdListIn : List (K × K)}
    (hnormal : Normal rdList) (hwf : ∀ r ∈ rdListIn, r.1 ≤ r.2) :
    rdListIn.foldl addRangeDeleteSingle rdList = sortAndMerge (rdList ++ rdListIn) := by
  have hle := start_le_end_append hnormal hwf
  rw [sortAndMerge_eq hle]
  exact foldl_insertRange_eq_coalesceAll hnormal.gapped hle (startSorted_sortByStart _)
    (sortByStart_perm _)

/-- Sorting and merging gives the one normal form with the same coverage, whatever the order of
its input. Merging a list into a normal form, at once or range by range, gives the same. -/
theorem merges_agree :
    (∀ rs : List (K × K), (∀ r ∈ rs, r.1 < r.2) →
      (∀ ss, Normal ss ∧ coverage ss = coverage rs ↔ ss = sortAndMerge rs) ∧
      ∀ rs' : List (K × K), rs'.Perm rs → sortAndMerge rs' = sortAndMerge rs) ∧
    ∀ rdList rdListIn : List (K × K), Normal rdList → StartSorted rdListIn →
      (∀ r ∈ rdListIn, r.1 ≤ r.2) →
      addRangeDelete rdList rdListIn = some (sortAndMerge (rdList ++ rdListIn)) ∧
      rdListIn.foldl addRangeDeleteSingle rdList = sortAndMerge (rdList ++ rdListIn) := by
  refine ⟨?_, ?_⟩
  · intro rs hne
    have hwf : ∀ r ∈ rs, r.1 ≤ r.2 := fun r hr => (hne r hr).le
    refine ⟨?_, ?_⟩
    · intro ss
      constructor
      · rintro ⟨hnormal, hcov⟩
        exact hnormal.eq_of_coverage_eq (normal_sortAndMerge hne)
          (hcov.trans (coverage_sortAndMerge rs).symm)
      · rintro rfl
        exact ⟨normal_sortAndMerge hne, coverage_sortAndMerge rs⟩
    · intro rs' hperm
      have hwf' : ∀ r ∈ rs', r.1 ≤ r.2 := fun r hr => hwf r (hperm.mem_iff.mp hr)
      rw [sortAndMerge_eq hwf]
      exact sortAndMerge_eq_coalesceAll hwf' (startSorted_sortByStart rs)
        ((sortByStart_perm rs).trans hperm.symm)
  · intro rdList rdListIn hnormal hin hwf
    exact ⟨addRangeDelete_eq_sortAndMerge hnormal hin hwf,
      foldl_addRangeDeleteSingle_eq_sortAndMerge hnormal hwf⟩

theorem merges_agree_sample :
    Normal [((1 : ℕ), 3), (6, 8)] ∧
      sortAndMerge [((6 : ℕ), 8), (1, 2), (2, 3)] = [(1, 3), (6, 8)] ∧
      addRangeDelete [((1 : ℕ), 3), (6, 8)] [(2, 2), (3, 4), (5, 7)] =
        some (sortAndMerge ([(1, 3), (6, 8)] ++ [(2, 2), (3, 4), (5, 7)])) := by
  refine ⟨by decide, ?_, ?_⟩
  · exact (((merges_agree.1 [(6, 8), (1, 2), (2, 3)] (by decide)).1 [(1, 3), (6, 8)]).mp
      ⟨by decide, by
        ext k
        simp only [mem_coverage, List.mem_cons, List.not_mem_nil, or_false, exists_eq_or_imp,
          exists_eq_left]
        omega⟩).symm
  · exact (merges_agree.2 [(1, 3), (6, 8)] [(2, 2), (3, 4), (5, 7)] (by decide) (by decide)
      (by decide)).1

end Spry.PLRDF
