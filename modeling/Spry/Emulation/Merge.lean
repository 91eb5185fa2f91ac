import Spry.Emulation.Verdict

/-!
# Sorting and merging entry lists

What a list from above and a list from below become in a compaction: the ranges of the upper
list delete points of the lower one, its points replace those of equal keys, and the ranges are
united. The result answers like the upper list over the lower one.
-/

namespace Spry.Emulation

open ClosedRange
open HalfOpen (StartSorted coalesceBy sortByStart mem_dropWhile_iff)

theorem mem_coverage_dropWhile_end {rs : List (ℤ × ℤ)} {a k : ℤ} (hk : a ≤ k) :
    k ∈ coverage (rs.dropWhile fun r => r.2 < a) ↔ k ∈ coverage rs := by
  have hsplit : coverage rs = coverage (rs.takeWhile fun r => r.2 < a) ∪
      coverage (rs.dropWhile fun r => r.2 < a) := by
    rw [← coverage_append, List.takeWhile_append_dropWhile]
  have hnot : k ∉ coverage (rs.takeWhile fun r => r.2 < a) := by
    rintro ⟨r, hr, _, hkr⟩
    have hra : r.2 < a := by simpa using List.mem_takeWhile_imp hr
    omega
  rw [hsplit, Set.mem_union, or_iff_right hnot]

theorem mem_dropWhile_end {rs : List (ℤ × ℤ)} (h : Ordered rs) {a : ℤ} {r : ℤ × ℤ} :
    r ∈ rs.dropWhile (fun r => r.2 < a) ↔ r ∈ rs ∧ a ≤ r.2 := by
  have hscan : rs.Pairwise fun x y => decide (y.2 < a) → decide (x.2 < a) := by
    refine h.disjoint.imp_of_mem ?_
    intro x y _ hy hxy hya
    have := h.valid y hy
    simp only [decide_eq_true_eq] at hya ⊢
    omega
  rw [mem_dropWhile_iff hscan]
  simp

namespace EntryList

theorem applyRangeDelete_eq_filter {rs : List (ℤ × ℤ)} {ps : List PointEntry} (hrs : Ordered rs)
    (hps : Ascending ps) :
    applyRangeDelete rs ps = ps.filter fun p => p.sortKey ∉ coverage rs := by
  induction ps generalizing rs with
  | nil => rfl
  | cons p ps ih =>
    obtain ⟨hp, hps⟩ := List.pairwise_cons.mp hps
    have hrest : Ordered (rs.dropWhile fun r => r.2 < p.sortKey) :=
      hrs.sublist (List.dropWhile_sublist _)
    have hfilter : (p :: ps).filter (fun q => q.sortKey ∉ coverage rs) =
        (p :: ps).filter fun q =>
          q.sortKey ∉ coverage (rs.dropWhile fun r => r.2 < p.sortKey) := by
      apply List.filter_congr
      intro q hq
      have hpq : p.sortKey ≤ q.sortKey := by
        rcases List.mem_cons.mp hq with rfl | hq
        · exact le_rfl
        · exact (hp q hq).le
      rw [decide_eq_decide, mem_coverage_dropWhile_end hpq]
    rw [hfilter, applyRangeDelete]
    cases hd : rs.dropWhile fun r => r.2 < p.sortKey with
    | nil => simp [ih Ordered.nil hps]
    | cons r rs' =>
      rw [hd] at hrest
      have hpr : p.sortKey ≤ r.2 := ((mem_dropWhile_end hrs).mp (hd ▸ List.mem_cons_self)).2
      have hhead := mem_coverage_cons_of_le hrest hpr
      by_cases hin : r.1 ≤ p.sortKey ∧ p.sortKey ≤ r.2
      · have hmem : p.sortKey ∈ coverage (r :: rs') := hhead.mpr hin.1
        rw [List.filter_cons_of_neg (by simpa only [decide_eq_true_eq, not_not] using hmem)]
        simp only [if_pos hin]
        exact ih hrest hps
      · have hnot : p.sortKey ∉ coverage (r :: rs') := fun h => hin ⟨hhead.mp h, hpr⟩
        rw [List.filter_cons_of_pos (by simpa only [decide_eq_true_eq] using hnot)]
        simp only [if_neg hin]
        rw [ih hrest hps]

structure Merges (as bs out : List PointEntry) : Prop where
  ascending : Ascending out
  subset : ∀ p ∈ out, p ∈ as ∨ p ∈ bs
  lookup_eq : ∀ k, lookup k out = (lookup k as).or (lookup k bs)

namespace Merges

variable {a b : PointEntry} {as bs out : List PointEntry}

theorem ascending_cons (h : Merges as bs out) (has : ∀ p ∈ as, a.sortKey < p.sortKey)
    (hbs : ∀ p ∈ bs, a.sortKey < p.sortKey) : Ascending (a :: out) := by
  refine List.pairwise_cons.mpr ⟨fun p hp => ?_, h.ascending⟩
  rcases h.subset p hp with hp | hp
  · exact has p hp
  · exact hbs p hp

theorem cons_upper (h : Merges as bs out) (has : ∀ p ∈ as, a.sortKey < p.sortKey)
    (hbs : ∀ p ∈ bs, a.sortKey < p.sortKey) : Merges (a :: as) bs (a :: out) := by
  refine ⟨h.ascending_cons has hbs, ?_, ?_⟩
  · intro p hp
    rcases List.mem_cons.mp hp with rfl | hp
    · exact Or.inl (by simp)
    · exact (h.subset p hp).imp_left (List.mem_cons_of_mem _)
  · intro k
    rw [lookup_cons, lookup_cons, h.lookup_eq k]
    split_ifs
    · rfl
    · rfl

theorem cons_both (h : Merges as bs out) (has : ∀ p ∈ as, a.sortKey < p.sortKey)
    (hbs : ∀ p ∈ bs, b.sortKey < p.sortKey) (heq : a.sortKey = b.sortKey) :
    Merges (a :: as) (b :: bs) (a :: out) := by
  refine ⟨h.ascending_cons has (heq ▸ hbs), ?_, ?_⟩
  · intro p hp
    rcases List.mem_cons.mp hp with rfl | hp
    · exact Or.inl (by simp)
    · exact (h.subset p hp).imp (List.mem_cons_of_mem _) (List.mem_cons_of_mem _)
  · intro k
    rw [lookup_cons, lookup_cons, lookup_cons, h.lookup_eq k, ← heq]
    split_ifs
    · rfl
    · rfl

theorem cons_lower (h : Merges as bs out) (has : ∀ p ∈ as, b.sortKey < p.sortKey)
    (hbs : ∀ p ∈ bs, b.sortKey < p.sortKey) : Merges as (b :: bs) (b :: out) := by
  refine ⟨h.ascending_cons has hbs, ?_, ?_⟩
  · intro p hp
    rcases List.mem_cons.mp hp with rfl | hp
    · exact Or.inr (by simp)
    · exact (h.subset p hp).imp_right (List.mem_cons_of_mem _)
  · intro k
    rw [lookup_cons b, lookup_cons b, h.lookup_eq k]
    by_cases hk : b.sortKey = k
    · have hnone : lookup k as = none := by
        rw [lookup_eq_none_iff]
        rintro ⟨p, hp, hpk⟩
        exact absurd (hk.trans hpk.symm) (has p hp).ne
      rw [hnone, if_pos hk, if_pos hk, Option.none_or]
    · rw [if_neg hk, if_neg hk]

end Merges

theorem merges_mergeHead {a : PointEntry} {as bs : List PointEntry}
    {rest : List PointEntry → List PointEntry} (ha : ∀ p ∈ as, a.sortKey < p.sortKey)
    (hrest : ∀ bs, Ascending bs → Merges as bs (rest bs)) (hbs : Ascending bs) :
    Merges (a :: as) bs (mergeHead a rest bs) := by
  induction bs with
  | nil => exact (hrest [] hbs).cons_upper ha (by simp)
  | cons b bs ih =>
    obtain ⟨hb, hbs'⟩ := List.pairwise_cons.mp hbs
    by_cases hlt : a.sortKey < b.sortKey
    · rw [mergeHead, if_pos hlt]
      apply (hrest (b :: bs) hbs).cons_upper ha
      exact List.forall_mem_cons.mpr ⟨hlt, fun p hp => hlt.trans (hb p hp)⟩
    by_cases heq : a.sortKey = b.sortKey
    · rw [mergeHead, if_neg hlt, if_pos heq]
      exact (hrest bs hbs').cons_both ha hb heq
    · have hba : b.sortKey < a.sortKey := by omega
      rw [mergeHead, if_neg hlt, if_neg heq]
      apply (ih hbs').cons_lower _ hb
      exact List.forall_mem_cons.mpr ⟨hba, fun p hp => hba.trans (ha p hp)⟩

theorem merges_mergePoints {as bs : List PointEntry} (has : Ascending as) (hbs : Ascending bs) :
    Merges as bs (mergePoints as bs) := by
  induction as generalizing bs with
  | nil => exact ⟨hbs, fun p hp => Or.inr hp, fun k => by simp [mergePoints]⟩
  | cons a as ih =>
    obtain ⟨ha, has⟩ := List.pairwise_cons.mp has
    exact merges_mergeHead ha (fun bs hbs => ih has hbs) hbs

/-- A list whose parts are merged from an upper and a lower list answers like the upper over the
lower one. -/
theorem merge_spec {l x m : EntryList} (hl : l.Sorted) (hx : x.Sorted)
    (hpoints : m.points = mergePoints l.points (applyRangeDelete l.ranges x.points))
    (hranges : m.ranges = uniteAll l.ranges x.ranges) :
    m.Sorted ∧ coverage m.ranges = coverage l.ranges ∪ coverage x.ranges ∧
      ∀ k, m.verdict k = (l.verdict k).or (x.verdict k) := by
  rw [applyRangeDelete_eq_filter hl.ranges hx.points] at hpoints
  obtain ⟨hasc, _, hlook⟩ := merges_mergePoints hl.points
    (hx.points.sublist (List.filter_sublist (p := fun p => p.sortKey ∉ coverage l.ranges)))
  obtain ⟨hcov, hord⟩ := uniteAll_spec hl.ranges.startSorted hx.ranges.startSorted
    hl.ranges.valid hx.ranges.valid
  rw [← hpoints] at hasc hlook
  rw [← hranges] at hcov hord
  refine ⟨⟨hasc, hord⟩, hcov, fun k => ?_⟩
  have hfilter : lookup k (x.points.filter fun p => p.sortKey ∉ coverage l.ranges) =
      if k ∉ coverage l.ranges then lookup k x.points else none := by
    rw [lookup_filter fun a => a ∉ coverage l.ranges]
    simp only [decide_eq_true_eq]
  have hk := hlook k
  rw [hfilter] at hk
  cases hlk : lookup k l.points with
  | some v =>
    rw [hlk, Option.some_or] at hk
    rw [verdict_of_mem_points hk, verdict_of_mem_points hlk, Option.some_or]
  | none =>
    rw [hlk, Option.none_or] at hk
    rw [verdict_of_notMem_points hlk]
    by_cases hc : k ∈ coverage l.ranges
    · rw [if_neg (not_not.mpr hc)] at hk
      rw [verdict_of_notMem_points hk, if_pos hc, if_pos (hcov ▸ Or.inl hc), Option.some_or]
    · rw [if_pos hc] at hk
      rw [if_neg hc, Option.none_or]
      refine verdict_congr hk ?_
      rw [hcov, Set.mem_union, or_iff_right hc]

theorem mergeOverlapped_eq_some {files : List SSTFile} {l m : EntryList}
    (h : mergeOverlapped files l = some m) (hne : ¬ l.empty = true) :
    ∃ x, l.getMinmaxRangeOverlappedEntriesFromFiles files = some x ∧
      x = overlappedEntries l.getMinKey l.getMaxKey files ∧
      m.points = mergePoints l.points (applyRangeDelete l.ranges x.points) ∧
      m.ranges = uniteAll l.ranges x.ranges := by
  obtain ⟨x, hx, h⟩ := Option.bind_eq_some_iff.mp h
  obtain ⟨n, hn, h⟩ := Option.bind_eq_some_iff.mp h
  refine ⟨x, hx, ?_, ?_⟩
  · rw [getMinmaxRangeOverlappedEntriesFromFiles, if_neg hne, Option.ite_none_right_eq_some] at hx
    exact (Option.some.inj hx.2).symm
  · rw [mergeWithAnotherPointEntryVector, Option.ite_none_right_eq_some] at hn
    rw [mergeWithAnotherRangeEntryVector, Option.ite_none_right_eq_some] at h
    rw [← Option.some.inj h.2, ← Option.some.inj hn.2]
    exact ⟨rfl, rfl⟩

end EntryList

section Sorting

/-- Entries as they come from the buffer: distinct keys, in any order, and ranges with a start
and an end. -/
structure EntryList.Raw (l : EntryList) : Prop where
  distinct : Distinct l.points
  valid : ∀ r ∈ l.ranges, r.1 ≤ r.2

theorem ascending_sortPoints {ps : List PointEntry} (h : Distinct ps) :
    Ascending (ps.insertionSort fun a b => a.sortKey ≤ b.sortKey) := by
  have : Std.Total fun a b : PointEntry => a.sortKey ≤ b.sortKey := ⟨fun a b => le_total _ _⟩
  have : IsTrans PointEntry fun a b => a.sortKey ≤ b.sortKey := ⟨fun _ _ _ => le_trans⟩
  have hdistinct : Distinct (ps.insertionSort fun a b => a.sortKey ≤ b.sortKey) :=
    ((List.perm_insertionSort _ ps).pairwise_iff fun hab => hab.symm).mpr h
  exact ((List.pairwise_insertionSort _ ps).and hdistinct).imp fun hab => lt_of_le_of_ne hab.1 hab.2

theorem sortEntries_raw {l s : EntryList} (hl : l.Raw) (h : sortEntries 1 l = some s) :
    s.Sorted ∧ coverage s.ranges = coverage l.ranges ∧ ∀ k, s.verdict k = l.verdict k := by
  obtain ⟨_, h⟩ := Option.ite_none_right_eq_some.mp (show (if _ then _ else none) = some s from h)
  have hpoints : s.points = l.points.insertionSort fun a b => a.sortKey ≤ b.sortKey := by
    rw [← Option.some.inj h]
    rfl
  have hperm := HalfOpen.sortByStart_perm l.ranges
  have hsorted := HalfOpen.startSorted_sortByStart l.ranges
  have hvalid : ∀ r ∈ sortByStart l.ranges, r.1 ≤ r.2 := fun r hr =>
    hl.valid r (hperm.mem_iff.mp hr)
  have hranges : coverage s.ranges = coverage l.ranges ∧ Ordered s.ranges := by
    rw [← Option.some.inj h, ← coverage_perm hperm]
    simp only [EntryList.sortRangeEntryVectorOnStartKey, EntryList.sortPointEntryVectorOnSortKey]
    cases hs : sortByStart l.ranges with
    | nil => exact ⟨rfl, Ordered.nil⟩
    | cons r rs =>
      rw [hs] at hsorted hvalid
      obtain ⟨hr, hrs⟩ := List.forall_mem_cons.mp hvalid
      have hunites := unites_coalesceBy hr hsorted hrs
      exact ⟨by rw [coverage_cons]; exact hunites.coverage_eq, hunites.ordered⟩
  refine ⟨⟨hpoints ▸ ascending_sortPoints hl.distinct, hranges.2⟩, hranges.1, fun k => ?_⟩
  apply EntryList.verdict_congr
  · rw [hpoints]
    exact (lookup_perm hl.distinct (List.perm_insertionSort _ _).symm).symm
  · rw [hranges.1]

theorem sort_sorted {l : EntryList} (hl : l.Sorted) :
    l.sortPointEntryVectorOnSortKey.sortRangeEntryVectorOnStartKey = l := by
  rw [EntryList.sortPointEntryVectorOnSortKey, EntryList.sortRangeEntryVectorOnStartKey,
    sortByStart, (hl.points.imp fun hab => hab.le).insertionSort_eq,
    hl.ranges.startSorted.insertionSort_eq]

theorem sortEnd_sorted {l : EntryList} (hl : l.Sorted) : l.sortRangeEntryVectorOnEndKey = l := by
  have hends : l.ranges.Pairwise fun a b => a.2 ≤ b.2 := by
    refine hl.ranges.disjoint.imp_of_mem ?_
    intro a b _ hb hab
    exact hab.le.trans (hl.ranges.valid b hb)
  rw [EntryList.sortRangeEntryVectorOnEndKey, hends.insertionSort_eq]

theorem sortEntries_sorted {l s : EntryList} {level : ℕ} (hl : l.Sorted) (hlevel : level ≠ 1)
    (h : sortEntries level l = some s) : s = l := by
  rw [sortEntries, if_neg hlevel, sort_sorted hl] at h
  exact (Option.some.inj h).symm

end Sorting

end Spry.Emulation
