import Spry.PLRDFReachable

/-!
# Gathering the ranges of the input files

`gatherSortedRangeTombstonesAndRemoveRDF` takes every range that meets one of the boundaries off
its level, and hands on the parts of it inside of the boundaries. The parts outside of them are
lost, so coverage is conserved exactly if the ranges met lie inside.
-/

namespace Spry.PLRDF

open HalfOpen

variable {K : Type*} [LinearOrder K]

def Overlaps (range boundary : K × K) : Prop := boundary.1 < range.2 ∧ range.1 < boundary.2

instance (range boundary : K × K) : Decidable (Overlaps range boundary) :=
  inferInstanceAs (Decidable (boundary.1 < range.2 ∧ range.1 < boundary.2))

/-- The lower bound of `start` on the starts splits the level. -/
def getOverlappingRanges (f : PLRDF K) (level : ℕ) (start stop : K) : List (K × K) :=
  if f.rdFilter.length ≤ level then []
  else
    let ranges := f.getLevelRanges level
    let before := ranges.takeWhile fun r => r.1 < start
    let rest := ranges.dropWhile fun r => r.1 < start
    (before.getLast?.filter fun prev => start < prev.2).toList ++ rest.takeWhile fun r => r.1 < stop

theorem overlaps_iff_nonempty {range boundary : K × K} (hrange : range.1 < range.2)
    (hboundary : boundary.1 < boundary.2) : Overlaps range boundary ↔
      (Set.Ico range.1 range.2 ∩ Set.Ico boundary.1 boundary.2).Nonempty := by
  constructor
  · rintro ⟨hstart, hstop⟩
    exact ⟨max range.1 boundary.1, ⟨le_max_left _ _, max_lt hrange hstart⟩,
      le_max_right _ _, max_lt hstop hboundary⟩
  · rintro ⟨k, ⟨hlo, hhi⟩, hlo', hhi'⟩
    exact ⟨hlo'.trans_lt hhi, hlo.trans_lt hhi'⟩

theorem getOverlappingRanges_eq_filter (f : PLRDF K) {level : ℕ} {start stop : K}
    (hord : Ordered (f.getLevelRanges level)) (hquery : start < stop) :
    f.getOverlappingRanges level start stop =
      (f.getLevelRanges level).filter fun r => Overlaps r (start, stop) := by
  rw [getOverlappingRanges]
  split_ifs with hlen
  · rw [getLevelRanges, List.getD_eq_getElem?_getD, List.getElem?_eq_none hlen]
    rfl
  · have hsplit := List.takeWhile_append_dropWhile (p := fun r => decide (r.1 < start))
      (l := f.getLevelRanges level)
    generalize f.getLevelRanges level = ranges at hord hsplit ⊢
    have hbefore : ∀ r ∈ ranges.takeWhile fun r => r.1 < start, r.1 < start := fun r hr => by
      simpa using List.mem_takeWhile_imp hr
    have hscan : ∀ k, ranges.Pairwise fun a b => decide (b.1 < k) → decide (a.1 < k) := fun k => by
      refine hord.startSorted.imp ?_
      simp only [decide_eq_true_eq]
      exact fun hab hb => hab.trans_lt hb
    have hrest : ∀ r ∈ ranges.dropWhile fun r => r.1 < start, start < r.2 := fun r hr => by
      obtain ⟨hmem, hle⟩ := (mem_dropWhile_iff (hscan start)).mp hr
      simp only [decide_eq_true_eq, not_lt] at hle
      exact hle.trans_lt (hord.nonempty r hmem)
    conv_rhs => rw [← hsplit, List.filter_append]
    refine congrArg₂ (· ++ ·) ?_ ?_
    · -- a range that starts before the query also starts before its end
      rw [← (hord.sublist (List.takeWhile_sublist _)).filter_end_of_start_lt hbefore]
      refine List.filter_congr fun r hr => ?_
      simp [Overlaps, (hbefore r hr).trans hquery]
    · rw [takeWhile_eq_filter ((hscan stop).sublist (List.dropWhile_sublist _))]
      refine List.filter_congr fun r hr => ?_
      simp [Overlaps, hrest r hr]

/-- On a level of ordered ranges the query finds exactly the ranges that meet the interval, in
the order of the level. -/
theorem getOverlappingRanges_spec (f : PLRDF K) {level : ℕ} {start stop : K}
    (hord : Ordered (f.getLevelRanges level)) (hquery : start < stop) :
    (f.getOverlappingRanges level start stop).Sublist (f.getLevelRanges level) ∧
      (f.getOverlappingRanges level start stop).Nodup ∧
      ∀ r, r ∈ f.getOverlappingRanges level start stop ↔ r ∈ f.getLevelRanges level ∧
        (Set.Ico r.1 r.2 ∩ Set.Ico start stop).Nonempty := by
  rw [getOverlappingRanges_eq_filter f hord hquery]
  refine ⟨List.filter_sublist, hord.nodup.filter _, fun r => ?_⟩
  rw [List.mem_filter, decide_eq_true_eq]
  exact and_congr_right fun hr => overlaps_iff_nonempty (hord.nonempty r hr) hquery

/-- A range that reaches into the query, one inside of it, and two that only touch it. -/
theorem getOverlappingRanges_spec_sample : ∃ f : PLRDF ℕ,
    f = ⟨∅, [[], [(1, 3), (3, 6), (7, 8), (9, 12)]], [[], []]⟩ ∧
      f.getOverlappingRanges 1 4 9 = [(3, 6), (7, 8)] ∧
      (f.getOverlappingRanges 1 4 9).Sublist (f.getLevelRanges 1) ∧
      (f.getOverlappingRanges 1 4 9).Nodup ∧
      ∀ r, r ∈ f.getOverlappingRanges 1 4 9 ↔ r ∈ f.getLevelRanges 1 ∧
        (Set.Ico r.1 r.2 ∩ Set.Ico 4 9).Nonempty :=
  ⟨_, rfl, by decide, getOverlappingRanges_spec
    ⟨∅, [[], [(1, 3), (3, 6), (7, 8), (9, 12)]], [[], []]⟩ (by decide) (by decide)⟩

def fragments (fileBoundaries : List (K × K)) (range : K × K) : List (K × K) :=
  fileBoundaries.filterMap fun boundary =>
    let start := max range.1 boundary.1
    let stop := min range.2 boundary.2
    if start < stop then some (start, stop) else none

def gatherLevel0 (acc : List (K × K) × AList (fun _ : ℕ => List (K × K))) (fileNum : ℕ) :
    List (K × K) × AList (fun _ : ℕ => List (K × K)) :=
  match acc.2.lookup fileNum with
  | none => acc
  | some ranges => (acc.1 ++ ranges, acc.2.erase fileNum)

def gatherSortedRangeTombstonesAndRemoveRDF (f : PLRDF K) (clevel : ℕ) (fileNumbers : List ℕ)
    (fileBoundaries gathered : List (K × K)) : List (K × K) × PLRDF K :=
  if clevel = 0 then
    let (gathered, level0) := fileNumbers.foldl gatherLevel0 (gathered, f.rdFilterLevel0)
    (gathered, { f with rdFilterLevel0 := level0 })
  else if f.rdFilter.length ≤ clevel then (gathered, f)
  else
    let overlapped := fun range => decide (∃ boundary ∈ fileBoundaries, Overlaps range boundary)
    let ranges := f.getLevelRanges clevel
    (gathered ++ (ranges.filter overlapped).flatMap (fragments fileBoundaries),
      { f with rdFilter := f.rdFilter.set clevel (ranges.filter fun range => !overlapped range) })

theorem mem_coverage_fragments {fileBoundaries : List (K × K)} {range : K × K} {k : K} :
    k ∈ coverage (fragments fileBoundaries range) ↔
      k ∈ Set.Ico range.1 range.2 ∧ k ∈ coverage fileBoundaries := by
  constructor
  · rintro ⟨p, hp, hlo, hhi⟩
    obtain ⟨b, hb, hpiece⟩ := List.mem_filterMap.mp hp
    rw [Option.ite_none_right_eq_some] at hpiece
    obtain ⟨_, hpiece⟩ := hpiece
    obtain rfl := Option.some.inj hpiece
    exact ⟨⟨(le_max_left _ _).trans hlo, hhi.trans_le (min_le_left _ _)⟩,
      b, hb, (le_max_right _ _).trans hlo, hhi.trans_le (min_le_right _ _)⟩
  · rintro ⟨⟨hlo, hhi⟩, b, hb, hblo, hbhi⟩
    have hpiece : max range.1 b.1 < min range.2 b.2 :=
      (max_le hlo hblo).trans_lt (lt_min hhi hbhi)
    exact ⟨_, List.mem_filterMap.mpr ⟨b, hb, if_pos hpiece⟩, max_le hlo hblo, lt_min hhi hbhi⟩

def untouched (f : PLRDF K) (clevel : ℕ) (fileBoundaries : List (K × K)) : List (K × K) :=
  (f.getLevelRanges clevel).filter fun range => ∀ b ∈ fileBoundaries, ¬ Overlaps range b

def gatheredFrom (f : PLRDF K) (clevel : ℕ) (fileBoundaries : List (K × K)) : List (K × K) :=
  ((f.getLevelRanges clevel).filter fun range => ∃ b ∈ fileBoundaries, Overlaps range b).flatMap
    (fragments fileBoundaries)

theorem mem_untouched {f : PLRDF K} {clevel : ℕ} {fileBoundaries : List (K × K)}
    {range : K × K} : range ∈ f.untouched clevel fileBoundaries ↔
      range ∈ f.getLevelRanges clevel ∧ ∀ b ∈ fileBoundaries, ¬ Overlaps range b := by
  rw [untouched, List.mem_filter, decide_eq_true_eq]

theorem mem_coverage_gatheredFrom {f : PLRDF K} {clevel : ℕ} {fileBoundaries : List (K × K)}
    {k : K} : k ∈ coverage (f.gatheredFrom clevel fileBoundaries) ↔
      k ∈ coverage fileBoundaries ∧ ∃ range ∈ f.getLevelRanges clevel,
        (∃ b ∈ fileBoundaries, Overlaps range b) ∧ k ∈ Set.Ico range.1 range.2 := by
  constructor
  · rintro ⟨p, hp, hk⟩
    obtain ⟨range, hrange, hp⟩ := List.mem_flatMap.mp hp
    obtain ⟨hmem, hover⟩ := List.mem_filter.mp hrange
    obtain ⟨hin, hcov⟩ := mem_coverage_fragments.mp ⟨p, hp, hk⟩
    exact ⟨hcov, range, hmem, by simpa using hover, hin⟩
  · rintro ⟨hcov, range, hmem, hover, hin⟩
    obtain ⟨p, hp, hk⟩ := mem_coverage_fragments.mpr ⟨hin, hcov⟩
    exact ⟨p, List.mem_flatMap.mpr ⟨range, List.mem_filter.mpr ⟨hmem, by simpa using hover⟩, hp⟩,
      hk⟩

/-- A call on a level below level 0 keeps the untouched ranges and appends the gathered ones. -/
theorem gatherSortedRangeTombstonesAndRemoveRDF_spec (f : PLRDF K) {clevel : ℕ}
    (hlevel : clevel ≠ 0) (fileNumbers : List ℕ) (fileBoundaries gathered : List (K × K)) :
    (f.gatherSortedRangeTombstonesAndRemoveRDF clevel fileNumbers fileBoundaries gathered).1 =
        gathered ++ f.gatheredFrom clevel fileBoundaries ∧
      (f.gatherSortedRangeTombstonesAndRemoveRDF clevel fileNumbers fileBoundaries
        gathered).2.getLevelRanges clevel = f.untouched clevel fileBoundaries := by
  rw [gatherSortedRangeTombstonesAndRemoveRDF, if_neg hlevel]
  by_cases hlen : f.rdFilter.length ≤ clevel
  · have hnil : f.getLevelRanges clevel = [] := by
      rw [getLevelRanges, List.getD_eq_getElem?_getD, List.getElem?_eq_none hlen]
      rfl
    rw [if_pos hlen]
    simp [gatheredFrom, untouched, hnil]
  · rw [if_neg hlen]
    refine ⟨rfl, ?_⟩
    refine (f.getD_set_rdFilter clevel clevel _ (not_le.mp hlen)).trans ?_
    rw [if_pos rfl]
    refine List.filter_congr fun range _ => ?_
    rw [← decide_not, decide_eq_decide]
    push Not
    rfl

/-- What conservation asks of a call: old coverage is new coverage and the appended ranges, and no
key inside of a boundary is left on the level. -/
def Conserves (f : PLRDF K) (clevel : ℕ) (fileNumbers : List ℕ)
    (fileBoundaries gathered : List (K × K)) : Prop :=
  ∃ appended g,
    f.gatherSortedRangeTombstonesAndRemoveRDF clevel fileNumbers fileBoundaries gathered =
      (gathered ++ appended, g) ∧
    f.levelCoverage clevel = g.levelCoverage clevel ∪ coverage appended ∧
    ∀ b ∈ fileBoundaries, Disjoint (g.levelCoverage clevel) (Set.Ico b.1 b.2)

theorem conserves_iff_coverage (f : PLRDF K) {clevel : ℕ} (hlevel : clevel ≠ 0)
    (fileNumbers : List ℕ) (fileBoundaries gathered : List (K × K)) :
    Conserves f clevel fileNumbers fileBoundaries gathered ↔
      f.levelCoverage clevel = coverage (f.untouched clevel fileBoundaries) ∪
        coverage (f.gatheredFrom clevel fileBoundaries) := by
  obtain ⟨hfst, hsnd⟩ := f.gatherSortedRangeTombstonesAndRemoveRDF_spec hlevel fileNumbers
    fileBoundaries gathered
  constructor
  · rintro ⟨appended, g, hcall, hcov, _⟩
    rw [hcall] at hfst hsnd
    rw [hcov, levelCoverage, hsnd, List.append_cancel_left hfst]
  · intro hcov
    refine ⟨f.gatheredFrom clevel fileBoundaries, _, Prod.ext hfst rfl, ?_, ?_⟩
    · rw [hcov, levelCoverage, hsnd]
    · intro b hb
      rw [levelCoverage, hsnd]
      refine Set.disjoint_left.mpr ?_
      rintro k ⟨range, hrange, hlo, hhi⟩ hkb
      exact (mem_untouched.mp hrange).2 b hb ⟨hkb.1.trans_lt hhi, hlo.trans_lt hkb.2⟩

/-- Coverage is conserved exactly if every range that meets a boundary lies inside of the union
of the boundaries. -/
theorem conserves_iff {f : PLRDF K} (hf : Reachable f) {clevel : ℕ} (hlevel : 1 ≤ clevel)
    (fileNumbers : List ℕ) (fileBoundaries gathered : List (K × K)) :
    Conserves f clevel fileNumbers fileBoundaries gathered ↔
      ∀ range ∈ f.getLevelRanges clevel, (∃ b ∈ fileBoundaries, Overlaps range b) →
        Set.Ico range.1 range.2 ⊆ coverage fileBoundaries := by
  rw [conserves_iff_coverage f (Nat.one_le_iff_ne_zero.mp hlevel)]
  constructor
  · intro hcov range hrange hover k hk
    have hold : k ∈ f.levelCoverage clevel := ⟨range, hrange, hk⟩
    rw [hcov] at hold
    rcases hold with ⟨other, hother, hko⟩ | hgathered
    · -- the ranges of a level are disjoint, so `other` is the range itself
      obtain ⟨hmem, hclear⟩ := mem_untouched.mp hother
      obtain ⟨b, hb, hb'⟩ := hover
      rcases (hf.wellFormed.ordered clevel).apart hrange hmem with rfl | hle | hle
      · exact absurd hb' (hclear b hb)
      · exact absurd (hk.2.trans_le hle) (not_lt.mpr hko.1)
      · exact absurd (hko.2.trans_le hle) (not_lt.mpr hk.1)
    · exact (mem_coverage_gatheredFrom.mp hgathered).1
  · intro hinside
    ext k
    constructor
    · rintro ⟨range, hrange, hk⟩
      by_cases hover : ∃ b ∈ fileBoundaries, Overlaps range b
      · exact Or.inr (mem_coverage_gatheredFrom.mpr
          ⟨hinside range hrange hover hk, range, hrange, hover, hk⟩)
      · refine Or.inl ⟨range, mem_untouched.mpr ⟨hrange, ?_⟩, hk⟩
        exact fun b hb hb' => hover ⟨b, hb, hb'⟩
    · rintro (⟨range, hrange, hk⟩ | hgathered)
      · exact ⟨range, (mem_untouched.mp hrange).1, hk⟩
      · obtain ⟨_, range, hrange, _, hk⟩ := mem_coverage_gatheredFrom.mp hgathered
        exact ⟨range, hrange, hk⟩

theorem reachable_oneRange :
    Reachable (⟨∅, [[], [(1, 5)]], [[], []]⟩ : PLRDF ℕ) :=
  Reachable.shift Reachable.empty
    (show ∀ e ∈ [(⟨0, 1, [(1, 5)], [7]⟩ : LevelFiles ℕ)], ∀ b ∈ e.boundaries, b.1 ≤ b.2
      by decide)
    (show ∀ r ∈ [((1 : ℕ), 5)], r.1 < r.2 by decide) rfl

theorem conserves_iff_sample : ∃ f : PLRDF ℕ, Reachable f ∧ f.getLevelRanges 1 = [(1, 5)] ∧
    Conserves f 1 [8] [(0, 3), (3, 9)] [] := by
  refine ⟨_, reachable_oneRange, rfl,
    (conserves_iff reachable_oneRange le_rfl [8] [(0, 3), (3, 9)] []).mpr ?_⟩
  intro range hrange _ k hk
  obtain rfl := List.mem_singleton.mp hrange
  simp only [coverage_cons, coverage_nil, Set.union_empty, Set.mem_union, Set.mem_Ico] at hk ⊢
  omega

/-- A file that covers a part of a range: the rest of the range is on no list afterwards. -/
theorem gather_loses_coverage : ∃ f : PLRDF ℕ, Reachable f ∧
    f.gatherSortedRangeTombstonesAndRemoveRDF 1 [8] [(2, 3)] [] =
      ([(2, 3)], ⟨∅, [[], []], [[], []]⟩) ∧
    4 ∈ f.levelCoverage 1 ∧ ¬ Conserves f 1 [8] [(2, 3)] [] := by
  refine ⟨_, reachable_oneRange, rfl, by decide, ?_⟩
  rw [conserves_iff_coverage _ Nat.one_ne_zero]
  intro hcov
  have hlost : 4 ∈ (⟨∅, [[], [(1, 5)]], [[], []]⟩ : PLRDF ℕ).levelCoverage 1 := by decide
  rw [hcov] at hlost
  exact absurd hlost (by decide)

end Spry.PLRDF
