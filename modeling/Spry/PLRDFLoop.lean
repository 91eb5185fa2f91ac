import Spry.Loop
import Spry.PLRDFSplit

/-!
# The level loops as loops

In a removal two cursors walk the ranges of a level and the sorted boundaries; some steps shrink
the current range in place instead of passing it. A second loop walks the split keys along the
ranges that are left. Splitting a level walks old keys, new keys and ranges together. Every step
moves a cursor, so the loops end, and they compute `rangesOutside`, `retainKeys` and
`collectKeys`.
-/

namespace Spry.PLRDF

open HalfOpen

variable {K : Type*} [LinearOrder K]

/-- The ranges from the current one on, the boundaries from the current one on, and the list
built so far. -/
structure RangeCursor (K : Type*) where
  ranges : List (K × K)
  boundaries : List (K × K)
  out : List (K × K)

/-- With `dropEmpty` a range is appended only if it is not empty. -/
def pushRange (dropEmpty : Bool) (r : K × K) (out : List (K × K)) : List (K × K) :=
  if dropEmpty ∧ r.1 = r.2 then out else out ++ [r]

def shrinkTo (r : K × K) (rest : List (K × K)) : List (K × K) :=
  if r.2 ≤ r.1 then rest else r :: rest

def subtractStep (dropEmpty : Bool) : RangeCursor K → Loop.Step (RangeCursor K) (List (K × K))
  | ⟨[], _, out⟩ => .done out
  | ⟨val :: rest, [], out⟩ => .next ⟨rest, [], pushRange dropEmpty val out⟩
  | ⟨val :: rest, fb :: bs, out⟩ =>
    if val.2 ≤ fb.1 then .next ⟨rest, fb :: bs, pushRange dropEmpty val out⟩
    else if fb.2 ≤ val.1 then .next ⟨val :: rest, bs, out⟩
    else if val.1 < fb.1 ∧ fb.1 < val.2 ∧ val.2 ≤ fb.2 then
      .next ⟨rest, fb :: bs, pushRange dropEmpty (val.1, fb.1) out⟩
    else if fb.1 ≤ val.1 ∧ val.2 ≤ fb.2 then .next ⟨rest, fb :: bs, out⟩
    else if fb.1 ≤ val.1 ∧ val.1 < fb.2 ∧ fb.2 < val.2 then
      .next ⟨shrinkTo (fb.2, val.2) rest, bs, out⟩
    else if val.1 < fb.1 ∧ fb.2 < val.2 then
      .next ⟨shrinkTo (fb.2, val.2) rest, bs, pushRange dropEmpty (val.1, fb.1) out⟩
    else .exit

theorem pushRange_eq (dropEmpty : Bool) (r : K × K) (out : List (K × K)) :
    pushRange dropEmpty r out = out ++ if dropEmpty ∧ r.1 = r.2 then [] else [r] := by
  unfold pushRange
  split_ifs
  · rw [List.append_nil]
  · rfl

theorem pushRange_of_lt (dropEmpty : Bool) {r : K × K} (hr : r.1 < r.2) (out : List (K × K)) :
    pushRange dropEmpty r out = out ++ [r] := by
  rw [pushRange, if_neg]
  exact fun h => hr.ne h.2

theorem shrinkTo_of_lt {r : K × K} (hr : r.1 < r.2) (rest : List (K × K)) :
    shrinkTo r rest = r :: rest := by
  rw [shrinkTo, if_neg (not_le.mpr hr)]

def RangeCursor.value (dropEmpty : Bool) (s : RangeCursor K) : Option (List (K × K)) :=
  (rangesOutside dropEmpty s.ranges s.boundaries).map (s.out ++ ·)

theorem rangesOutside_cons (dropEmpty : Bool) (val : K × K) (rest bs : List (K × K)) :
    rangesOutside dropEmpty (val :: rest) bs = (cutAtBoundaries dropEmpty val bs).bind
      fun p => (rangesOutside dropEmpty rest p.2).map (p.1 ++ ·) := by
  rw [rangesOutside]
  cases cutAtBoundaries dropEmpty val bs with
  | none => rfl
  | some p => exact Option.map_eq_bind.symm

theorem computes_subtractStep (dropEmpty : Bool) (s : RangeCursor K) :
    Loop.Computes (RangeCursor.value dropEmpty)
      (fun s => s.ranges.length + s.boundaries.length) s (subtractStep dropEmpty s) := by
  obtain ⟨ranges, boundaries, out⟩ := s
  cases ranges with
  | nil => simp [subtractStep, Loop.Computes, RangeCursor.value, rangesOutside]
  | cons val rest =>
    cases boundaries with
    | nil =>
      simp only [subtractStep, Loop.Computes, RangeCursor.value, rangesOutside_cons,
        cutAtBoundaries, pushRange_eq]
      exact ⟨by simp [Function.comp_def], by simp⟩
    | cons fb bs =>
      by_cases h₁ : val.2 ≤ fb.1
      · simp only [subtractStep, if_pos h₁, Loop.Computes, RangeCursor.value,
          pushRange_eq]
        rw [rangesOutside_cons, cutAtBoundaries, if_pos h₁]
        exact ⟨by simp [Function.comp_def], by simp⟩
      by_cases h₂ : fb.2 ≤ val.1
      · simp only [subtractStep, if_neg h₁, if_pos h₂, Loop.Computes, RangeCursor.value]
        rw [rangesOutside_cons _ _ _ (fb :: bs), cutAtBoundaries, if_neg h₁, if_pos h₂,
          rangesOutside_cons]
        exact ⟨rfl, by simp⟩
      by_cases h₃ : val.1 < fb.1 ∧ fb.1 < val.2 ∧ val.2 ≤ fb.2
      · simp only [subtractStep, if_neg h₁, if_neg h₂, if_pos h₃, Loop.Computes,
          RangeCursor.value, pushRange_of_lt dropEmpty (r := (val.1, fb.1)) h₃.1]
        rw [rangesOutside_cons, cutAtBoundaries, if_neg h₁, if_neg h₂, if_pos h₃]
        exact ⟨by simp [Function.comp_def], by simp⟩
      by_cases h₄ : fb.1 ≤ val.1 ∧ val.2 ≤ fb.2
      · simp only [subtractStep, if_neg h₁, if_neg h₂, if_neg h₃, if_pos h₄, Loop.Computes,
          RangeCursor.value]
        rw [rangesOutside_cons, cutAtBoundaries, if_neg h₁, if_neg h₂, if_neg h₃, if_pos h₄]
        exact ⟨by simp, by simp⟩
      by_cases h₅ : fb.1 ≤ val.1 ∧ val.1 < fb.2 ∧ fb.2 < val.2
      · simp only [subtractStep, if_neg h₁, if_neg h₂, if_neg h₃, if_neg h₄, if_pos h₅,
          Loop.Computes, RangeCursor.value, shrinkTo_of_lt (r := (fb.2, val.2)) h₅.2.2]
        rw [rangesOutside_cons _ _ _ (fb :: bs), cutAtBoundaries, if_neg h₁, if_neg h₂,
          if_neg h₃, if_neg h₄, if_pos h₅, rangesOutside_cons]
        exact ⟨rfl, by simp⟩
      by_cases h₆ : val.1 < fb.1 ∧ fb.2 < val.2
      · simp only [subtractStep, if_neg h₁, if_neg h₂, if_neg h₃, if_neg h₄, if_neg h₅,
          if_pos h₆, Loop.Computes, RangeCursor.value,
          shrinkTo_of_lt (r := (fb.2, val.2)) h₆.2,
          pushRange_of_lt dropEmpty (r := (val.1, fb.1)) h₆.1]
        rw [rangesOutside_cons _ _ _ (fb :: bs), cutAtBoundaries, if_neg h₁, if_neg h₂,
          if_neg h₃, if_neg h₄, if_neg h₅, if_pos h₆, rangesOutside_cons]
        refine ⟨?_, by simp⟩
        cases cutAtBoundaries dropEmpty (fb.2, val.2) bs with
        | none => rfl
        | some p => simp [Function.comp_def]
      · simp only [subtractStep, if_neg h₁, if_neg h₂, if_neg h₃, if_neg h₄, if_neg h₅,
          if_neg h₆, Loop.Computes, RangeCursor.value]
        rw [rangesOutside_cons, cutAtBoundaries, if_neg h₁, if_neg h₂, if_neg h₃, if_neg h₄,
          if_neg h₅, if_neg h₆]
        rfl

theorem length_cutAtBoundaries {dropEmpty : Bool} {val : K × K} {bs : List (K × K)}
    {p : List (K × K) × List (K × K)} (h : cutAtBoundaries dropEmpty val bs = some p) :
    p.1.length + p.2.length ≤ bs.length + 1 := by
  induction bs generalizing val p with
  | nil =>
    obtain rfl := Option.some.inj h
    split_ifs
    · simp
    · simp
  | cons fb bs ih =>
    simp only [cutAtBoundaries] at h
    split_ifs at h with h₁ h₁' h₂ h₃ h₄ h₅ h₆
    · obtain rfl := Option.some.inj h
      simp
    · obtain rfl := Option.some.inj h
      simp [Nat.add_comm]
    · exact (ih h).trans (by simp)
    · obtain rfl := Option.some.inj h
      simp [Nat.add_comm]
    · obtain rfl := Option.some.inj h
      simp
    · exact (ih h).trans (by simp)
    · obtain ⟨q, hq, rfl⟩ := Option.map_eq_some_iff.mp h
      have hle := ih hq
      simp only [List.length_cons]
      omega

theorem length_rangesOutside {dropEmpty : Bool} {rs bs l : List (K × K)}
    (h : rangesOutside dropEmpty rs bs = some l) : l.length ≤ rs.length + bs.length := by
  induction rs generalizing bs l with
  | nil =>
    obtain rfl := Option.some.inj h
    simp
  | cons r rs ih =>
    rw [rangesOutside_cons] at h
    obtain ⟨p, hp, hrest⟩ := Option.bind_eq_some_iff.mp h
    obtain ⟨l', hl', rfl⟩ := Option.map_eq_some_iff.mp hrest
    have hcut := length_cutAtBoundaries hp
    have htail := ih hl'
    simp only [List.length_append, List.length_cons]
    omega

/-- The split keys from the current one on, the ranges from the current one on, and the keys kept
so far. -/
structure KeyCursor (K : Type*) where
  keys : List K
  ranges : List (K × K)
  out : List K

def retainStep : KeyCursor K → Loop.Step (KeyCursor K) (List K)
  | ⟨[], _, out⟩ => .done out
  | ⟨_ :: _, [], out⟩ => .done out
  | ⟨k :: ks, r :: rs, out⟩ =>
    if k < r.1 then .next ⟨ks, r :: rs, out⟩
    else if r.2 ≤ k then .next ⟨k :: ks, rs, out⟩
    else .next ⟨ks, r :: rs, out ++ [k]⟩

theorem computes_retainStep (s : KeyCursor K) :
    Loop.Computes (fun s => some (s.out ++ retainKeys s.keys s.ranges))
      (fun s => s.keys.length + s.ranges.length) s (retainStep s) := by
  obtain ⟨keys, ranges, out⟩ := s
  cases keys with
  | nil => simp [retainStep, Loop.Computes, retainKeys]
  | cons k ks =>
    cases ranges with
    | nil => simp [retainStep, Loop.Computes, retainKeys]
    | cons r rs =>
      by_cases hgap : k < r.1
      · simp [retainStep, Loop.Computes, retainKeys, hgap, not_le.mpr hgap]
      by_cases hpast : r.2 ≤ k
      · simp [retainStep, Loop.Computes, retainKeys, hgap, hpast, not_lt.mp hgap]
      · simp [retainStep, Loop.Computes, retainKeys, hgap, hpast]

def restrictLoop (dropEmpty : Bool) (fuel : ℕ) (f : PLRDF K) (level : ℕ)
    (boundaries : List (K × K)) : Loop.Outcome (PLRDF K) :=
  (Loop.run (subtractStep dropEmpty) fuel ⟨f.getLevelRanges level, boundaries, []⟩).bind
    fun newRanges =>
      (Loop.run retainStep fuel ⟨f.getSplitKeys level, newRanges, []⟩).bind fun newKeys =>
        .returned
          { f with
            rdFilter := f.rdFilter.set level newRanges
            splitKeys := f.splitKeys.set level newKeys }

theorem restrictLoop_eq (dropEmpty : Bool) {fuel : ℕ} (f : PLRDF K) (level : ℕ)
    (boundaries : List (K × K))
    (hfuel : (f.getLevelRanges level).length + boundaries.length +
      (f.getSplitKeys level).length < fuel) :
    restrictLoop dropEmpty fuel f level boundaries =
      .ofOption ((rangesOutside dropEmpty (f.getLevelRanges level) boundaries).map
        (f.restrictLevel level)) := by
  have hrun : Loop.run (subtractStep dropEmpty) fuel ⟨f.getLevelRanges level, boundaries, []⟩ =
      .ofOption (rangesOutside dropEmpty (f.getLevelRanges level) boundaries) := by
    rw [Loop.run_eq (computes_subtractStep dropEmpty) (by simp only; omega)]
    simp [RangeCursor.value]
  rw [restrictLoop, hrun]
  cases hout : rangesOutside dropEmpty (f.getLevelRanges level) boundaries with
  | none => rfl
  | some newRanges =>
    have hlength := length_rangesOutside hout
    rw [Loop.Outcome.ofOption_some, Loop.Outcome.returned_bind,
      Loop.run_eq computes_retainStep (by simp only; omega)]
    rfl

/-- `RemoveRangeDeletesAndSplitKeyFromLevel` with its loops. -/
def removeLoop (fuel : ℕ) (f : PLRDF K) (clevel : ℕ) (boundaries : List (K × K)) :
    Loop.Outcome (PLRDF K) :=
  if f.rdFilter.length ≤ clevel then .returned f
  else if boundaries = [] then .returned f
  else restrictLoop true fuel f clevel boundaries

/-- `deleteRDFAssociatedWithFilesAtCurrentLevel` with its loops; on level 0 it only erases files
from the map. -/
def deleteLoop (fuel : ℕ) (f : PLRDF K) (e : LevelFiles K) : Loop.Outcome (PLRDF K) :=
  if e.clevel = 0 then .ofOption (f.deleteRDFAssociatedWithFilesAtCurrentLevel e)
  else if f.rdFilter.length ≤ e.clevel then .returned f
  else restrictLoop false fuel f e.clevel (sortAndMerge e.boundaries)

theorem removeLoop_eq {fuel : ℕ} (f : PLRDF K) (clevel : ℕ) (boundaries : List (K × K))
    (hfuel : (f.getLevelRanges clevel).length + boundaries.length +
      (f.getSplitKeys clevel).length < fuel) :
    removeLoop fuel f clevel boundaries =
      .ofOption (f.removeRangeDeletesAndSplitKeyFromLevel clevel boundaries) := by
  unfold removeLoop removeRangeDeletesAndSplitKeyFromLevel
  by_cases hlen : f.rdFilter.length ≤ clevel
  · simp [hlen]
  by_cases hempty : boundaries = []
  · simp [hempty]
  · simp only [hlen, hempty, or_self, if_false]
    exact restrictLoop_eq true f clevel boundaries hfuel

theorem deleteLoop_eq {fuel : ℕ} (f : PLRDF K) (e : LevelFiles K)
    (hfuel : (f.getLevelRanges e.clevel).length + (sortAndMerge e.boundaries).length +
      (f.getSplitKeys e.clevel).length < fuel) :
    deleteLoop fuel f e = .ofOption (f.deleteRDFAssociatedWithFilesAtCurrentLevel e) := by
  unfold deleteLoop deleteRDFAssociatedWithFilesAtCurrentLevel
  by_cases hzero : e.clevel = 0
  · rw [if_pos hzero]
  by_cases hlen : f.rdFilter.length ≤ e.clevel
  · simp [hzero, hlen]
  · simp only [hzero, hlen, if_false]
    exact restrictLoop_eq false f e.clevel (sortAndMerge e.boundaries) hfuel

theorem sortAndMerge_eq_nil_iff {rs : List (K × K)} : sortAndMerge rs = [] ↔ rs = [] := by
  constructor
  · intro h
    unfold sortAndMerge at h
    cases hsort : sortByStart rs with
    | nil => exact List.Perm.eq_nil (hsort ▸ sortByStart_perm rs).symm
    | cons r rest =>
      rw [hsort] at h
      exact absurd h (coalesceBy_ne_nil r (r :: rest))
  · rintro rfl
    rfl

/-- On ordered ranges with ascending split keys the removal ends, does not exit, takes exactly the
boundaries off the level and keeps exactly the split keys that are still covered. -/
theorem removeLoop_returns (f : PLRDF K) {clevel : ℕ} {boundaries : List (K × K)}
    (hlevel : clevel < f.rdFilter.length) (hsplit : clevel < f.splitKeys.length)
    (hord : Ordered (f.getLevelRanges clevel)) (hwf : ∀ b ∈ boundaries, b.1 ≤ b.2)
    (hkeys : (f.getSplitKeys clevel).Pairwise (· ≤ ·))
    (hinside : boundaries = [] → ∀ k ∈ f.getSplitKeys clevel, k ∈ f.levelCoverage clevel) :
    ∃ g : PLRDF K,
      (∀ fuel, (f.getLevelRanges clevel).length + (sortAndMerge boundaries).length +
          (f.getSplitKeys clevel).length < fuel →
        removeLoop fuel f clevel (sortAndMerge boundaries) = .returned g) ∧
      g.levelCoverage clevel = f.levelCoverage clevel \ coverage boundaries ∧
      g.getSplitKeys clevel =
        (f.getSplitKeys clevel).filter (fun k => k ∈ g.levelCoverage clevel) := by
  by_cases hempty : boundaries = []
  · refine ⟨f, ?_, ?_, ?_⟩
    · intro fuel hfuel
      rw [removeLoop_eq f clevel _ hfuel, removeRangeDeletesAndSplitKeyFromLevel,
        if_pos (Or.inr (sortAndMerge_eq_nil_iff.mpr hempty)), Loop.Outcome.ofOption_some]
    · rw [hempty, coverage_nil, Set.sdiff_empty]
    · refine (List.filter_eq_self.mpr fun k hk => ?_).symm
      exact decide_eq_true (hinside hempty k hk)
  · obtain ⟨hsorted, hle⟩ := startSorted_sortAndMerge hwf
    have hsub := (ordered_subtract hord hsorted hle).1
    have hcov : (f.restrictLevel clevel (subtract (f.getLevelRanges clevel)
        (sortAndMerge boundaries))).levelCoverage clevel =
          coverage (subtract (f.getLevelRanges clevel) (sortAndMerge boundaries)) := by
      rw [levelCoverage, f.getLevelRanges_restrictLevel clevel clevel _ hlevel, if_pos rfl]
    refine ⟨f.restrictLevel clevel (subtract (f.getLevelRanges clevel)
      (sortAndMerge boundaries)), ?_, ?_, ?_⟩
    · intro fuel hfuel
      have hgo : ¬ (f.rdFilter.length ≤ clevel ∨ sortAndMerge boundaries = []) := by
        rintro (hle | hnil)
        · exact absurd hlevel (not_lt.mpr hle)
        · exact hempty (sortAndMerge_eq_nil_iff.mp hnil)
      rw [removeLoop_eq f clevel _ hfuel, removeRangeDeletesAndSplitKeyFromLevel, if_neg hgo,
        rangesOutside_eq true _ hord, Option.map_some, Loop.Outcome.ofOption_some]
    · rw [hcov, coverage_subtract hord hsorted, coverage_sortAndMerge]
      rfl
    · rw [getSplitKeys_restrictLevel hsplit hkeys hsub clevel, if_pos rfl]
      simp only [hcov]

/-- Boundaries that split, clip and miss, on two ranges that touch. -/
theorem removeLoop_returns_sample : ∃ f g : PLRDF ℕ,
    f = ⟨∅, [[], [(1, 5), (5, 9)]], [[], [2, 3, 6, 8]]⟩ ∧
      (∀ fuel, (f.getLevelRanges 1).length + (sortAndMerge [(7, 12), (3, 3), (4, 6)]).length +
          (f.getSplitKeys 1).length < fuel →
        removeLoop fuel f 1 (sortAndMerge [(7, 12), (3, 3), (4, 6)]) = .returned g) ∧
      g.levelCoverage 1 = f.levelCoverage 1 \ coverage [(7, 12), (3, 3), (4, 6)] ∧
      g.getSplitKeys 1 = (f.getSplitKeys 1).filter (fun k => k ∈ g.levelCoverage 1) := by
  obtain ⟨g, hg⟩ := removeLoop_returns
    (⟨∅, [[], [(1, 5), (5, 9)]], [[], [2, 3, 6, 8]]⟩ : PLRDF ℕ)
    (show 1 < 2 by decide) (show 1 < 2 by decide) (by decide)
    (show ∀ b ∈ [(7, 12), (3, 3), (4, 6)], b.1 ≤ b.2 by decide) (by decide)
    (fun h => by cases h)
  exact ⟨_, g, rfl, hg⟩

/-- Old split keys, new keys and ranges from the current ones on, and the keys kept so far. -/
structure SplitCursor (K : Type*) where
  old : List K
  new : List K
  ranges : List (K × K)
  out : List K

def nextCandidate : List K → List K → Option (K × List K × List K)
  | [], [] => none
  | [], k :: ks => some (k, [], ks)
  | s :: ss, [] => some (s, ss, [])
  | s :: ss, k :: ks =>
    if s < k then some (s, ss, k :: ks)
    else if k < s then some (k, s :: ss, ks)
    else some (s, ss, ks)

def splitStep (c : SplitCursor K) : Loop.Step (SplitCursor K) (List K) :=
  match nextCandidate c.old c.new with
  | none => .done c.out
  | some (candidate, old, new) =>
    match c.ranges.dropWhile (fun r => r.2 ≤ candidate) with
    | [] => .done c.out
    | r :: rs =>
      if candidate < r.1 then .next ⟨old, new, r :: rs, c.out⟩
      else if c.out = [] ∨ c.out.getLast? ≠ some candidate then
        .next ⟨old, new, r :: rs, c.out ++ [candidate]⟩
      else .next ⟨old, new, r :: rs, c.out⟩

theorem unionKeys_eq_nextCandidate (old new : List K) :
    unionKeys old new = match nextCandidate old new with
      | none => []
      | some (candidate, old', new') => candidate :: unionKeys old' new' := by
  cases old with
  | nil =>
    cases new with
    | nil => rfl
    | cons k ks => rfl
  | cons s ss =>
    cases new with
    | nil => simp [nextCandidate, unionKeys]
    | cons k ks =>
      by_cases hlt : s < k
      · simp [nextCandidate, unionKeys, hlt, not_lt.mpr hlt.le, hlt.ne']
      by_cases hgt : k < s
      · simp [nextCandidate, unionKeys, hlt, hgt]
      · obtain rfl : s = k := le_antisymm (not_lt.mp hgt) (not_lt.mp hlt)
        simp [nextCandidate, unionKeys]

theorem length_nextCandidate {old new old' new' : List K} {candidate : K}
    (h : nextCandidate old new = some (candidate, old', new')) :
    old'.length + new'.length < old.length + new.length := by
  cases old with
  | nil =>
    cases new with
    | nil => cases h
    | cons k ks =>
      cases h
      simp
  | cons s ss =>
    cases new with
    | nil =>
      cases h
      simp
    | cons k ks =>
      simp only [nextCandidate] at h
      split_ifs at h
      · cases h
        simp
      · cases h
        simp
      · cases h
        simp only [List.length_cons]
        omega

theorem computes_splitStep (c : SplitCursor K) :
    Loop.Computes
      (fun c => some (c.out ++ collectKeys (unionKeys c.old c.new) c.ranges c.out.getLast?))
      (fun c => c.old.length + c.new.length) c (splitStep c) := by
  obtain ⟨old, new, ranges, out⟩ := c
  have hunion := unionKeys_eq_nextCandidate old new
  simp only [splitStep]
  cases hnext : nextCandidate old new with
  | none =>
    rw [hnext] at hunion
    simp [Loop.Computes, hunion, collectKeys]
  | some next =>
    obtain ⟨candidate, old', new'⟩ := next
    have hbound := length_nextCandidate hnext
    rw [hnext] at hunion
    simp only
    cases hdrop : ranges.dropWhile (fun r => r.2 ≤ candidate) with
    | nil => simp [Loop.Computes, hunion, collectKeys, hdrop]
    | cons r rs =>
      -- a candidate kept before cannot be kept again, since it is the last one
      by_cases hgap : candidate < r.1
      · simp [Loop.Computes, hunion, collectKeys, hdrop, hgap, hbound]
      by_cases hlast : out.getLast? = some candidate
      · have hne : out ≠ [] := by
          rintro rfl
          cases hlast
        simp [Loop.Computes, hunion, collectKeys, hdrop, hgap, hlast, hne, hbound]
      · simp [Loop.Computes, hunion, collectKeys, hdrop, hgap, hlast, hbound]

def splitLoop (fuel : ℕ) (f : PLRDF K) (level : ℕ) (keys : List K) : Loop.Outcome (PLRDF K) :=
  if f.rdFilter.length ≤ level then .returned f
  else
    (Loop.run splitStep fuel ⟨f.getSplitKeys level, keys, f.getLevelRanges level, []⟩).bind
      fun newKeys => .returned { f with splitKeys := f.splitKeys.set level newKeys }

theorem splitLoop_eq {fuel : ℕ} (f : PLRDF K) (level : ℕ) (keys : List K)
    (hfuel : (f.getSplitKeys level).length + keys.length < fuel) :
    splitLoop fuel f level keys = .returned (f.splitRangesOnLevel level keys) := by
  unfold splitLoop splitRangesOnLevel
  by_cases hlen : f.rdFilter.length ≤ level
  · rw [if_pos hlen, if_pos hlen]
  · rw [if_neg hlen, if_neg hlen, Loop.run_eq computes_splitStep hfuel]
    rfl

/-- Splitting a level leaves every range as it is, and the split keys of that level become the
ascending list of the old and new keys that its ranges cover. -/
theorem splitLoop_returns (f : PLRDF K) {level : ℕ} {keys : List K}
    (hlevel : level < f.rdFilter.length) (hsplit : level < f.splitKeys.length)
    (hord : WeaklyOrdered (f.getLevelRanges level))
    (hold : (f.getSplitKeys level).Pairwise (· < ·))
    (hkeys : keys.Pairwise (· ≤ ·)) :
    ∃ g : PLRDF K,
      (∀ fuel, (f.getSplitKeys level).length + keys.length < fuel →
        splitLoop fuel f level keys = .returned g) ∧
      g.rdFilter = f.rdFilter ∧ g.rdFilterLevel0 = f.rdFilterLevel0 ∧
      (g.getSplitKeys level).Pairwise (· < ·) ∧
      (∀ k, k ∈ g.getSplitKeys level ↔
        (k ∈ f.getSplitKeys level ∨ k ∈ keys) ∧ ∃ r ∈ f.getLevelRanges level, r.1 ≤ k ∧ k < r.2) ∧
      ∀ other ≠ level, g.getSplitKeys other = f.getSplitKeys other := by
  have hsorted := sorted_unionKeys (hold.imp le_of_lt) hkeys
  obtain ⟨hlt, hmem⟩ := collects_collectKeys hsorted hord (fun l (hl : l ∈ none) => by cases hl)
  have hget := getSplitKeys_splitRangesOnLevel hlevel hsplit keys level
  rw [if_pos rfl] at hget
  refine ⟨f.splitRangesOnLevel level keys, ?_, ?_, ?_, ?_, ?_, ?_⟩
  · intro fuel hfuel
    exact splitLoop_eq f level keys hfuel
  · exact f.rdFilter_splitRangesOnLevel level keys
  · exact f.rdFilterLevel0_splitRangesOnLevel level keys
  · rw [hget]
    exact hlt
  · intro k
    rw [hget, hmem k, mem_unionKeys, mem_coverage]
    simp
  · intro other hne
    exact getSplitKeys_splitRangesOnLevel_of_ne hne keys

theorem splitLoop_returns_sample : ∃ f g : PLRDF ℕ,
    f = ⟨∅, [[], [(1, 5), (7, 9)]], [[], [2, 8]]⟩ ∧
      (∀ fuel, (f.getSplitKeys 1).length + [2, 2, 5, 7, 9].length < fuel →
        splitLoop fuel f 1 [2, 2, 5, 7, 9] = .returned g) ∧
      (g.getSplitKeys 1).Pairwise (· < ·) ∧
      ∀ k, k ∈ g.getSplitKeys 1 ↔ (k ∈ [2, 8] ∨ k ∈ [2, 2, 5, 7, 9]) ∧
        ∃ r ∈ f.getLevelRanges 1, r.1 ≤ k ∧ k < r.2 := by
  obtain ⟨g, hloop, _, _, hsorted, hmem, _⟩ := splitLoop_returns
    (⟨∅, [[], [(1, 5), (7, 9)]], [[], [2, 8]]⟩ : PLRDF ℕ) (show 1 < 2 by decide)
    (show 1 < 2 by decide) ⟨by decide, by decide⟩ (by decide)
    (show [2, 2, 5, 7, 9].Pairwise (· ≤ ·) by decide)
  exact ⟨_, g, rfl, hloop, hsorted, hmem⟩

end Spry.PLRDF
