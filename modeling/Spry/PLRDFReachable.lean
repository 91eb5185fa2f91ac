import Spry.PLRDFLoop

/-!
# Reachable filters

The states a filter of the bundle goes through: it starts empty, flushes insert files, compactions
shift levels, trivial deletions remove files, split keys are collected, and the last level may be
cleared. They are all well formed. On such states the two removals agree.
-/

namespace Spry.PLRDF

open HalfOpen

variable {K : Type*} [LinearOrder K]

inductive Reachable : PLRDF K → Prop
  | empty : Reachable PLRDF.empty
  | insert {f g : PLRDF K} {fileNum : ℕ} {ranges : List (K × K)} {exist : List ℕ}
      (hf : Reachable f) (h : f.insertRangeDeleteToLevel0 fileNum ranges exist = some g) :
      Reachable g
  | shift {f g : PLRDF K} {entries : List (LevelFiles K)} {out : List (K × K)}
      (hf : Reachable f) (hwf : ∀ e ∈ entries, ∀ b ∈ e.boundaries, b.1 ≤ b.2)
      (hout : ∀ r ∈ out, r.1 < r.2) (h : f.shiftRDFToOutputLevel entries out = some g) :
      Reachable g
  | delete {f g : PLRDF K} {e : LevelFiles K} (hf : Reachable f)
      (hwf : ∀ b ∈ e.boundaries, b.1 ≤ b.2)
      (h : f.deleteRDFAssociatedWithFilesAtCurrentLevel e = some g) : Reachable g
  | split {f : PLRDF K} (level : ℕ) {keys : List K} (hf : Reachable f)
      (hkeys : keys.Pairwise (· ≤ ·)) : Reachable (f.splitRangesOnLevel level keys)
  | deleteLast {f : PLRDF K} (bottomLevel : ℕ) (hf : Reachable f) :
      Reachable (f.deleteLastLevelIfEqualsBottomLevel bottomLevel)

variable {f : PLRDF K}

theorem WellFormed.deleteLastLevelIfEqualsBottomLevel (hf : f.WellFormed) (bottomLevel : ℕ) :
    (f.deleteLastLevelIfEqualsBottomLevel bottomLevel).WellFormed := by
  unfold PLRDF.deleteLastLevelIfEqualsBottomLevel
  by_cases hlast : f.rdFilter.length = bottomLevel + 1
  · rw [if_pos hlast]
    -- clearing a level is restricting it to no ranges
    have hcleared : retainKeys (f.getSplitKeys bottomLevel) [] = [] := by
      rw [retainKeys_eq_filter (hf.sorted_le bottomLevel) Ordered.nil]
      simp
    have hrestrict := (hf.restrictLevel (n := bottomLevel) (by omega) Ordered.nil).1
    rw [PLRDF.restrictLevel, hcleared] at hrestrict
    exact hrestrict
  · rw [if_neg hlast]
    exact hf

theorem Reachable.wellFormed (hf : Reachable f) : f.WellFormed := by
  induction hf with
  | empty => exact wellFormed_empty
  | insert _ h ih => exact ih.insertRangeDeleteToLevel0 h
  | @shift _ _ entries _ _ hwf hout h ih =>
    cases entries with
    | nil =>
      obtain rfl := Option.some.inj h
      exact ih
    | cons e es => exact (ih.levelCoverage_shiftRDF hout hwf h).1
  | delete _ hwf h ih => exact (ih.deleteRDFAssociatedWithFilesAtCurrentLevel hwf h).1
  | split level _ hkeys ih => exact (ih.splitRangesOnLevel level hkeys).1
  | deleteLast bottomLevel _ ih => exact ih.deleteLastLevelIfEqualsBottomLevel bottomLevel

theorem subtract_nil_right (rs : List (K × K)) : subtract rs [] = rs := by
  induction rs with
  | nil => rfl
  | cons r rs ih => simp [subtract, cut, ih]

theorem WellFormed.restrictLevel_self (hf : f.WellFormed) (level : ℕ) :
    f.restrictLevel level (f.getLevelRanges level) = f := by
  have hkeys : retainKeys (f.getSplitKeys level) (f.getLevelRanges level) =
      f.getSplitKeys level := by
    rw [retainKeys_eq_filter (hf.sorted_le level) (hf.ordered level)]
    exact List.filter_eq_self.mpr fun k hk => decide_eq_true (hf.inside level k hk)
  rw [PLRDF.restrictLevel, hkeys]
  simp only [getLevelRanges, getSplitKeys, LevelMap.set_getD_self]

/-- Without boundaries one removal returns at once and the other restricts the level to its own
ranges; otherwise both restrict it to what the boundaries leave. -/
theorem WellFormed.removals_eq (hf : f.WellFormed) {e : LevelFiles K} (hlevel : e.clevel ≠ 0)
    (hlen : e.clevel < f.rdFilter.length) :
    f.deleteRDFAssociatedWithFilesAtCurrentLevel e =
        some (f.restrictLevel e.clevel
          (subtract (f.getLevelRanges e.clevel) (sortAndMerge e.boundaries))) ∧
      f.removeRangeDeletesAndSplitKeyFromLevel e.clevel (sortAndMerge e.boundaries) =
        some (f.restrictLevel e.clevel
          (subtract (f.getLevelRanges e.clevel) (sortAndMerge e.boundaries))) := by
  have hord := hf.ordered e.clevel
  constructor
  · rw [PLRDF.deleteRDFAssociatedWithFilesAtCurrentLevel, if_neg hlevel,
      if_neg (not_le.mpr hlen), rangesOutside_eq false _ hord, Option.map_some]
  · rw [PLRDF.removeRangeDeletesAndSplitKeyFromLevel]
    by_cases hempty : sortAndMerge e.boundaries = []
    · rw [if_pos (Or.inr hempty), hempty, subtract_nil_right, hf.restrictLevel_self]
    · rw [if_neg (not_or.mpr ⟨not_le.mpr hlen, hempty⟩), rangesOutside_eq true _ hord,
        Option.map_some]

/-- Both removals end in the same filter, which differs from the old one on that level only. -/
theorem removals_agree (hf : Reachable f) {e : LevelFiles K} (hlevel : 1 ≤ e.clevel)
    (hwf : ∀ b ∈ e.boundaries, b.1 ≤ b.2) :
    ∃ g h : PLRDF K,
      (∀ fuel, (f.getLevelRanges e.clevel).length + (sortAndMerge e.boundaries).length +
          (f.getSplitKeys e.clevel).length < fuel →
        deleteLoop fuel f e = .returned g ∧
        removeLoop fuel f e.clevel (sortAndMerge e.boundaries) = .returned h) ∧
      g.levelCoverage e.clevel = h.levelCoverage e.clevel ∧
      g.getSplitKeys e.clevel = h.getSplitKeys e.clevel ∧
      (∀ level ≠ e.clevel,
        (g.getLevelRanges level = f.getLevelRanges level ∧
          g.getSplitKeys level = f.getSplitKeys level) ∧
        h.getLevelRanges level = f.getLevelRanges level ∧
          h.getSplitKeys level = f.getSplitKeys level) ∧
      g.rdFilterLevel0 = f.rdFilterLevel0 ∧ h.rdFilterLevel0 = f.rdFilterLevel0 := by
  have hwell := hf.wellFormed
  have hzero : e.clevel ≠ 0 := Nat.one_le_iff_ne_zero.mp hlevel
  by_cases hlen : e.clevel < f.rdFilter.length
  · obtain ⟨hdelete, hremove⟩ := hwell.removals_eq hzero hlen
    obtain ⟨hsorted, hle⟩ := startSorted_sortAndMerge hwf
    have hsub := (ordered_subtract (hwell.ordered e.clevel) hsorted hle).1
    have hframe : ∀ level ≠ e.clevel,
        (f.restrictLevel e.clevel (subtract (f.getLevelRanges e.clevel)
          (sortAndMerge e.boundaries))).getLevelRanges level = f.getLevelRanges level ∧
        (f.restrictLevel e.clevel (subtract (f.getLevelRanges e.clevel)
          (sortAndMerge e.boundaries))).getSplitKeys level = f.getSplitKeys level := by
      intro level hne
      rw [f.getLevelRanges_restrictLevel e.clevel level _ hlen, if_neg hne,
        getSplitKeys_restrictLevel (hwell.length_eq ▸ hlen) (hwell.sorted_le _) hsub level,
        if_neg hne]
      exact ⟨rfl, rfl⟩
    refine ⟨_, _, ?_, rfl, rfl, fun level hne => ⟨hframe level hne, hframe level hne⟩, rfl, rfl⟩
    intro fuel hfuel
    rw [deleteLoop_eq f e hfuel, removeLoop_eq f e.clevel _ hfuel, hdelete, hremove]
    exact ⟨rfl, rfl⟩
  · refine ⟨f, f, ?_, rfl, rfl, fun level _ => ⟨⟨rfl, rfl⟩, rfl, rfl⟩, rfl, rfl⟩
    intro fuel _
    rw [deleteLoop, if_neg hzero, if_pos (not_lt.mp hlen), removeLoop, if_pos (not_lt.mp hlen)]
    exact ⟨rfl, rfl⟩

/-- A level filled by one compaction, then two files of it removed, one with a single key. -/
theorem removals_agree_sample : ∃ f g h : PLRDF ℕ, Reachable f ∧ f.getLevelRanges 1 = [(1, 9)] ∧
    (∀ fuel, (f.getLevelRanges 1).length + (sortAndMerge [(6, 9), (3, 3)]).length +
        (f.getSplitKeys 1).length < fuel →
      deleteLoop fuel f ⟨1, 1, [(6, 9), (3, 3)], [4, 5]⟩ = .returned g ∧
      removeLoop fuel f 1 (sortAndMerge [(6, 9), (3, 3)]) = .returned h) ∧
    g.levelCoverage 1 = h.levelCoverage 1 := by
  have hreach : Reachable (⟨∅, [[], [(1, 9)]], [[], []]⟩ : PLRDF ℕ) :=
    Reachable.shift Reachable.empty
      (show ∀ e ∈ [(⟨0, 1, [(1, 9)], [7]⟩ : LevelFiles ℕ)], ∀ b ∈ e.boundaries, b.1 ≤ b.2
        by decide)
      (show ∀ r ∈ [((1 : ℕ), 9)], r.1 < r.2 by decide) rfl
  obtain ⟨g, h, hloops, hcov, _⟩ := removals_agree hreach
    (show 1 ≤ (⟨1, 1, [(6, 9), (3, 3)], [4, 5]⟩ : LevelFiles ℕ).clevel by decide) (by decide)
  exact ⟨_, g, h, hreach, rfl, hloops, hcov⟩

end Spry.PLRDF
