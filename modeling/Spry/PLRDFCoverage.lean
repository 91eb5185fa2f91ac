import Spry.LevelMap
import Spry.PLRDF

/-!
# What the filter operations do to the covered keys

The coverage of a level is the set its range list covers. Each operation gets one lemma: it does
not exit, keeps the levels ordered, and changes the coverage of one level as stated.
-/

namespace Spry.PLRDF

open HalfOpen

variable {K : Type*}

section Levels

variable (f : PLRDF K) (n level : ℕ) (rs : List (K × K))

@[simp] theorem getLevelRanges_growTo :
    (f.growTo n).getLevelRanges level = f.getLevelRanges level :=
  LevelMap.getD_append_replicate _ _ _ _

@[simp] theorem getSplitKeys_growTo :
    (f.growTo n).getSplitKeys level = f.getSplitKeys level :=
  LevelMap.getD_append_replicate _ _ _ _

theorem lt_length_growTo : n < (f.growTo n).rdFilter.length := by
  simp only [growTo, List.length_append, List.length_replicate]
  omega

theorem getD_set_rdFilter (hn : n < f.rdFilter.length) :
    (f.rdFilter.set n rs).getD level [] = if level = n then rs else f.getLevelRanges level :=
  LevelMap.getD_set_eq f.rdFilter [] n level rs hn

end Levels

theorem lookup_removeRangeDeletesFromLevel0 (f : PLRDF K) (files : List ℕ) (n : ℕ) :
    (f.removeRangeDeletesFromLevel0 files).rdFilterLevel0.lookup n =
      if n ∈ files then none else f.rdFilterLevel0.lookup n := by
  simp only [removeRangeDeletesFromLevel0]
  generalize f.rdFilterLevel0 = m
  induction files generalizing m with
  | nil => simp
  | cons file files ih =>
    rw [List.foldl_cons, ih]
    by_cases hn : n = file
    · subst hn
      simp
    · simp [hn, AList.lookup_erase_ne hn]

variable [LinearOrder K]

@[simp] theorem rdFilter_purgeKeyOnLevel (f : PLRDF K) (n : ℕ) (rs : List (K × K)) :
    (f.purgeKeyOnLevel n rs).rdFilter = f.rdFilter := by
  unfold purgeKeyOnLevel
  split_ifs <;> rfl

@[simp] theorem rdFilterLevel0_purgeKeyOnLevel (f : PLRDF K) (n : ℕ)
    (rs : List (K × K)) :
    (f.purgeKeyOnLevel n rs).rdFilterLevel0 = f.rdFilterLevel0 := by
  unfold purgeKeyOnLevel
  split_ifs <;> rfl

theorem getLevelRanges_restrictLevel (f : PLRDF K) (n level : ℕ) (rs : List (K × K))
    (hn : n < f.rdFilter.length) :
    (f.restrictLevel n rs).getLevelRanges level =
      if level = n then rs else f.getLevelRanges level :=
  f.getD_set_rdFilter n level rs hn

def levelCoverage (f : PLRDF K) (level : ℕ) : Set K := coverage (f.getLevelRanges level)

instance (f : PLRDF K) (level : ℕ) (k : K) : Decidable (k ∈ f.levelCoverage level) :=
  inferInstanceAs (Decidable (k ∈ coverage (f.getLevelRanges level)))

@[simp] theorem rdFilter_splitRangesOnLevel (f : PLRDF K) (n : ℕ) (keys : List K) :
    (f.splitRangesOnLevel n keys).rdFilter = f.rdFilter := by
  unfold splitRangesOnLevel
  split_ifs
  · rfl
  · rfl

@[simp] theorem levelCoverage_splitRangesOnLevel (f : PLRDF K) (n level : ℕ) (keys : List K) :
    (f.splitRangesOnLevel n keys).levelCoverage level = f.levelCoverage level := by
  simp only [levelCoverage, getLevelRanges, rdFilter_splitRangesOnLevel]

@[simp] theorem rdFilterLevel0_splitRangesOnLevel (f : PLRDF K) (n : ℕ) (keys : List K) :
    (f.splitRangesOnLevel n keys).rdFilterLevel0 = f.rdFilterLevel0 := by
  unfold splitRangesOnLevel
  split_ifs
  · rfl
  · rfl

def LevelsOrdered (f : PLRDF K) : Prop := ∀ level, Ordered (f.getLevelRanges level)

theorem levelsOrdered_iff {f : PLRDF K} : f.LevelsOrdered ↔ ∀ rs ∈ f.rdFilter, Ordered rs := by
  constructor
  · intro h rs hrs
    obtain ⟨level, hlt, rfl⟩ := List.mem_iff_getElem.mp hrs
    simpa [getLevelRanges, hlt] using h level
  · intro h level
    unfold getLevelRanges
    by_cases hlt : level < f.rdFilter.length
    · simpa [hlt] using h _ (List.getElem_mem hlt)
    · rw [List.getD_eq_getElem?_getD, List.getElem?_eq_none (not_lt.mp hlt)]
      exact Ordered.nil

instance (f : PLRDF K) : Decidable f.LevelsOrdered := decidable_of_iff _ levelsOrdered_iff.symm

theorem coverage_sortAndMerge (rs : List (K × K)) :
    coverage (sortAndMerge rs) = coverage rs := by
  have hsort := startSorted_sortByStart rs
  rw [← coverage_perm (sortByStart_perm rs), sortAndMerge]
  cases h : sortByStart rs with
  | nil => rfl
  | cons r rs' =>
    rw [h] at hsort
    have htwice : StartSorted (r :: r :: rs') := by
      refine List.pairwise_cons.mpr ⟨?_, hsort⟩
      intro a ha
      rcases List.mem_cons.mp ha with rfl | ha
      · exact le_rfl
      · exact (List.pairwise_cons.mp hsort).1 a ha
    simp only [coverage_coalesce r (r :: rs') htwice, coverage_cons, ← Set.union_assoc,
      Set.union_self]

/-- On ranges that do not end before they start, the second look at the first element changes
nothing. -/
theorem sortAndMerge_eq {rs : List (K × K)} (hwf : ∀ r ∈ rs, r.1 ≤ r.2) :
    sortAndMerge rs = coalesceAll (sortByStart rs) := by
  unfold sortAndMerge
  cases h : sortByStart rs with
  | nil => rfl
  | cons r rs' =>
    have hr : r.1 ≤ r.2 := hwf r ((sortByStart_perm rs).mem_iff.mp (by simp [h]))
    simp [coalesceAll, coalesce, coalesceBy, hr]

theorem startSorted_sortAndMerge {rs : List (K × K)} (hwf : ∀ r ∈ rs, r.1 ≤ r.2) :
    StartSorted (sortAndMerge rs) ∧ ∀ r ∈ sortAndMerge rs, r.1 ≤ r.2 := by
  rw [sortAndMerge_eq hwf]
  have hsort := startSorted_sortByStart rs
  have hwf' : ∀ r ∈ sortByStart rs, r.1 ≤ r.2 := fun r hr =>
    hwf r ((sortByStart_perm rs).mem_iff.mp hr)
  have hends : ∀ r ∈ coalesceAll (sortByStart rs), r.1 ≤ r.2 := by
    cases h : sortByStart rs with
    | nil => simp [coalesceAll]
    | cons r rs' => exact le_of_mem_coalesce r rs' (h ▸ hwf')
  refine ⟨?_, hends⟩
  refine (gapped_coalesceAll hsort).imp_of_mem ?_
  intro a b ha _ hab
  exact (hends a ha).trans hab.le

theorem addRangeDelete_spec {rdList rdListIn : List (K × K)} (h : Ordered rdList)
    (hin : Ascends rdListIn) :
    ∃ out, addRangeDelete rdList rdListIn = some out ∧ Ordered out ∧
      coverage out = coverage rdList ∪ coverage rdListIn := by
  by_cases hempty : rdListIn = []
  · exact ⟨rdList, by simp [addRangeDelete, hempty], h, by simp [hempty]⟩
  · have hsorted := startSorted_interleave h.startSorted hin.startSorted
    have hperm := interleave_perm rdList rdListIn
    refine ⟨_, by rw [addRangeDelete, if_neg hempty, if_pos hin.startSorted], ?_, ?_⟩
    · apply ordered_coalesceAll hsorted
      intro r hr
      rcases List.mem_append.mp (hperm.mem_iff.mp hr) with hr | hr
      · exact h.nonempty r hr
      · exact hin.nonempty r hr
    · rw [coverage_coalesceAll hsorted, coverage_perm hperm, coverage_append]

/-- On a non-empty range the six source cases are exhaustive and agree with `cut`. -/
theorem cutAtBoundaries_eq (dropEmpty : Bool) (val : K × K) (bs : List (K × K))
    (hval : val.1 < val.2) : cutAtBoundaries dropEmpty val bs = some (cut val bs) := by
  induction bs generalizing val with
  | nil => simp [cutAtBoundaries, cut, hval.ne]
  | cons fb bs ih =>
    unfold cutAtBoundaries cut
    by_cases h₁ : val.2 ≤ fb.1
    · simp [h₁, hval.ne]
    by_cases h₂ : fb.2 ≤ val.1
    · simp only [if_neg h₁, if_pos h₂, ih val hval]
    simp only [if_neg h₁, if_neg h₂]
    rw [not_le] at h₁ h₂
    by_cases h₃ : val.2 ≤ fb.2
    · by_cases h₄ : val.1 < fb.1
      · simp [h₁, h₃, h₄, before]
      · simp [h₃, h₄, before, not_lt.mp h₄]
    · have hrest := ih (fb.2, val.2) (not_le.mp h₃)
      by_cases h₄ : val.1 < fb.1
      · simp [h₃, h₄, not_le.mpr h₄, not_le.mp h₃, before, hrest]
      · simp [h₂, h₃, h₄, not_lt.mp h₄, not_le.mp h₃, before, hrest]

theorem rangesOutside_eq (dropEmpty : Bool) {rs : List (K × K)} (bs : List (K × K))
    (hrs : Ordered rs) : rangesOutside dropEmpty rs bs = some (subtract rs bs) := by
  induction rs generalizing bs with
  | nil => rfl
  | cons r rs ih =>
    obtain ⟨hr, _, hrs⟩ := Ordered.cons_iff.mp hrs
    simp [rangesOutside, cutAtBoundaries_eq dropEmpty r bs hr, ih _ hrs, subtract]

theorem getLevelRanges_growTo_purgeKeyOnLevel (f : PLRDF K) (n level : ℕ)
    (ranges : List (K × K)) :
    ((f.growTo n).purgeKeyOnLevel n ranges).getLevelRanges level = f.getLevelRanges level := by
  rw [← getLevelRanges_growTo f n level]
  simp only [getLevelRanges, rdFilter_purgeKeyOnLevel]

/-- Only the range list of the level changes, to what `addRangeDelete` makes of it. -/
theorem getLevelRanges_addRangeDeleteInternal {f g : PLRDF K} {n : ℕ} {ranges : List (K × K)}
    (h : f.addRangeDeleteInternal n ranges = some g) :
    (∃ rdList, addRangeDelete (f.getLevelRanges n) ranges = some rdList ∧
      ∀ level, g.getLevelRanges level = if level = n then rdList else f.getLevelRanges level) ∧
    g.rdFilterLevel0 = f.rdFilterLevel0 := by
  obtain ⟨rdList, hadd, rfl⟩ := Option.map_eq_some_iff.mp h
  have hlen : n < ((f.growTo n).purgeKeyOnLevel n ranges).rdFilter.length := by
    simpa using f.lt_length_growTo n
  rw [getLevelRanges_growTo_purgeKeyOnLevel] at hadd
  refine ⟨⟨rdList, hadd, ?_⟩, by simp [growTo]⟩
  intro level
  rw [← getLevelRanges_growTo_purgeKeyOnLevel f n level ranges]
  exact getD_set_rdFilter _ n level rdList hlen

theorem exists_addRangeDeleteInternal {f : PLRDF K} {n : ℕ} {ranges rdList : List (K × K)}
    (h : addRangeDelete (f.getLevelRanges n) ranges = some rdList) :
    ∃ g, f.addRangeDeleteInternal n ranges = some g := by
  simp only [addRangeDeleteInternal, getLevelRanges_growTo_purgeKeyOnLevel, h, Option.map_some]
  exact ⟨_, rfl⟩

theorem addRangeDeleteInternal_spec (f : PLRDF K) (n : ℕ) {ranges : List (K × K)}
    (hf : f.LevelsOrdered) (hin : Ascends ranges) :
    ∃ g, f.addRangeDeleteInternal n ranges = some g ∧ g.LevelsOrdered ∧
      (∀ level, g.levelCoverage level =
        if level = n then f.levelCoverage n ∪ coverage ranges else f.levelCoverage level) ∧
      g.rdFilterLevel0 = f.rdFilterLevel0 := by
  obtain ⟨out, hout, hord, hcov⟩ := addRangeDelete_spec (hf n) hin
  obtain ⟨g, hg⟩ := exists_addRangeDeleteInternal hout
  obtain ⟨⟨rdList, hadd, hranges⟩, hmap⟩ := getLevelRanges_addRangeDeleteInternal hg
  obtain rfl : out = rdList := Option.some.inj (hout.symm.trans hadd)
  refine ⟨g, hg, ?_, ?_, hmap⟩
  · intro level
    rw [hranges level]
    split_ifs
    · exact hord
    · exact hf level
  · intro level
    rw [levelCoverage, hranges level]
    split_ifs with h
    · exact hcov
    · rfl

theorem removeRangeDeletesAndSplitKeyFromLevel_spec (f : PLRDF K) (n : ℕ)
    {bs : List (K × K)} (hf : f.LevelsOrdered) (hbs : StartSorted bs)
    (hwf : ∀ b ∈ bs, b.1 ≤ b.2) :
    ∃ g, f.removeRangeDeletesAndSplitKeyFromLevel n bs = some g ∧ g.LevelsOrdered ∧
      (∀ level, g.levelCoverage level =
        if level = n then f.levelCoverage n \ coverage bs else f.levelCoverage level) ∧
      g.rdFilterLevel0 = f.rdFilterLevel0 := by
  by_cases hskip : f.rdFilter.length ≤ n ∨ bs = []
  · refine ⟨f, by rw [removeRangeDeletesAndSplitKeyFromLevel, if_pos hskip], hf, ?_, rfl⟩
    intro level
    split_ifs with h
    · subst h
      rcases hskip with hlen | rfl
      · simp [levelCoverage, getLevelRanges, List.getElem?_eq_none hlen]
      · simp
    · rfl
  · have hlen : n < f.rdFilter.length := by
      by_contra hle
      exact hskip (Or.inl (not_lt.mp hle))
    refine ⟨f.restrictLevel n (subtract (f.getLevelRanges n) bs), ?_, ?_, ?_, rfl⟩
    · rw [removeRangeDeletesAndSplitKeyFromLevel, if_neg hskip, rangesOutside_eq true bs (hf n)]
      rfl
    · intro level
      rw [f.getLevelRanges_restrictLevel n level _ hlen]
      split_ifs
      · exact (ordered_subtract (hf n) hbs hwf).1
      · exact hf level
    · intro level
      rw [levelCoverage, f.getLevelRanges_restrictLevel n level _ hlen]
      split_ifs
      · exact coverage_subtract (hf n) hbs
      · rfl

def listedAt (entries : List (LevelFiles K)) (level : ℕ) : Set K :=
  {k | ∃ e ∈ entries, e.clevel = level ∧ k ∈ coverage e.boundaries}

instance (entries : List (LevelFiles K)) (level : ℕ) (k : K) :
    Decidable (k ∈ listedAt entries level) :=
  inferInstanceAs (Decidable (∃ e ∈ entries, e.clevel = level ∧ k ∈ coverage e.boundaries))

/-- The level-0 file numbers a list of source levels names. -/
def listedFiles (entries : List (LevelFiles K)) : Set ℕ :=
  {n | ∃ e ∈ entries, e.clevel = 0 ∧ n ∈ e.files}

instance (entries : List (LevelFiles K)) (n : ℕ) : Decidable (n ∈ listedFiles entries) :=
  inferInstanceAs (Decidable (∃ e ∈ entries, e.clevel = 0 ∧ n ∈ e.files))

theorem listedAt_eq_empty {entries : List (LevelFiles K)} {level : ℕ}
    (h : ∀ e ∈ entries, e.clevel ≠ level) : listedAt entries level = ∅ := by
  refine Set.eq_empty_of_forall_notMem ?_
  intro k hk
  obtain ⟨e, he, hlevel, _⟩ := hk
  exact h e he hlevel

/-- What taking the listed source levels out of a filter must leave: the same level-0 ranges,
deeper levels without the listed boundaries, and the level-0 map without the listed files. -/
structure SourcesRemoved (f g : PLRDF K) (entries : List (LevelFiles K)) : Prop where
  level0 : g.levelCoverage 0 = f.levelCoverage 0
  deeper : ∀ level ≠ 0, g.levelCoverage level = f.levelCoverage level \ listedAt entries level
  files : ∀ n, g.rdFilterLevel0.lookup n =
    if n ∈ listedFiles entries then none else f.rdFilterLevel0.lookup n

theorem shiftSource_spec (f : PLRDF K) (e : LevelFiles K) (hf : f.LevelsOrdered)
    (hwf : ∀ b ∈ e.boundaries, b.1 ≤ b.2) :
    ∃ g, f.shiftSource e = some g ∧ g.LevelsOrdered ∧ SourcesRemoved f g [e] := by
  by_cases h0 : e.clevel = 0
  · refine ⟨f.removeRangeDeletesFromLevel0 e.files, by rw [shiftSource, if_pos h0], hf,
      rfl, ?_, ?_⟩
    · intro level hlevel
      rw [listedAt_eq_empty (by simpa [h0] using hlevel.symm), Set.sdiff_empty]
      rfl
    · intro n
      rw [lookup_removeRangeDeletesFromLevel0]
      simp [listedFiles, h0]
  · obtain ⟨hsorted, hle⟩ := startSorted_sortAndMerge hwf
    obtain ⟨g, hg, hord, hcov, hmap⟩ :=
      f.removeRangeDeletesAndSplitKeyFromLevel_spec e.clevel hf hsorted hle
    refine ⟨g, by rw [shiftSource, if_neg h0, hg], hord, ?_, ?_, ?_⟩
    · rw [hcov 0, if_neg (Ne.symm h0)]
    · intro level _
      rw [hcov level]
      split_ifs with hlevel
      · subst hlevel
        simp [coverage_sortAndMerge, listedAt]
      · rw [listedAt_eq_empty (by simpa using Ne.symm hlevel), Set.sdiff_empty]
    · intro n
      simp [hmap, listedFiles, h0]

theorem SourcesRemoved.trans {f g h : PLRDF K} {es es' : List (LevelFiles K)}
    (hfg : SourcesRemoved f g es) (hgh : SourcesRemoved g h es') :
    SourcesRemoved f h (es ++ es') := by
  refine ⟨hgh.level0.trans hfg.level0, ?_, ?_⟩
  · intro level hlevel
    rw [hgh.deeper level hlevel, hfg.deeper level hlevel, sdiff_sdiff]
    congr 1
    ext k
    simp [listedAt, or_and_right, exists_or]
  · intro n
    have hsplit : n ∈ listedFiles (es ++ es') ↔ n ∈ listedFiles es ∨ n ∈ listedFiles es' := by
      simp [listedFiles, or_and_right, exists_or]
    rw [hgh.files n, hfg.files n]
    by_cases h₁ : n ∈ listedFiles es <;> by_cases h₂ : n ∈ listedFiles es' <;>
      simp [hsplit, h₁, h₂]

theorem foldlM_shiftSource_spec (f : PLRDF K) (entries : List (LevelFiles K))
    (hf : f.LevelsOrdered) (hwf : ∀ e ∈ entries, ∀ b ∈ e.boundaries, b.1 ≤ b.2) :
    ∃ g, entries.foldlM shiftSource f = some g ∧ g.LevelsOrdered ∧
      SourcesRemoved f g entries := by
  induction entries generalizing f with
  | nil =>
    refine ⟨f, rfl, hf, rfl, ?_, ?_⟩
    · intro level _
      simp [listedAt]
    · intro n
      simp [listedFiles]
  | cons e es ih =>
    obtain ⟨g, hg, hgord, hfg⟩ := f.shiftSource_spec e hf (hwf e (by simp))
    obtain ⟨h, hh, hhord, hgh⟩ := ih g hgord (fun e' he' => hwf e' (by simp [he']))
    exact ⟨h, by simp [List.foldlM_cons, hg, hh], hhord, hfg.trans hgh⟩

/-- Moving the listed source levels to the output level of the first one: the sources are taken
out and the output ranges are added there. -/
theorem shiftRDFToOutputLevel_spec (f : PLRDF K) (e : LevelFiles K) (es : List (LevelFiles K))
    {out : List (K × K)} (hf : f.LevelsOrdered) (hout : Ascends out)
    (hwf : ∀ e' ∈ e :: es, ∀ b ∈ e'.boundaries, b.1 ≤ b.2) :
    ∃ g h, f.shiftRDFToOutputLevel (e :: es) out = some h ∧ h.LevelsOrdered ∧
      SourcesRemoved f g (e :: es) ∧ h.rdFilterLevel0 = g.rdFilterLevel0 ∧
      ∀ level, h.levelCoverage level =
        if level = e.olevel then g.levelCoverage level ∪ coverage out
        else g.levelCoverage level := by
  obtain ⟨g, hg, hgord, hfg⟩ := f.foldlM_shiftSource_spec (e :: es) hf hwf
  by_cases hempty : out = []
  · refine ⟨g, g, by simp [shiftRDFToOutputLevel, hg, hempty], hgord, hfg, rfl, ?_⟩
    intro level
    simp [hempty]
  · obtain ⟨h, hh, hhord, hcov, hmap⟩ := g.addRangeDeleteInternal_spec e.olevel hgord hout
    refine ⟨g, h, by simp [shiftRDFToOutputLevel, hg, hempty, hh], hhord, hfg, hmap, ?_⟩
    intro level
    rw [hcov level]
    split_ifs with hlevel
    · rw [hlevel]
    · rfl

theorem levelCoverage_deleteRDF {f g : PLRDF K} {e : LevelFiles K} (hf : f.LevelsOrdered)
    (hwf : ∀ b ∈ e.boundaries, b.1 ≤ b.2)
    (h : f.deleteRDFAssociatedWithFilesAtCurrentLevel e = some g) {level : ℕ} (hlevel : level ≠ 0) :
    g.levelCoverage level = f.levelCoverage level \ listedAt [e] level := by
  unfold deleteRDFAssociatedWithFilesAtCurrentLevel at h
  by_cases hzero : e.clevel = 0
  · rw [if_pos hzero] at h
    obtain ⟨m, _, rfl⟩ := Option.map_eq_some_iff.mp h
    rw [listedAt_eq_empty (by simpa [hzero] using hlevel.symm), Set.sdiff_empty]
    rfl
  · rw [if_neg hzero] at h
    by_cases hlen : f.rdFilter.length ≤ e.clevel
    · rw [if_pos hlen] at h
      obtain rfl := Option.some.inj h
      by_cases heq : level = e.clevel
      · have hempty : f.levelCoverage level = ∅ := by
          rw [levelCoverage, getLevelRanges, List.getD_eq_getElem?_getD,
            List.getElem?_eq_none (heq ▸ hlen)]
          exact coverage_nil
        rw [hempty, Set.empty_sdiff]
      · rw [listedAt_eq_empty (by simpa using Ne.symm heq), Set.sdiff_empty]
    · obtain ⟨hsorted, hle⟩ := startSorted_sortAndMerge hwf
      rw [if_neg hlen, rangesOutside_eq false _ (hf e.clevel), Option.map_some] at h
      obtain rfl := Option.some.inj h
      rw [levelCoverage, f.getLevelRanges_restrictLevel e.clevel level _ (not_le.mp hlen)]
      split_ifs with heq
      · rw [coverage_subtract (hf e.clevel) hsorted, coverage_sortAndMerge, heq]
        congr 1
        ext k
        simp [listedAt]
      · rw [listedAt_eq_empty (by simpa using Ne.symm heq), Set.sdiff_empty]
        rfl

end Spry.PLRDF
