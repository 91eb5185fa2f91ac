import Spry.PLRDFAligned

/-!
# Split keys

A split key is a key inside a range of its level that is alive nevertheless. `WellFormed` is what
every operation keeps: ordered levels, and for each level an ascending list of split keys inside
its ranges. Each operation gets one lemma on the split keys it leaves.
-/

namespace Spry.PLRDF

open HalfOpen

variable {K : Type*}

theorem getSplitKeys_of_length_le {f : PLRDF K} {level : ℕ} (h : f.splitKeys.length ≤ level) :
    f.getSplitKeys level = [] := by
  rw [getSplitKeys, List.getD_eq_getElem?_getD, List.getElem?_eq_none h]
  rfl

structure WellFormed [LinearOrder K] (f : PLRDF K) : Prop where
  ordered : f.LevelsOrdered
  sorted : ∀ level, (f.getSplitKeys level).Pairwise (· < ·)
  inside : ∀ level, ∀ k ∈ f.getSplitKeys level, k ∈ f.levelCoverage level
  length_eq : f.splitKeys.length = f.rdFilter.length

variable [LinearOrder K] {f g : PLRDF K}

theorem wellFormed_empty : (empty : PLRDF K).WellFormed := by
  refine ⟨fun _ => Ordered.nil, fun _ => List.Pairwise.nil, ?_, rfl⟩
  intro level k hk
  cases hk

theorem WellFormed.sorted_le (hf : f.WellFormed) (level : ℕ) :
    (f.getSplitKeys level).Pairwise (· ≤ ·) :=
  (hf.sorted level).imp le_of_lt

theorem head_dropWhile_eq_iff {ks : List K} (hks : ks.Pairwise (· ≤ ·)) (key : K) :
    (ks.dropWhile (fun k => k < key)).head? = some key ↔ key ∈ ks := by
  have hmem : key ∈ ks.dropWhile (fun k => k < key) ↔ key ∈ ks := by
    rw [mem_dropWhile_iff (scan_lt key hks)]
    simp
  rw [← hmem]
  constructor
  · intro h
    exact List.mem_of_mem_head? h
  · intro h
    cases hdrop : ks.dropWhile (fun k => k < key) with
    | nil =>
      rw [hdrop] at h
      cases h
    | cons a rest =>
      have hsorted : (a :: rest).Pairwise (· ≤ ·) := by
        rw [← hdrop]
        exact hks.sublist (List.dropWhile_sublist _)
      have hge : key ≤ a := by
        have ha : a ∈ ks.dropWhile (fun k => k < key) := by
          rw [hdrop]
          exact List.mem_cons_self
        have hnot := ((mem_dropWhile_iff (scan_lt key hks)).mp ha).2
        simpa using hnot
      rw [hdrop] at h
      have hle : a ≤ key := by
        cases List.mem_cons.mp h with
        | inl heq => rw [heq]
        | inr hrest => exact (List.pairwise_cons.mp hsorted).1 key hrest
      rw [List.head?_cons, le_antisymm hge hle]

theorem WellFormed.isEntryAlive_iff (hf : f.WellFormed) (level : ℕ) (key : K) :
    f.isEntryAlive level key = true ↔
      key ∉ f.levelCoverage level ∨ key ∈ f.getSplitKeys level := by
  have hord := hf.ordered level
  unfold isEntryAlive levelCoverage
  cases hranges : f.getLevelRanges level with
  | nil => simp
  | cons r rs =>
    rw [hranges] at hord
    rw [← head_dropWhile_eq_iff (hf.sorted_le level), ← mem_stepBack_iff hord]
    by_cases hfound : ((f.getSplitKeys level).dropWhile (fun k => k < key)).head? = some key
    · simp [hfound]
    · simp only [hfound, if_false, or_false, Set.mem_Ico, Bool.not_eq_true',
        decide_eq_false_iff_not]

def KeepsCovered (f g : PLRDF K) : Prop :=
  ∀ level k, k ∈ g.getSplitKeys level ↔ k ∈ f.getSplitKeys level ∧ k ∈ g.levelCoverage level

theorem WellFormed.keepsCovered_refl (hf : f.WellFormed) : KeepsCovered f f := by
  intro level k
  constructor
  · intro hk
    exact ⟨hk, hf.inside level k hk⟩
  · intro hk
    exact hk.1

theorem KeepsCovered.trans {h : PLRDF K} (hfg : KeepsCovered f g) (hgh : KeepsCovered g h)
    (hsub : ∀ level, h.levelCoverage level ⊆ g.levelCoverage level) : KeepsCovered f h := by
  intro level k
  rw [hgh level k, hfg level k]
  constructor
  · intro hk
    exact ⟨hk.1.1, hk.2⟩
  · intro hk
    exact ⟨⟨hk.1, hsub level hk.2⟩, hk.2⟩

theorem getSplitKeys_restrictLevel {n : ℕ} {rs : List (K × K)}
    (hn : n < f.splitKeys.length) (hkeys : (f.getSplitKeys n).Pairwise (· ≤ ·)) (hrs : Ordered rs)
    (level : ℕ) :
    (f.restrictLevel n rs).getSplitKeys level =
      if level = n then (f.getSplitKeys n).filter (fun k => k ∈ coverage rs)
      else f.getSplitKeys level := by
  rw [← retainKeys_eq_filter hkeys hrs]
  exact LevelMap.getD_set_eq f.splitKeys [] n level _ hn

theorem WellFormed.restrictLevel (hf : f.WellFormed) {n : ℕ} {rs : List (K × K)}
    (hn : n < f.rdFilter.length) (hrs : Ordered rs) :
    (f.restrictLevel n rs).WellFormed ∧ KeepsCovered f (f.restrictLevel n rs) := by
  have hlength : n < f.splitKeys.length := by
    rw [hf.length_eq]
    exact hn
  have hkeys := getSplitKeys_restrictLevel hlength (hf.sorted_le n) hrs
  have hranges := fun level => f.getLevelRanges_restrictLevel n level rs hn
  have hkeeps : KeepsCovered f (f.restrictLevel n rs) := by
    intro level k
    rw [hkeys level, levelCoverage, hranges level]
    by_cases hlevel : level = n
    · simp [hlevel]
    · rw [if_neg hlevel, if_neg hlevel]
      exact hf.keepsCovered_refl level k
  refine ⟨⟨?_, ?_, ?_, ?_⟩, hkeeps⟩
  · intro level
    rw [hranges level]
    by_cases hlevel : level = n
    · rw [if_pos hlevel]
      exact hrs
    · rw [if_neg hlevel]
      exact hf.ordered level
  · intro level
    rw [hkeys level]
    by_cases hlevel : level = n
    · rw [if_pos hlevel]
      exact (hf.sorted n).filter _
    · rw [if_neg hlevel]
      exact hf.sorted level
  · intro level k hk
    exact ((hkeeps level k).mp hk).2
  · simp [PLRDF.restrictLevel, hf.length_eq]

theorem WellFormed.removeRangeDeletesAndSplitKeyFromLevel (hf : f.WellFormed) {n : ℕ}
    {bs : List (K × K)} (hbs : StartSorted bs) (hwf : ∀ b ∈ bs, b.1 ≤ b.2)
    (h : f.removeRangeDeletesAndSplitKeyFromLevel n bs = some g) :
    g.WellFormed ∧ KeepsCovered f g := by
  unfold PLRDF.removeRangeDeletesAndSplitKeyFromLevel at h
  by_cases hskip : f.rdFilter.length ≤ n ∨ bs = []
  · rw [if_pos hskip, Option.some.injEq] at h
    subst h
    exact ⟨hf, hf.keepsCovered_refl⟩
  · rw [if_neg hskip, rangesOutside_eq true bs (hf.ordered n), Option.map_some,
      Option.some.injEq] at h
    subst h
    apply hf.restrictLevel
    · by_contra hle
      exact hskip (Or.inl (not_lt.mp hle))
    · exact (ordered_subtract (hf.ordered n) hbs hwf).1

theorem WellFormed.shiftSource (hf : f.WellFormed) {e : LevelFiles K}
    (hwf : ∀ b ∈ e.boundaries, b.1 ≤ b.2) (h : f.shiftSource e = some g) :
    g.WellFormed ∧ KeepsCovered f g := by
  unfold PLRDF.shiftSource at h
  by_cases hzero : e.clevel = 0
  · rw [if_pos hzero, Option.some.injEq] at h
    subst h
    exact ⟨⟨hf.ordered, hf.sorted, hf.inside, hf.length_eq⟩, hf.keepsCovered_refl⟩
  · rw [if_neg hzero] at h
    obtain ⟨hsorted, hle⟩ := startSorted_sortAndMerge hwf
    exact hf.removeRangeDeletesAndSplitKeyFromLevel hsorted hle h

theorem SourcesRemoved.levelCoverage_subset {entries : List (LevelFiles K)}
    (h : SourcesRemoved f g entries) (level : ℕ) :
    g.levelCoverage level ⊆ f.levelCoverage level := by
  by_cases hlevel : level = 0
  · rw [hlevel, h.level0]
  · rw [h.deeper level hlevel]
    exact Set.sdiff_subset

theorem WellFormed.foldlM_shiftSource (hf : f.WellFormed) {entries : List (LevelFiles K)}
    (hwf : ∀ e ∈ entries, ∀ b ∈ e.boundaries, b.1 ≤ b.2)
    (h : entries.foldlM PLRDF.shiftSource f = some g) : g.WellFormed ∧ KeepsCovered f g := by
  induction entries generalizing f with
  | nil =>
    cases h
    exact ⟨hf, hf.keepsCovered_refl⟩
  | cons e es ih =>
    obtain ⟨mid, hmid, hrest⟩ := Option.bind_eq_some_iff.mp h
    obtain ⟨hmidwf, hkeeps⟩ := hf.shiftSource (hwf e List.mem_cons_self) hmid
    have hwf' : ∀ e' ∈ es, ∀ b ∈ e'.boundaries, b.1 ≤ b.2 :=
      fun e' he' => hwf e' (List.mem_cons_of_mem e he')
    obtain ⟨hg, hkeeps'⟩ := ih hmidwf hwf' hrest
    obtain ⟨g', hg', _, hremoved⟩ := mid.foldlM_shiftSource_spec es hmidwf.ordered hwf'
    obtain rfl : g = g' := Option.some.inj (hrest.symm.trans hg')
    exact ⟨hg, hkeeps.trans hkeeps' hremoved.levelCoverage_subset⟩

theorem getSplitKeys_purgeKeyOnLevel {n : ℕ} {rs : List (K × K)}
    (hsorted : (f.getSplitKeys n).Pairwise (· ≤ ·)) (hrs : StartSorted rs) (level : ℕ) :
    (f.purgeKeyOnLevel n rs).getSplitKeys level =
      if level = n then (f.getSplitKeys n).filter (fun k => k ∉ coverage rs)
      else f.getSplitKeys level := by
  unfold purgeKeyOnLevel
  by_cases hskip : f.splitKeys.length ≤ n ∨ f.getSplitKeys n = []
  · have hnil : f.getSplitKeys n = [] := by
      cases hskip with
      | inl hle => exact getSplitKeys_of_length_le hle
      | inr hnil => exact hnil
    rw [if_pos hskip]
    by_cases hlevel : level = n
    · simp [hlevel, hnil]
    · rw [if_neg hlevel]
  · rw [if_neg hskip, ← purgeKeys_eq_filter hsorted hrs]
    apply LevelMap.getD_set_eq f.splitKeys [] n level
    by_contra hle
    exact hskip (Or.inl (not_lt.mp hle))

theorem getSplitKeys_addRangeDeleteInternal {n : ℕ} {ranges : List (K × K)}
    (hsorted : (f.getSplitKeys n).Pairwise (· ≤ ·)) (hranges : StartSorted ranges)
    (h : f.addRangeDeleteInternal n ranges = some g) (level : ℕ) :
    g.getSplitKeys level =
      if level = n then (f.getSplitKeys n).filter (fun k => k ∉ coverage ranges)
      else f.getSplitKeys level := by
  obtain ⟨out, _, rfl⟩ := Option.map_eq_some_iff.mp h
  have hgrown : ((f.growTo n).getSplitKeys n).Pairwise (· ≤ ·) := by
    rw [getSplitKeys_growTo]
    exact hsorted
  change ((f.growTo n).purgeKeyOnLevel n ranges).getSplitKeys level = _
  rw [getSplitKeys_purgeKeyOnLevel hgrown hranges level, getSplitKeys_growTo, getSplitKeys_growTo]

theorem WellFormed.addRangeDeleteInternal (hf : f.WellFormed) {n : ℕ} {ranges : List (K × K)}
    (hin : Ascends ranges) (h : f.addRangeDeleteInternal n ranges = some g) :
    g.WellFormed ∧ ∀ level k, k ∈ g.getSplitKeys level ↔
      k ∈ f.getSplitKeys level ∧ (level = n → k ∉ coverage ranges) := by
  obtain ⟨g', hg', hord, hcov, _⟩ := f.addRangeDeleteInternal_spec n hf.ordered hin
  obtain rfl : g = g' := Option.some.inj (h.symm.trans hg')
  have hkeys := getSplitKeys_addRangeDeleteInternal (hf.sorted_le n) hin.startSorted h
  have hmem : ∀ level k, k ∈ g.getSplitKeys level ↔
      k ∈ f.getSplitKeys level ∧ (level = n → k ∉ coverage ranges) := by
    intro level k
    rw [hkeys level]
    by_cases hlevel : level = n
    · simp [hlevel]
    · simp [hlevel]
  refine ⟨⟨hord, ?_, ?_, ?_⟩, hmem⟩
  · intro level
    rw [hkeys level]
    by_cases hlevel : level = n
    · rw [if_pos hlevel]
      exact (hf.sorted n).filter _
    · rw [if_neg hlevel]
      exact hf.sorted level
  · intro level k hk
    have hold := hf.inside level k ((hmem level k).mp hk).1
    rw [hcov level]
    by_cases hlevel : level = n
    · rw [if_pos hlevel]
      rw [hlevel] at hold
      exact Or.inl hold
    · rw [if_neg hlevel]
      exact hold
  · exact Aligned.addRangeDeleteInternal hf.length_eq h

/-- The purge removes exactly the split keys inside of the ranges, and so does an insertion. -/
theorem purgeKeyOnLevel_exact {level : ℕ} {ranges : List (K × K)}
    (hkeys : (f.getSplitKeys level).Pairwise (· ≤ ·)) (hranges : StartSorted ranges) :
    (f.purgeKeyOnLevel level ranges).getSplitKeys level =
        (f.getSplitKeys level).filter (fun k => k ∉ coverage ranges) ∧
      (∀ other ≠ level, (f.purgeKeyOnLevel level ranges).getSplitKeys other =
        f.getSplitKeys other) ∧
      ∃ g, f.addRangeDeleteInternal level ranges = some g ∧
        (∀ key ∈ coverage ranges, key ∉ g.getSplitKeys level) ∧
        (∀ key, key ∉ coverage ranges → (key ∈ g.getSplitKeys level ↔ key ∈ f.getSplitKeys level)) ∧
        ∀ other ≠ level, g.getSplitKeys other = f.getSplitKeys other := by
  have hpurge := getSplitKeys_purgeKeyOnLevel hkeys hranges
  obtain ⟨rdList, hadd⟩ :
      ∃ rdList, addRangeDelete (f.getLevelRanges level) ranges = some rdList := by
    unfold addRangeDelete
    split_ifs
    · exact ⟨_, rfl⟩
    · exact ⟨_, rfl⟩
  obtain ⟨g, hg⟩ := exists_addRangeDeleteInternal hadd
  have hinsert := getSplitKeys_addRangeDeleteInternal hkeys hranges hg
  refine ⟨?_, fun other hother => ?_, g, hg, fun key hkey => ?_, fun key hkey => ?_,
    fun other hother => ?_⟩
  · rw [hpurge level, if_pos rfl]
  · rw [hpurge other, if_neg hother]
  · rw [hinsert level, if_pos rfl, List.mem_filter]
    simp [hkey]
  · rw [hinsert level, if_pos rfl, List.mem_filter]
    simp [hkey]
  · rw [hinsert other, if_neg hother]

/-- Split keys before, in, between and after two ranges. -/
theorem purgeKeyOnLevel_exact_sample :
    ((⟨∅, [[(0, 9)]], [[1, 2, 3, 5, 6, 8]]⟩ : PLRDF ℕ).purgeKeyOnLevel 0
      [(2, 4), (6, 7)]).getSplitKeys 0 = [1, 5, 8] := by
  have hkeys : ((⟨∅, [[(0, 9)]], [[1, 2, 3, 5, 6, 8]]⟩ : PLRDF ℕ).getSplitKeys 0).Pairwise
      (· ≤ ·) := by decide
  have hranges : StartSorted [(2, 4), (6, 7)] := by decide
  rw [(purgeKeyOnLevel_exact hkeys hranges).1]
  decide

/-- A shift that does not exit was given output ranges in the order of their starts. -/
theorem ascends_of_shiftRDFToOutputLevel {e : LevelFiles K} {es : List (LevelFiles K)}
    {out : List (K × K)} (hne : ∀ r ∈ out, r.1 < r.2)
    (h : f.shiftRDFToOutputLevel (e :: es) out = some g) : Ascends out := by
  obtain ⟨mid, _, hrest⟩ := Option.bind_eq_some_iff.mp h
  by_cases hempty : out = []
  · subst hempty
    exact Ordered.nil.ascends
  · rw [if_neg hempty] at hrest
    obtain ⟨rdList, hadd, _⟩ := Option.map_eq_some_iff.mp hrest
    rw [addRangeDelete, if_neg hempty, Option.ite_none_right_eq_some] at hadd
    exact ⟨hadd.1, hne⟩

/-- After a shift the old split keys that remain on a level are those its remaining ranges cover,
less those the new ranges cover on the output level. -/
theorem WellFormed.shiftRDFToOutputLevel (hf : f.WellFormed) {e : LevelFiles K}
    {es : List (LevelFiles K)} {out : List (K × K)} (hout : Ascends out)
    (hwf : ∀ e' ∈ e :: es, ∀ b ∈ e'.boundaries, b.1 ≤ b.2)
    (h : f.shiftRDFToOutputLevel (e :: es) out = some g) :
    g.WellFormed ∧ ∃ mid, SourcesRemoved f mid (e :: es) ∧
      (∀ level, g.levelCoverage level =
        if level = e.olevel then mid.levelCoverage level ∪ coverage out
        else mid.levelCoverage level) ∧
      ∀ level k, k ∈ g.getSplitKeys level ↔
        (k ∈ f.getSplitKeys level ∧ k ∈ mid.levelCoverage level) ∧
          (level = e.olevel → k ∉ coverage out) := by
  obtain ⟨mid, hmid, hrest⟩ := Option.bind_eq_some_iff.mp h
  obtain ⟨mid', hmid', _, hremoved⟩ := f.foldlM_shiftSource_spec (e :: es) hf.ordered hwf
  obtain rfl : mid = mid' := Option.some.inj (hmid.symm.trans hmid')
  obtain ⟨hmidwf, hkeeps⟩ := hf.foldlM_shiftSource hwf hmid
  by_cases hempty : out = []
  · rw [if_pos hempty] at hrest
    obtain rfl : mid = g := Option.some.inj hrest
    refine ⟨hmidwf, mid, hremoved, ?_, ?_⟩
    · intro level
      simp [hempty]
    · intro level k
      simp [hempty, hkeeps level k]
  · rw [if_neg hempty] at hrest
    obtain ⟨hg, hkeys⟩ := hmidwf.addRangeDeleteInternal hout hrest
    obtain ⟨g', hg', _, hcov, _⟩ := mid.addRangeDeleteInternal_spec e.olevel hmidwf.ordered hout
    obtain rfl : g = g' := Option.some.inj (hrest.symm.trans hg')
    refine ⟨hg, mid, hremoved, ?_, ?_⟩
    · intro level
      rw [hcov level]
      by_cases hlevel : level = e.olevel
      · simp [hlevel]
      · simp [hlevel]
    · intro level k
      rw [hkeys level k, hkeeps level k]

theorem getSplitKeys_splitRangesOnLevel {n : ℕ} (hranges : n < f.rdFilter.length)
    (hsplit : n < f.splitKeys.length) (keys : List K) (level : ℕ) :
    (f.splitRangesOnLevel n keys).getSplitKeys level =
      if level = n then
        collectKeys (unionKeys (f.getSplitKeys n) keys) (f.getLevelRanges n) none
      else f.getSplitKeys level := by
  unfold PLRDF.splitRangesOnLevel
  rw [if_neg (not_le.mpr hranges)]
  exact LevelMap.getD_set_eq f.splitKeys [] n level _ hsplit

theorem WellFormed.collects_splitKeys (hf : f.WellFormed) (n : ℕ) {keys : List K}
    (hkeys : keys.Pairwise (· ≤ ·)) :
    (collectKeys (unionKeys (f.getSplitKeys n) keys) (f.getLevelRanges n) none).Pairwise (· < ·) ∧
      ∀ k, k ∈ collectKeys (unionKeys (f.getSplitKeys n) keys) (f.getLevelRanges n) none ↔
        (k ∈ f.getSplitKeys n ∨ k ∈ keys) ∧ k ∈ f.levelCoverage n := by
  obtain ⟨hsorted, hmem⟩ := collects_collectKeys (sorted_unionKeys (hf.sorted_le n) hkeys)
    (hf.ordered n).weaklyOrdered (fun l (hl : l ∈ none) => by cases hl)
  refine ⟨hsorted, fun k => ?_⟩
  rw [hmem k, mem_unionKeys]
  simp [levelCoverage]

theorem WellFormed.splitRangesOnLevel (hf : f.WellFormed) (n : ℕ) {keys : List K}
    (hkeys : keys.Pairwise (· ≤ ·)) :
    (f.splitRangesOnLevel n keys).WellFormed ∧
      (∀ level, (f.splitRangesOnLevel n keys).levelCoverage level = f.levelCoverage level) ∧
      ∀ k, k ∈ (f.splitRangesOnLevel n keys).getSplitKeys n ↔
        (k ∈ f.getSplitKeys n ∨ k ∈ keys) ∧ k ∈ f.levelCoverage n := by
  have hcov := fun level => f.levelCoverage_splitRangesOnLevel n level keys
  by_cases hlen : f.rdFilter.length ≤ n
  · have hnone : f.levelCoverage n = ∅ := by
      simp [levelCoverage, getLevelRanges, List.getElem?_eq_none hlen]
    unfold PLRDF.splitRangesOnLevel
    rw [if_pos hlen]
    refine ⟨hf, fun _ => rfl, fun k => ?_⟩
    rw [getSplitKeys_of_length_le (by rw [hf.length_eq]; exact hlen), hnone]
    simp
  · obtain ⟨hsorted, hmem⟩ := hf.collects_splitKeys n hkeys
    have hget := getSplitKeys_splitRangesOnLevel (not_le.mp hlen)
      (hf.length_eq ▸ not_le.mp hlen) keys
    refine ⟨⟨?_, ?_, ?_, Aligned.splitRangesOnLevel hf.length_eq n keys⟩, hcov, ?_⟩
    · intro level
      rw [getLevelRanges, rdFilter_splitRangesOnLevel]
      exact hf.ordered level
    · intro level
      rw [hget level]
      by_cases hlevel : level = n
      · rw [if_pos hlevel]
        exact hsorted
      · rw [if_neg hlevel]
        exact hf.sorted level
    · intro level k hk
      rw [hget level] at hk
      rw [hcov level]
      by_cases hlevel : level = n
      · rw [if_pos hlevel] at hk
        rw [hlevel]
        exact ((hmem k).mp hk).2
      · rw [if_neg hlevel] at hk
        exact hf.inside level k hk
    · intro k
      rw [hget n, if_pos rfl]
      exact hmem k

theorem getSplitKeys_splitRangesOnLevel_of_ne {n level : ℕ} (h : level ≠ n) (keys : List K) :
    (f.splitRangesOnLevel n keys).getSplitKeys level = f.getSplitKeys level := by
  unfold PLRDF.splitRangesOnLevel
  split_ifs
  · rfl
  · simp only [getSplitKeys, List.getD_eq_getElem?_getD, List.getElem?_set_ne (Ne.symm h)]

theorem WellFormed.insertRangeDeleteToLevel0 (hf : f.WellFormed) {fileNum : ℕ}
    {ranges : List (K × K)} {exist : List ℕ}
    (h : f.insertRangeDeleteToLevel0 fileNum ranges exist = some g) : g.WellFormed := by
  unfold PLRDF.insertRangeDeleteToLevel0 at h
  split_ifs at h
  obtain rfl := Option.some.inj h
  exact ⟨hf.ordered, hf.sorted, hf.inside, hf.length_eq⟩

theorem WellFormed.deleteRDFAssociatedWithFilesAtCurrentLevel (hf : f.WellFormed)
    {e : LevelFiles K} (hwf : ∀ b ∈ e.boundaries, b.1 ≤ b.2)
    (h : f.deleteRDFAssociatedWithFilesAtCurrentLevel e = some g) :
    g.WellFormed ∧ KeepsCovered f g := by
  unfold PLRDF.deleteRDFAssociatedWithFilesAtCurrentLevel at h
  by_cases hzero : e.clevel = 0
  · rw [if_pos hzero] at h
    obtain ⟨m, _, rfl⟩ := Option.map_eq_some_iff.mp h
    exact ⟨⟨hf.ordered, hf.sorted, hf.inside, hf.length_eq⟩, hf.keepsCovered_refl⟩
  · rw [if_neg hzero] at h
    by_cases hlen : f.rdFilter.length ≤ e.clevel
    · rw [if_pos hlen] at h
      obtain rfl := Option.some.inj h
      exact ⟨hf, hf.keepsCovered_refl⟩
    · obtain ⟨hsorted, hle⟩ := startSorted_sortAndMerge hwf
      rw [if_neg hlen, rangesOutside_eq false _ (hf.ordered e.clevel), Option.map_some] at h
      obtain rfl := Option.some.inj h
      exact hf.restrictLevel (not_le.mp hlen)
        (ordered_subtract (hf.ordered e.clevel) hsorted hle).1

theorem WellFormed.foldlM_deleteRDF (hf : f.WellFormed) {entries : List (LevelFiles K)}
    (hwf : ∀ e ∈ entries, ∀ x ∈ e.boundaries, x.1 ≤ x.2)
    (h : entries.foldlM PLRDF.deleteRDFAssociatedWithFilesAtCurrentLevel f = some g) :
    g.WellFormed ∧ ∀ level ≠ 0,
      g.levelCoverage level = f.levelCoverage level \ listedAt entries level := by
  induction entries generalizing f with
  | nil =>
    obtain rfl := Option.some.inj h
    refine ⟨hf, fun level _ => ?_⟩
    rw [listedAt_eq_empty (by simp), Set.sdiff_empty]
  | cons e es ih =>
    obtain ⟨mid, hmid, hrest⟩ := Option.bind_eq_some_iff.mp h
    have hmidwf := (hf.deleteRDFAssociatedWithFilesAtCurrentLevel
      (hwf e List.mem_cons_self) hmid).1
    obtain ⟨hg, hcov⟩ := ih hmidwf (fun e' he' => hwf e' (List.mem_cons_of_mem e he')) hrest
    refine ⟨hg, fun level hlevel => ?_⟩
    rw [hcov level hlevel,
      levelCoverage_deleteRDF hf.ordered (hwf e List.mem_cons_self) hmid hlevel, sdiff_sdiff]
    congr 1
    ext k
    simp [listedAt]

/-- A shift that does not exit, whatever the order of the output files. -/
theorem WellFormed.levelCoverage_shiftRDF (hf : f.WellFormed) {e : LevelFiles K}
    {es : List (LevelFiles K)} {out : List (K × K)} (hne : ∀ r ∈ out, r.1 < r.2)
    (hwf : ∀ e' ∈ e :: es, ∀ x ∈ e'.boundaries, x.1 ≤ x.2)
    (h : f.shiftRDFToOutputLevel (e :: es) out = some g) :
    g.WellFormed ∧ ∀ level ≠ 0, g.levelCoverage level =
      if level = e.olevel then (f.levelCoverage level \ listedAt (e :: es) level) ∪ coverage out
      else f.levelCoverage level \ listedAt (e :: es) level := by
  have hout := ascends_of_shiftRDFToOutputLevel hne h
  obtain ⟨hg, mid, hremoved, hcov, _⟩ := hf.shiftRDFToOutputLevel hout hwf h
  refine ⟨hg, fun level hlevel => ?_⟩
  rw [hcov level, hremoved.deeper level hlevel]

end Spry.PLRDF
