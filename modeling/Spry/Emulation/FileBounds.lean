import Spry.Emulation.Level

/-!
# Bounds of lists and files, and the search by bounds

For sorted entries with keys in range the bounds of a list and of a file are the least and the
greatest key. So the loops over files, tiles and pages find what a plain search of the entries
finds.
-/

namespace Spry.Emulation

open ClosedRange

theorem toInt_eq {x : ℤ} (h : x ∈ Set.Ico (0 : ℤ) (2 ^ 31)) : toInt x = x := by
  obtain ⟨h₀, h₁⟩ := h
  exact Int.bmod_eq_of_le_mul_two (by omega) (by omega)

section Ends

variable {p : PointEntry} {ps : List PointEntry} {r : ℤ × ℤ} {rs : List (ℤ × ℤ)}

theorem isLeast_pointKeys (h : Ascending (p :: ps)) : IsLeast (pointKeys (p :: ps)) p.sortKey := by
  refine ⟨⟨p, by simp, rfl⟩, ?_⟩
  rintro _ ⟨q, hq, rfl⟩
  rcases List.mem_cons.mp hq with rfl | hq
  · exact le_rfl
  · exact ((List.pairwise_cons.mp h).1 q hq).le

theorem isGreatest_pointKeys (h : Ascending (ps ++ [p])) :
    IsGreatest (pointKeys (ps ++ [p])) p.sortKey := by
  refine ⟨⟨p, by simp, rfl⟩, ?_⟩
  rintro _ ⟨q, hq, rfl⟩
  rcases List.mem_append.mp hq with hq | hq
  · exact ((List.pairwise_append.mp h).2.2 q hq p (by simp)).le
  · rw [List.mem_singleton.mp hq]

theorem isLeast_coverage (h : Ordered (r :: rs)) : IsLeast (coverage (r :: rs)) r.1 := by
  obtain ⟨hr, hlt, _⟩ := Ordered.cons_iff.mp h
  refine ⟨⟨r, by simp, le_rfl, hr⟩, ?_⟩
  rintro k ⟨s, hs, hsk, _⟩
  rcases List.mem_cons.mp hs with rfl | hs
  · exact hsk
  · have := hlt s hs
    omega

theorem isGreatest_coverage (h : Ordered (rs ++ [r])) : IsGreatest (coverage (rs ++ [r])) r.2 := by
  obtain ⟨_, hr, hcross⟩ := Ordered.append_iff.mp h
  have hvalid := hr.valid r (by simp)
  refine ⟨⟨r, by simp, hvalid, le_rfl⟩, ?_⟩
  rintro k ⟨s, hs, _, hks⟩
  rcases List.mem_append.mp hs with hs | hs
  · have := hcross s hs r (by simp)
    omega
  · rw [List.mem_singleton.mp hs] at hks
    exact hks

end Ends

namespace EntryList

variable {l : EntryList}

theorem isLeast_getMinKey (hl : l.Sorted) (hr : l.InRange) (hne : l.support.Nonempty) :
    IsLeast l.support l.getMinKey := by
  obtain ⟨ps, rs⟩ := l
  cases ps with
  | nil =>
    cases rs with
    | nil => simp [support, pointKeys] at hne
    | cons r rs =>
      have h : IsLeast (support ⟨[], r :: rs⟩) r.1 := by
        simpa [support, pointKeys] using isLeast_coverage hl.ranges
      rwa [getMinKey, toInt_eq (hr h.1)]
  | cons p ps =>
    cases rs with
    | nil =>
      have h : IsLeast (support ⟨p :: ps, []⟩) p.sortKey := by
        simpa only [support, coverage_nil, Set.union_empty] using isLeast_pointKeys hl.points
      rwa [getMinKey, toInt_eq (hr h.1)]
    | cons r rs =>
      have h : IsLeast (support ⟨p :: ps, r :: rs⟩) (min p.sortKey r.1) :=
        (isLeast_pointKeys hl.points).union (isLeast_coverage hl.ranges)
      rwa [getMinKey, toInt_eq (hr h.1)]

theorem isGreatest_getMaxKey (hl : l.Sorted) (hr : l.InRange) (hne : l.support.Nonempty) :
    IsGreatest l.support l.getMaxKey := by
  obtain ⟨ps, rs⟩ := l
  cases ps using List.reverseRecOn with
  | nil =>
    cases rs using List.reverseRecOn with
    | nil => simp [support, pointKeys] at hne
    | append_singleton rs r =>
      have h : IsGreatest (support ⟨[], rs ++ [r]⟩) r.2 := by
        have hg := isGreatest_coverage hl.ranges
        simpa only [support, pointKeys, List.not_mem_nil, false_and, exists_false,
          Set.ofPred_false, Set.empty_union] using hg
      have hkey : getMaxKey ⟨[], rs ++ [r]⟩ = toInt r.2 := by simp [getMaxKey]
      rwa [hkey, toInt_eq (hr h.1)]
  | append_singleton ps p =>
    cases rs using List.reverseRecOn with
    | nil =>
      have h : IsGreatest (support ⟨ps ++ [p], []⟩) p.sortKey := by
        simpa only [support, coverage_nil, Set.union_empty] using isGreatest_pointKeys hl.points
      have hkey : getMaxKey ⟨ps ++ [p], []⟩ = toInt p.sortKey := by simp [getMaxKey]
      rwa [hkey, toInt_eq (hr h.1)]
    | append_singleton rs r =>
      have h : IsGreatest (support ⟨ps ++ [p], rs ++ [r]⟩) (max p.sortKey r.2) :=
        (isGreatest_pointKeys hl.points).union (isGreatest_coverage hl.ranges)
      have hkey : getMaxKey ⟨ps ++ [p], rs ++ [r]⟩ = toInt (max p.sortKey r.2) := by
        simp [getMaxKey]
      rwa [hkey, toInt_eq (hr h.1)]

end EntryList

section Bounds

theorem rangeBounds_spec {rs : List (ℤ × ℤ)} (hne : rs ≠ [])
    (hrs : ∀ r ∈ rs, 0 ≤ r.1 ∧ 0 ≤ r.2) :
    ((∃ r ∈ rs, r.1 = (rangeBounds rs).1) ∧ ∀ r ∈ rs, (rangeBounds rs).1 ≤ r.1) ∧
      (∃ r ∈ rs, r.2 = (rangeBounds rs).2) ∧ ∀ r ∈ rs, r.2 ≤ (rangeBounds rs).2 := by
  induction rs using List.reverseRecOn with
  | nil => exact absurd rfl hne
  | append_singleton rs r ih =>
    have hfold : rangeBounds (rs ++ [r]) = noteBounds (rangeBounds rs) r.1 r.2 := by
      simp [rangeBounds]
    have hr := hrs r (by simp)
    rw [hfold]
    by_cases hempty : rs = []
    · subst hempty
      simp [rangeBounds, noteBounds]
    · obtain ⟨⟨⟨a, ha, hlo⟩, hmin⟩, ⟨b, hb, hhi⟩, hmax⟩ :=
        ih hempty fun s hs => hrs s (by simp [hs])
      have ha' := hrs a (by simp [ha])
      have hb' := hrs b (by simp [hb])
      have hlo' : (noteBounds (rangeBounds rs) r.1 r.2).1 = min (rangeBounds rs).1 r.1 := by
        simp only [noteBounds]
        split_ifs <;> omega
      have hhi' : (noteBounds (rangeBounds rs) r.1 r.2).2 = max (rangeBounds rs).2 r.2 := by
        simp only [noteBounds]
        split_ifs <;> omega
      rw [hlo', hhi']
      refine ⟨⟨?_, fun s hs => ?_⟩, ?_, fun s hs => ?_⟩
      · rcases min_choice (rangeBounds rs).1 r.1 with h | h
        · exact ⟨a, by simp [ha], by rw [h, hlo]⟩
        · exact ⟨r, by simp, h.symm⟩
      · rcases List.mem_append.mp hs with hs | hs
        · exact min_le_of_left_le (hmin s hs)
        · rw [List.mem_singleton.mp hs]
          exact min_le_right _ _
      · rcases max_choice (rangeBounds rs).2 r.2 with h | h
        · exact ⟨b, by simp [hb], by rw [h, hhi]⟩
        · exact ⟨r, by simp, h.symm⟩
      · rcases List.mem_append.mp hs with hs | hs
        · exact le_max_of_le_left (hmax s hs)
        · rw [List.mem_singleton.mp hs]
          exact le_max_right _ _

theorem pointBounds_eq (ps : List PointEntry) :
    pointBounds ps = rangeBounds (ps.map fun p => (p.sortKey, p.sortKey)) := by
  rw [pointBounds, rangeBounds, List.foldl_map]

theorem pointBounds_spec {ps : List PointEntry} (hne : ps ≠ []) (hps : ∀ p ∈ ps, 0 ≤ p.sortKey) :
    IsLeast (pointKeys ps) (pointBounds ps).1 ∧ IsGreatest (pointKeys ps) (pointBounds ps).2 := by
  obtain ⟨⟨⟨_, ha, hlo⟩, hmin⟩, ⟨_, hb, hhi⟩, hmax⟩ :=
    @rangeBounds_spec (ps.map fun p => (p.sortKey, p.sortKey)) (by simpa using hne)
      (by simpa using hps)
  rw [← pointBounds_eq] at hlo hmin hhi hmax
  obtain ⟨p, hp, rfl⟩ := List.mem_map.mp ha
  obtain ⟨q, hq, rfl⟩ := List.mem_map.mp hb
  refine ⟨⟨⟨p, hp, hlo⟩, ?_⟩, ⟨q, hq, hhi⟩, ?_⟩
  · rintro _ ⟨x, hx, rfl⟩
    exact hmin _ (List.mem_map_of_mem hx)
  · rintro _ ⟨x, hx, rfl⟩
    exact hmax _ (List.mem_map_of_mem hx)

theorem tileBounds_eq {ps : List PointEntry} (hasc : Ascending ps)
    (hps : ∀ p ∈ ps, 0 ≤ p.sortKey) : tileBounds ps = pointBounds ps := by
  induction ps using List.reverseRecOn with
  | nil => rfl
  | append_singleton ps p ih =>
    obtain ⟨hasc', _, hcross⟩ := List.pairwise_append.mp hasc
    have hps' : ∀ q ∈ ps, 0 ≤ q.sortKey := fun q hq => hps q (by simp [hq])
    have htile : tileBounds (ps ++ [p]) = noteTileBounds (tileBounds ps) p.sortKey := by
      simp [tileBounds]
    have hpoint : pointBounds (ps ++ [p]) = noteBounds (pointBounds ps) p.sortKey p.sortKey := by
      simp [pointBounds]
    rw [htile, hpoint, ih hasc' hps']
    by_cases hempty : ps = []
    · subst hempty
      simp [pointBounds, noteTileBounds, noteBounds]
    · obtain ⟨q, hq⟩ := List.exists_mem_of_ne_nil ps hempty
      have hlt := hcross q hq p (by simp)
      have hpos : 0 < p.sortKey := (hps' q hq).trans_lt hlt
      simp [noteTileBounds, noteBounds, hpos]

end Bounds

namespace SSTFile

variable {f : SSTFile}

theorem nonneg_of_inRange {l : EntryList} (h : l.InRange) : ∀ p ∈ l.points, 0 ≤ p.sortKey :=
  fun _ hp => (h (EntryList.mem_support_of_point hp)).1

theorem coverageBounds_spec {l : EntryList} (hl : l.Sorted) (hr : l.InRange) (hne : l.ranges ≠ []) :
    IsLeast (coverage l.ranges) (rangeBounds l.ranges).1 ∧
      IsGreatest (coverage l.ranges) (rangeBounds l.ranges).2 := by
  have hrs : ∀ r ∈ l.ranges, 0 ≤ r.1 ∧ r.1 ≤ r.2 := fun r h =>
    ⟨(hr (EntryList.start_mem_support hl h)).1, hl.ranges.valid r h⟩
  obtain ⟨⟨⟨a, ha, hlo⟩, hmin⟩, ⟨b, hb, hhi⟩, hmax⟩ :=
    rangeBounds_spec hne fun r h => ⟨(hrs r h).1, (hrs r h).1.trans (hrs r h).2⟩
  refine ⟨⟨⟨a, ha, hlo.le, hlo ▸ (hrs a ha).2⟩, ?_⟩, ⟨b, hb, hhi ▸ (hrs b hb).2, hhi.ge⟩, ?_⟩
  · rintro k ⟨s, hs, hsk, _⟩
    exact (hmin s hs).trans hsk
  · rintro k ⟨s, hs, _, hks⟩
    exact hks.trans (hmax s hs)

theorem key_bounds (hl : f.entries.Sorted) (hr : f.entries.InRange)
    (hne : f.entries.support.Nonempty) :
    IsLeast f.entries.support f.getSSTMinKey ∧ IsGreatest f.entries.support f.getSSTMaxKey := by
  have hp := fun h => pointBounds_spec h (nonneg_of_inRange hr)
  have hc := fun h => coverageBounds_spec hl hr h
  rw [getSSTMinKey, getSSTMaxKey, getMinSortKey, getMaxSortKey, getMinRangeKey, getMaxRangeKey]
  by_cases hpoints : f.entries.points = []
  · by_cases hranges : f.entries.ranges = []
    · simp [EntryList.support, hpoints, hranges, pointKeys] at hne
    · obtain ⟨hlo, hhi⟩ := hc hranges
      have hsupport : f.entries.support = coverage f.entries.ranges := by
        simp [EntryList.support, hpoints, pointKeys]
      rw [← hsupport] at hlo hhi
      have h₀ := (hr hlo.1).1
      have h₁ := (hr hhi.1).1
      rw [hpoints, if_neg (by omega), if_pos (by simp [pointBounds]), toInt_eq (hr hlo.1)]
      have hmax : max (pointBounds []).2 (rangeBounds f.entries.ranges).2 =
          (rangeBounds f.entries.ranges).2 := by
        simp only [pointBounds, List.foldl_nil]
        omega
      rw [hmax, toInt_eq (hr hhi.1)]
      exact ⟨hlo, hhi⟩
  · obtain ⟨hplo, hphi⟩ := hp hpoints
    have hsub : pointKeys f.entries.points ⊆ f.entries.support := Set.subset_union_left
    have h₀ := (hr (hsub hplo.1)).1
    have h₁ := (hr (hsub hphi.1)).1
    by_cases hranges : f.entries.ranges = []
    · have hsupport : f.entries.support = pointKeys f.entries.points := by
        simp [EntryList.support, hranges]
      rw [← hsupport] at hplo hphi
      rw [hranges, if_pos (by simp [rangeBounds]), toInt_eq (hr hplo.1)]
      have hmax : max (pointBounds f.entries.points).2 (rangeBounds []).2 =
          (pointBounds f.entries.points).2 := by
        simp only [rangeBounds, List.foldl_nil]
        omega
      rw [hmax, toInt_eq (hr hphi.1)]
      exact ⟨hplo, hphi⟩
    · obtain ⟨hclo, hchi⟩ := hc hranges
      have hlo := hplo.union hclo
      have hhi := hphi.union hchi
      have h₂ := (hr (Set.mem_union_right _ hclo.1)).1
      rw [if_neg (by omega), if_neg (by omega), toInt_eq (hr hlo.1), toInt_eq (hr hhi.1)]
      exact ⟨hlo, hhi⟩

end SSTFile

section Search

variable {key : ℤ}

theorem scan_eq_lookup {α : Type} {bounds : α → ℤ × ℤ} {search : α → Option Bytes}
    {content : α → List PointEntry} {cs : List α}
    (hsearch : ∀ c ∈ cs, search c = lookup key (content c))
    (hbounds : ∀ c ∈ cs, bounds c = pointBounds (content c))
    (hasc : Ascending (cs.flatMap content)) (hpos : ∀ p ∈ cs.flatMap content, 0 ≤ p.sortKey) :
    scan key bounds search cs = lookup key (cs.flatMap content) := by
  induction cs with
  | nil => rfl
  | cons c cs ih =>
    obtain ⟨hs, hsearch⟩ := List.forall_mem_cons.mp hsearch
    obtain ⟨hb, hbounds⟩ := List.forall_mem_cons.mp hbounds
    rw [List.flatMap_cons] at hasc hpos ⊢
    obtain ⟨_, hasc', hcross⟩ := List.pairwise_append.mp hasc
    have hpos' : ∀ p ∈ cs.flatMap content, 0 ≤ p.sortKey := fun p hp => hpos p (by simp_all)
    have hc : ∀ p ∈ content c, 0 ≤ p.sortKey := fun p hp => hpos p (by simp [hp])
    rw [scan, hb, hs, ih hsearch hbounds hasc' hpos', lookup_append]
    by_cases hempty : content c = []
    · rw [hempty, lookup_nil, Option.none_or, Option.elim_none]
      split_ifs with h₁
      · symm
        rw [lookup_eq_none_iff]
        rintro ⟨p, hp, rfl⟩
        have := hpos' p hp
        simp only [pointBounds, List.foldl_nil] at h₁
        omega
      · rfl
      · rfl
    · obtain ⟨hlo, hhi⟩ := pointBounds_spec hempty hc
      split_ifs with h₁ h₂
      · have h₃ : lookup key (content c) = none := by
          rw [lookup_eq_none_iff]
          exact fun h => absurd (hlo.2 h) (by omega)
        have h₄ : lookup key (cs.flatMap content) = none := by
          rw [lookup_eq_none_iff]
          rintro ⟨p, hp, rfl⟩
          obtain ⟨q, hq, hqlo⟩ := hlo.1
          have := hcross q hq p hp
          omega
        rw [h₃, h₄, Option.none_or]
      · have h₃ : lookup key (content c) = none := by
          rw [lookup_eq_none_iff]
          exact fun h => absurd (hhi.2 h) (by omega)
        rw [h₃, Option.none_or]
      · cases lookup key (content c) with
        | none => rfl
        | some v => rfl

theorem searchPages_eq {pages : List (List PointEntry)} (hasc : Ascending pages.flatten)
    (hpos : ∀ p ∈ pages.flatten, 0 ≤ p.sortKey) :
    searchPages key pages = lookup key pages.flatten := by
  rw [← List.flatMap_id] at hasc hpos ⊢
  exact scan_eq_lookup (fun _ _ => rfl) (fun _ _ => rfl) hasc hpos

theorem searchTiles_eq {tiles : List (List (List PointEntry))}
    (hasc : Ascending tiles.flatten.flatten) (hpos : ∀ p ∈ tiles.flatten.flatten, 0 ≤ p.sortKey) :
    searchTiles key tiles = lookup key tiles.flatten.flatten := by
  have hflat : tiles.flatten.flatten = tiles.flatMap List.flatten := by
    rw [List.flatten_flatten, List.flatMap_def]
  have hsub : ∀ t ∈ tiles, t.flatten.Sublist (tiles.flatMap List.flatten) := fun t ht => by
    rw [List.flatMap_def]
    exact List.sublist_flatten_of_mem (List.mem_map_of_mem ht)
  rw [hflat] at hasc hpos ⊢
  refine scan_eq_lookup (fun t ht => ?_) (fun t ht => ?_) hasc hpos
  · exact searchPages_eq (hasc.sublist (hsub t ht)) fun p hp => hpos p ((hsub t ht).subset hp)
  · exact tileBounds_eq (hasc.sublist (hsub t ht)) fun p hp => hpos p ((hsub t ht).subset hp)

theorem points_levelEntries (files : List SSTFile) :
    (levelEntries files).points = files.flatMap fun f => f.entries.points := by
  induction files with
  | nil => rfl
  | cons f fs ih => rw [levelEntries, EntryList.append, ih, List.flatMap_cons]

theorem searchFiles_eq {files : List SSTFile} (h : LevelOk files) :
    searchFiles key files = lookup key (levelEntries files).points := by
  have hasc := h.sorted_levelEntries.points
  have hpos := SSTFile.nonneg_of_inRange h.inRange_levelEntries
  rw [points_levelEntries] at hasc hpos ⊢
  refine scan_eq_lookup (fun f hf => ?_) (fun _ _ => rfl) hasc hpos
  exact searchTiles_eq (h.sorted f hf).points (SSTFile.nonneg_of_inRange (h.inRange f hf))

end Search

end Spry.Emulation
