import Spry.Interval.Closed

/-!
# Subtracting ranges and keys from an ordered list of closed ranges

`cut` walks one range along the ranges to remove and returns the ones that may still meet a
later range, and `subtract` threads them through the list. `pierce` and `puncture` do the same
with single keys.
-/

namespace ClosedRange

open HalfOpen (StartSorted)

def cut : ℤ × ℤ → List (ℤ × ℤ) → List (ℤ × ℤ) × List (ℤ × ℤ)
  | v, [] => ([v], [])
  | v, d :: ds =>
    if d.2 < v.1 then cut v ds
    else if v.2 < d.1 then ([v], d :: ds)
    else if v.1 = d.1 ∧ v.2 = d.2 then ([], ds)
    else if v.1 < d.1 ∧ v.2 ≤ d.2 then ([(v.1, d.1 - 1)], d :: ds)
    else if d.1 ≤ v.1 ∧ v.2 ≤ d.2 then ([], d :: ds)
    else if d.1 ≤ v.1 ∧ d.2 < v.2 then cut (d.2 + 1, v.2) ds
    else ((v.1, d.1 - 1) :: (cut (d.2 + 1, v.2) ds).1, (cut (d.2 + 1, v.2) ds).2)

def subtract : List (ℤ × ℤ) → List (ℤ × ℤ) → List (ℤ × ℤ)
  | [], _ => []
  | r :: rs, ds => (cut r ds).1 ++ subtract rs (cut r ds).2

/-- What cutting one range leaves: its uncovered part in order, inside of the range, and enough
of the removed ranges for every key behind it. -/
structure Cuts (v : ℤ × ℤ) (ds : List (ℤ × ℤ)) (out : List (ℤ × ℤ) × List (ℤ × ℤ)) : Prop where
  coverage_eq : coverage out.1 = Set.Icc v.1 v.2 \ coverage ds
  ordered : Ordered out.1
  inside : ∀ p ∈ out.1, v.1 ≤ p.1 ∧ p.2 ≤ v.2
  rest : Ordered out.2
  rest_iff : ∀ k, v.2 < k → (k ∈ coverage out.2 ↔ k ∈ coverage ds)

section Cut

variable {v d : ℤ × ℤ} {ds : List (ℤ × ℤ)} {out : List (ℤ × ℤ) × List (ℤ × ℤ)}

theorem mem_coverage_cons_of_lt {k : ℤ} (h : d.2 < k) :
    k ∈ coverage (d :: ds) ↔ k ∈ coverage ds := by
  rw [coverage_cons, Set.mem_union, Set.mem_Icc]
  exact ⟨fun hk => hk.resolve_left (by omega), Or.inr⟩

theorem mem_coverage_cons_of_le (hds : Ordered (d :: ds)) {k : ℤ} (h : k ≤ d.2) :
    k ∈ coverage (d :: ds) ↔ d.1 ≤ k := by
  obtain ⟨_, hlt, _⟩ := Ordered.cons_iff.mp hds
  have hnot : k ∉ coverage ds := notMem_coverage_of_lt fun c hc => h.trans_lt (hlt c hc)
  rw [coverage_cons, Set.mem_union, or_iff_left hnot, Set.mem_Icc, and_iff_left h]

theorem ordered_singleton (h : v.1 ≤ v.2) : Ordered [v] :=
  Ordered.cons_iff.mpr ⟨h, by simp, Ordered.nil⟩

theorem Cuts.pass (h : Cuts v ds out) (hd : d.2 < v.1) (hv : v.1 ≤ v.2) :
    Cuts v (d :: ds) out := by
  refine ⟨?_, h.ordered, h.inside, h.rest, fun k hk => ?_⟩
  · rw [h.coverage_eq]
    ext k
    refine and_congr_right fun hk => not_congr (mem_coverage_cons_of_lt ?_).symm
    have := (Set.mem_Icc.mp hk).1
    omega
  · rw [h.rest_iff k hk, mem_coverage_cons_of_lt (by omega)]

theorem cuts_before (hv : v.1 ≤ v.2) (hds : Ordered (d :: ds)) (hd : v.2 < d.1) :
    Cuts v (d :: ds) ([v], d :: ds) := by
  refine ⟨?_, ordered_singleton hv, by simp, hds, fun _ _ => Iff.rfl⟩
  have hvalid := hds.valid d (by simp)
  rw [coverage_cons, coverage_nil, Set.union_empty]
  ext k
  refine ⟨fun hk => ⟨hk, ?_⟩, And.left⟩
  obtain ⟨_, hkv⟩ := Set.mem_Icc.mp hk
  rw [mem_coverage_cons_of_le hds (by omega)]
  omega

theorem coverage_inside (hds : Ordered (d :: ds)) (h₁ : d.1 ≤ v.1) (h₂ : v.2 ≤ d.2) :
    coverage [] = Set.Icc v.1 v.2 \ coverage (d :: ds) := by
  rw [coverage_nil]
  ext k
  refine ⟨fun hk => absurd hk (Set.notMem_empty k), fun ⟨hk, hn⟩ => ?_⟩
  obtain ⟨hvk, hkv⟩ := Set.mem_Icc.mp hk
  rw [mem_coverage_cons_of_le hds (by omega)] at hn
  omega

theorem cuts_front (hds : Ordered (d :: ds)) (h₁ : v.1 < d.1) (h₂ : d.1 ≤ v.2) (h₃ : v.2 ≤ d.2) :
    Cuts v (d :: ds) ([(v.1, d.1 - 1)], d :: ds) := by
  refine ⟨?_, ordered_singleton (by simp only; omega), by simp; omega, hds, fun _ _ => Iff.rfl⟩
  rw [coverage_cons, coverage_nil, Set.union_empty]
  ext k
  rw [Set.mem_sdiff, Set.mem_Icc, Set.mem_Icc]
  constructor
  · intro hk
    rw [mem_coverage_cons_of_le hds (by omega)]
    omega
  · rintro ⟨hk, hn⟩
    rw [mem_coverage_cons_of_le hds (by omega)] at hn
    omega

/-- What is left of `v` behind the range to remove is cut further. -/
theorem coverage_behind (hcov : coverage out.1 = Set.Icc (d.2 + 1) v.2 \ coverage ds) {k : ℤ} :
    k ∈ coverage out.1 ↔ d.2 < k ∧ k ≤ v.2 ∧ k ∉ coverage (d :: ds) := by
  rw [hcov, Set.mem_sdiff, Set.mem_Icc, Int.add_one_le_iff, and_assoc]
  refine and_congr_right fun hk => and_congr_right fun _ => not_congr ?_
  exact (mem_coverage_cons_of_lt hk).symm

theorem Cuts.behind (h : Cuts (d.2 + 1, v.2) ds out) (hds : Ordered (d :: ds)) (h₁ : d.1 ≤ v.1)
    (h₂ : v.1 ≤ d.2) (h₃ : d.2 < v.2) : Cuts v (d :: ds) out := by
  refine ⟨?_, h.ordered, fun p hp => ?_, h.rest, fun k hk => ?_⟩
  · ext k
    rw [coverage_behind h.coverage_eq, Set.mem_sdiff, Set.mem_Icc]
    constructor
    · rintro ⟨hdk, hkv, hn⟩
      exact ⟨by omega, hn⟩
    · rintro ⟨hk, hn⟩
      have hdk : ¬ k ≤ d.2 := fun hkd => hn ((mem_coverage_cons_of_le hds hkd).mpr (by omega))
      exact ⟨by omega, hk.2, hn⟩
  · have := h.inside p hp
    simp only at this
    omega
  · rw [h.rest_iff k hk, mem_coverage_cons_of_lt (by omega)]

theorem Cuts.around (h : Cuts (d.2 + 1, v.2) ds out) (hds : Ordered (d :: ds)) (h₁ : v.1 < d.1)
    (h₂ : d.2 < v.2) : Cuts v (d :: ds) ((v.1, d.1 - 1) :: out.1, out.2) := by
  have hvalid := hds.valid d (by simp)
  refine ⟨?_, ?_, ?_, h.rest, fun k hk => ?_⟩
  · ext k
    rw [coverage_cons, Set.mem_union, coverage_behind h.coverage_eq, Set.mem_sdiff, Set.mem_Icc,
      Set.mem_Icc]
    by_cases hkd : k ≤ d.2
    · rw [mem_coverage_cons_of_le hds hkd]
      omega
    · constructor
      · rintro (hk | ⟨_, hkv, hn⟩)
        · omega
        · exact ⟨by omega, hn⟩
      · rintro ⟨hk, hn⟩
        exact Or.inr ⟨by omega, hk.2, hn⟩
  · refine Ordered.cons_iff.mpr ⟨by simp only; omega, fun p hp => ?_, h.ordered⟩
    have := (h.inside p hp).1
    simp only at this ⊢
    omega
  · refine List.forall_mem_cons.mpr ⟨⟨le_rfl, by simp only; omega⟩, fun p hp => ?_⟩
    have := h.inside p hp
    simp only at this
    omega
  · rw [h.rest_iff k hk, mem_coverage_cons_of_lt (by omega)]

end Cut

theorem cuts_cut {v : ℤ × ℤ} {ds : List (ℤ × ℤ)} (hv : v.1 ≤ v.2) (hds : Ordered ds) :
    Cuts v ds (cut v ds) := by
  induction ds generalizing v with
  | nil => exact ⟨by simp [cut], ordered_singleton hv, by simp [cut], Ordered.nil, by simp [cut]⟩
  | cons d ds ih =>
    obtain ⟨_, _, hrest⟩ := Ordered.cons_iff.mp hds
    rw [cut]
    split_ifs with h₁ h₂ h₃ h₄ h₅ h₆
    · exact (ih hv hrest).pass h₁ hv
    · exact cuts_before hv hds h₂
    · refine ⟨coverage_inside hds (by omega) (by omega), Ordered.nil, by simp, hrest, ?_⟩
      exact fun k hk => (mem_coverage_cons_of_lt (by omega)).symm
    · exact cuts_front hds h₄.1 (by omega) h₄.2
    · exact ⟨coverage_inside hds h₅.1 h₅.2, Ordered.nil, by simp, hds, fun _ _ => Iff.rfl⟩
    · have hbehind := ih (v := (d.2 + 1, v.2)) (by simp only; omega) hrest
      exact hbehind.behind hds h₆.1 (by omega) h₆.2
    · have hbehind := ih (v := (d.2 + 1, v.2)) (by simp only; omega) hrest
      exact hbehind.around hds (by omega) (by omega)

theorem subtract_spec {rs ds : List (ℤ × ℤ)} (hrs : Ordered rs) (hds : Ordered ds) :
    coverage (subtract rs ds) = coverage rs \ coverage ds ∧ Ordered (subtract rs ds) ∧
      ∀ k, (∀ r ∈ rs, k < r.1) → ∀ p ∈ subtract rs ds, k < p.1 := by
  induction rs generalizing ds with
  | nil => exact ⟨by simp [subtract], Ordered.nil, by simp [subtract]⟩
  | cons r rs ih =>
    obtain ⟨hr, hlt, hrs⟩ := Ordered.cons_iff.mp hrs
    obtain ⟨hcov, hord, hin, hrest, hiff⟩ := cuts_cut hr hds
    obtain ⟨hcov', hord', hlow⟩ := ih hrs hrest
    refine ⟨?_, Ordered.append_iff.mpr ⟨hord, hord', ?_⟩, ?_⟩
    · rw [subtract, coverage_append, hcov, hcov', coverage_cons, Set.union_sdiff_distrib]
      congr 1
      ext k
      refine and_congr_right fun hk => not_congr ?_
      obtain ⟨s, hs, hsk, _⟩ := hk
      exact hiff k ((hlt s hs).trans_le hsk)
    · intro p hp q hq
      exact (hin p hp).2.trans_lt (hlow r.2 hlt q hq)
    · intro k hk p hp
      rcases List.mem_append.mp hp with hp | hp
      · exact (hk r (by simp)).trans_le (hin p hp).1
      · exact hlow k (fun s hs => hk s (by simp [hs])) p hp

def pierce : ℤ × ℤ → List ℤ → List (ℤ × ℤ) × List ℤ
  | r, [] => ([r], [])
  | r, k :: ks =>
    if k < r.1 then pierce r ks
    else if r.2 < k then ([r], k :: ks)
    else if k = r.1 ∧ k = r.2 then ([], ks)
    else if k = r.1 then pierce (k + 1, r.2) ks
    else if k = r.2 then ([(r.1, r.2 - 1)], k :: ks)
    else ((r.1, k - 1) :: (pierce (k + 1, r.2) ks).1, (pierce (k + 1, r.2) ks).2)

def puncture : List (ℤ × ℤ) → List ℤ → List (ℤ × ℤ)
  | [], _ => []
  | r :: rs, ks => (pierce r ks).1 ++ puncture rs (pierce r ks).2

theorem cut_map_single (r : ℤ × ℤ) (ks : List ℤ) :
    cut r (ks.map fun k => (k, k)) = ((pierce r ks).1, (pierce r ks).2.map fun k => (k, k)) := by
  induction ks generalizing r with
  | nil => rfl
  | cons k ks ih =>
    rw [List.map_cons, pierce]
    split_ifs with h₁ h₂ h₃ h₄ h₅
    · rw [cut, if_pos h₁, ih]
    · rw [cut, if_neg h₁, if_pos h₂, List.map_cons]
    · rw [cut, if_neg h₁, if_neg h₂, if_pos ⟨h₃.1.symm, h₃.2.symm⟩]
    · have hin : k < r.2 := by omega
      rw [cut, if_neg h₁, if_neg h₂, if_neg fun h => hin.ne h.2.symm,
        if_neg fun h => hin.not_ge h.2, if_neg fun h => hin.not_ge h.2,
        if_pos ⟨h₄.le, hin⟩, ih]
    · have hin : r.1 < k := by omega
      rw [cut, if_neg h₁, if_neg h₂, if_neg fun h => hin.ne h.1, if_pos ⟨hin, h₅.ge⟩,
        List.map_cons, h₅]
    · have hin : r.1 < k ∧ k < r.2 := by omega
      rw [cut, if_neg h₁, if_neg h₂, if_neg fun h => hin.1.ne h.1,
        if_neg fun h => hin.2.not_ge h.2, if_neg fun h => hin.1.not_ge h.1,
        if_neg fun h => hin.1.not_ge h.1, ih]

theorem subtract_map_single (rs : List (ℤ × ℤ)) (ks : List ℤ) :
    subtract rs (ks.map fun k => (k, k)) = puncture rs ks := by
  induction rs generalizing ks with
  | nil => rfl
  | cons r rs ih => rw [subtract, cut_map_single, puncture, ih]

theorem pierce_of_notMem {r : ℤ × ℤ} {ks : List ℤ} (hks : ∀ k ∈ ks, k ∉ Set.Icc r.1 r.2) :
    (pierce r ks).1 = [r] ∧ ∀ k ∈ (pierce r ks).2, k ∈ ks := by
  induction ks with
  | nil => exact ⟨rfl, fun _ hk => hk⟩
  | cons k ks ih =>
    obtain ⟨hk, hks⟩ := List.forall_mem_cons.mp hks
    obtain ⟨hone, hrest⟩ := ih hks
    by_cases hbefore : k < r.1
    · rw [pierce, if_pos hbefore]
      exact ⟨hone, fun x hx => List.mem_cons_of_mem k (hrest x hx)⟩
    · have hbehind : r.2 < k := not_le.mp fun hle => hk ⟨not_lt.mp hbefore, hle⟩
      rw [pierce, if_neg hbefore, if_pos hbehind]
      exact ⟨rfl, fun _ hx => hx⟩

theorem puncture_of_notMem {rs : List (ℤ × ℤ)} {ks : List ℤ} (hks : ∀ k ∈ ks, k ∉ coverage rs) :
    puncture rs ks = rs := by
  induction rs generalizing ks with
  | nil => rfl
  | cons r rs ih =>
    obtain ⟨hone, hrest⟩ := pierce_of_notMem fun k hk hin =>
      hks k hk (by rw [coverage_cons]; exact Or.inl hin)
    rw [puncture, hone, ih fun k hk hin => ?_, List.singleton_append]
    exact hks k (hrest k hk) (by rw [coverage_cons]; exact Or.inr hin)

theorem puncture_spec {rs : List (ℤ × ℤ)} {ks : List ℤ} (hrs : Ordered rs)
    (hks : ks.Pairwise (· < ·)) :
    coverage (puncture rs ks) = coverage rs \ {k | k ∈ ks} ∧ Ordered (puncture rs ks) := by
  have hsingle : Ordered (ks.map fun k => (k, k)) :=
    ⟨by simp, List.pairwise_map.mpr hks⟩
  have hcov : coverage (ks.map fun k => (k, k)) = {k | k ∈ ks} := by
    ext k
    simp only [mem_coverage, List.mem_map, exists_exists_and_eq_and, Set.mem_ofPred_eq]
    constructor
    · rintro ⟨a, ha, hle, hge⟩
      rwa [← le_antisymm hle hge]
    · exact fun hk => ⟨k, hk, le_rfl, le_rfl⟩
  obtain ⟨hsub, hord, _⟩ := subtract_spec hrs hsingle
  rw [subtract_map_single] at hsub hord
  exact ⟨by rw [hsub, hcov], hord⟩

end ClosedRange
