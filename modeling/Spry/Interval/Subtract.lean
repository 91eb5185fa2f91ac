import Spry.Interval.Coalesce

/-!
# Subtracting a sorted list of boundaries from an ordered range list

`cut` walks one range along the boundaries, emits what lies outside of them and returns the
boundaries that may still meet a later range. `subtract` threads the boundaries through the
ranges, so each list is walked once.
-/

namespace HalfOpen

variable {K : Type*} [LinearOrder K]

def before (v : K × K) (k : K) : List (K × K) := if v.1 < k then [(v.1, k)] else []

@[simp] theorem coverage_before (v : K × K) (k : K) : coverage (before v k) = Set.Ico v.1 k := by
  by_cases h : v.1 < k
  · simp [before, h]
  · simp [before, h]

def cut : K × K → List (K × K) → List (K × K) × List (K × K)
  | v, [] => ([v], [])
  | v, b :: bs =>
    if v.2 ≤ b.1 then ([v], b :: bs)
    else if b.2 ≤ v.1 then cut v bs
    else if v.2 ≤ b.2 then (before v b.1, b :: bs)
    else (before v b.1 ++ (cut (b.2, v.2) bs).1, (cut (b.2, v.2) bs).2)

def subtract : List (K × K) → List (K × K) → List (K × K)
  | [], _ => []
  | r :: rs, bs => (cut r bs).1 ++ subtract rs (cut r bs).2

theorem coverage_cut (v : K × K) (bs : List (K × K)) (hbs : StartSorted bs) :
    coverage (cut v bs).1 = Set.Ico v.1 v.2 \ coverage bs := by
  induction bs generalizing v with
  | nil => simp [cut]
  | cons b bs ih =>
    obtain ⟨hb, hbs⟩ := List.pairwise_cons.mp hbs
    have hlow : ∀ k < b.1, k ∉ coverage bs := fun k hk =>
      notMem_coverage_of_lt (fun c hc => hk.trans_le (hb c hc))
    by_cases h₁ : v.2 ≤ b.1
    · have hnot : ∀ k ∈ Set.Ico v.1 v.2, k ∉ coverage (b :: bs) := by
        rintro k ⟨_, hk⟩
        have hkb := hk.trans_le h₁
        simp [hlow k hkb, hkb]
      rw [cut, if_pos h₁, coverage_cons, coverage_nil, Set.union_empty]
      exact (sdiff_eq_left.mpr (Set.disjoint_left.mpr hnot)).symm
    by_cases h₂ : b.2 ≤ v.1
    · rw [cut, if_neg h₁, if_pos h₂, ih v hbs]
      ext k
      simp only [coverage_cons, Set.mem_sdiff, Set.mem_Ico, Set.mem_union, not_or, not_and]
      constructor
      · rintro ⟨⟨hv₁, hv₂⟩, hk⟩
        exact ⟨⟨hv₁, hv₂⟩, fun _ => not_lt.mpr (h₂.trans hv₁), hk⟩
      · rintro ⟨hv, _, hk⟩
        exact ⟨hv, hk⟩
    by_cases h₃ : v.2 ≤ b.2
    · rw [cut, if_neg h₁, if_neg h₂, if_pos h₃, coverage_before]
      ext k
      simp only [coverage_cons, Set.mem_sdiff, Set.mem_Ico, Set.mem_union, not_or, not_and]
      constructor
      · rintro ⟨hv, hk⟩
        exact ⟨⟨hv, hk.trans (not_le.mp h₁)⟩, fun hle => absurd hk (not_lt.mpr hle), hlow k hk⟩
      · rintro ⟨⟨hv₁, hv₂⟩, hk, _⟩
        exact ⟨hv₁, not_le.mp fun hle => hk hle (hv₂.trans_le h₃)⟩
    · rw [cut, if_neg h₁, if_neg h₂, if_neg h₃, coverage_append, coverage_before, ih _ hbs]
      ext k
      simp only [coverage_cons, Set.mem_sdiff, Set.mem_Ico, Set.mem_union, not_or, not_and]
      constructor
      · rintro (⟨hv, hk⟩ | ⟨⟨hk₁, hk₂⟩, hk⟩)
        · exact ⟨⟨hv, hk.trans (not_le.mp h₁)⟩, fun hle => absurd hk (not_lt.mpr hle), hlow k hk⟩
        · exact ⟨⟨(not_le.mp h₂).le.trans hk₁, hk₂⟩, fun _ => not_lt.mpr hk₁, hk⟩
      · rintro ⟨⟨hv₁, hv₂⟩, hk, hk'⟩
        by_cases hkb : k < b.1
        · exact Or.inl ⟨hv₁, hkb⟩
        · exact Or.inr ⟨⟨not_lt.mp (hk (not_lt.mp hkb)), hv₂⟩, hk'⟩

/-- The boundaries dropped on the way end no later than the range, so they are irrelevant to
every key from its end on. -/
theorem mem_coverage_cut_rest (v : K × K) (bs : List (K × K)) (hv : v.1 < v.2) {k : K}
    (hk : v.2 ≤ k) : k ∈ coverage (cut v bs).2 ↔ k ∈ coverage bs := by
  induction bs generalizing v with
  | nil => rfl
  | cons b bs ih =>
    by_cases h₁ : v.2 ≤ b.1
    · rw [cut, if_pos h₁]
    by_cases h₂ : b.2 ≤ v.1
    · have hb : ¬ k < b.2 := not_lt.mpr (h₂.trans (hv.le.trans hk))
      rw [cut, if_neg h₁, if_pos h₂, ih v hv hk]
      simp [hb]
    by_cases h₃ : v.2 ≤ b.2
    · rw [cut, if_neg h₁, if_neg h₂, if_pos h₃]
    · have hb : ¬ k < b.2 := not_lt.mpr ((not_le.mp h₃).le.trans hk)
      rw [cut, if_neg h₁, if_neg h₂, if_neg h₃, ih (b.2, v.2) (not_le.mp h₃) hk]
      simp [hb]

theorem cut_rest_suffix (v : K × K) (bs : List (K × K)) : (cut v bs).2 <:+ bs := by
  induction bs generalizing v with
  | nil => exact List.suffix_rfl
  | cons b bs ih =>
    simp only [cut]
    split_ifs
    · exact List.suffix_rfl
    · exact (ih v).trans (List.suffix_cons _ _)
    · exact List.suffix_rfl
    · exact (ih _).trans (List.suffix_cons _ _)

theorem ordered_cut (v : K × K) (bs : List (K × K)) (hv : v.1 < v.2) (hbs : StartSorted bs)
    (hwf : ∀ b ∈ bs, b.1 ≤ b.2) :
    Ordered (cut v bs).1 ∧ ∀ p ∈ (cut v bs).1, v.1 ≤ p.1 ∧ p.2 ≤ v.2 := by
  induction bs generalizing v with
  | nil => simp [cut, Ordered.cons_iff, Ordered.nil, hv]
  | cons b bs ih =>
    obtain ⟨_, hbs⟩ := List.pairwise_cons.mp hbs
    have hwf' : ∀ c ∈ bs, c.1 ≤ c.2 := fun c hc => hwf c (by simp [hc])
    have hleft : Ordered (before v b.1) ∧ ∀ p ∈ before v b.1, v.1 ≤ p.1 ∧ p.2 ≤ b.1 := by
      by_cases h : v.1 < b.1 <;> simp [before, h, Ordered.cons_iff, Ordered.nil]
    by_cases h₁ : v.2 ≤ b.1
    · simp [cut, h₁, Ordered.cons_iff, Ordered.nil, hv]
    by_cases h₂ : b.2 ≤ v.1
    · simpa only [cut, if_neg h₁, if_pos h₂] using ih v hv hbs hwf'
    by_cases h₃ : v.2 ≤ b.2
    · rw [cut, if_neg h₁, if_neg h₂, if_pos h₃]
      exact ⟨hleft.1, fun p hp => ⟨(hleft.2 p hp).1, (hleft.2 p hp).2.trans (not_le.mp h₁).le⟩⟩
    · obtain ⟨hord, hin⟩ := ih (b.2, v.2) (not_le.mp h₃) hbs hwf'
      rw [cut, if_neg h₁, if_neg h₂, if_neg h₃]
      refine ⟨hleft.1.append hord ?_, ?_⟩
      · intro p hp q hq
        exact ((hleft.2 p hp).2.trans (hwf b (by simp))).trans (hin q hq).1
      · intro p hp
        rcases List.mem_append.mp hp with hp | hp
        · exact ⟨(hleft.2 p hp).1, (hleft.2 p hp).2.trans (not_le.mp h₁).le⟩
        · exact ⟨(not_le.mp h₂).le.trans (hin p hp).1, (hin p hp).2⟩

theorem coverage_subtract {rs bs : List (K × K)} (hrs : Ordered rs) (hbs : StartSorted bs) :
    coverage (subtract rs bs) = coverage rs \ coverage bs := by
  induction rs generalizing bs with
  | nil => simp [subtract]
  | cons r rs ih =>
    obtain ⟨hr, hlt, hrs⟩ := Ordered.cons_iff.mp hrs
    have hrest : StartSorted (cut r bs).2 := hbs.sublist (cut_rest_suffix r bs).sublist
    rw [subtract, coverage_append, coverage_cut r bs hbs, ih hrs hrest, coverage_cons,
      Set.union_sdiff_distrib]
    congr 1
    ext k
    refine and_congr_right fun hk => not_congr ?_
    obtain ⟨s, hs, hsk, _⟩ := hk
    exact mem_coverage_cut_rest r bs hr ((hlt s hs).trans hsk)

theorem ordered_subtract {rs bs : List (K × K)} (hrs : Ordered rs) (hbs : StartSorted bs)
    (hwf : ∀ b ∈ bs, b.1 ≤ b.2) :
    Ordered (subtract rs bs) ∧ ∀ k, (∀ r ∈ rs, k ≤ r.1) → ∀ p ∈ subtract rs bs, k ≤ p.1 := by
  induction rs generalizing bs with
  | nil => simp [subtract, Ordered.nil]
  | cons r rs ih =>
    obtain ⟨hr, hlt, hrs⟩ := Ordered.cons_iff.mp hrs
    have hsuf := cut_rest_suffix r bs
    obtain ⟨hcut, hin⟩ := ordered_cut r bs hr hbs hwf
    obtain ⟨htail, hlow⟩ := ih hrs (hbs.sublist hsuf.sublist)
      (fun b hb => hwf b (hsuf.subset hb))
    refine ⟨hcut.append htail ?_, ?_⟩
    · intro p hp q hq
      exact (hin p hp).2.trans (hlow r.2 hlt q hq)
    · intro k hk p hp
      rcases List.mem_append.mp hp with hp | hp
      · exact (hk r (by simp)).trans (hin p hp).1
      · exact hlow k (fun s hs => hk s (by simp [hs])) p hp

end HalfOpen
