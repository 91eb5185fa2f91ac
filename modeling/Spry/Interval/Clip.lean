import Spry.Interval.Coalesce

/-!
# Clipping an ordered range list by a list of boundaries

One pass over the boundaries with a start position in the ranges that only moves forward: the
ranges that end before a boundary are skipped for good, the ones that start inside of it or
before it are emitted clipped.
-/

namespace HalfOpen

variable {K : Type*} [LinearOrder K]

def clipOne (rs : List (K × K)) (b : K × K) : List (K × K) :=
  (rs.takeWhile (fun r => r.1 < b.2)).map (fun r => (max r.1 b.1, min r.2 b.2))

def clip : List (K × K) → List (K × K) → List (K × K)
  | _, [] => []
  | rs, b :: bs =>
    if b.1 = b.2 then clip rs bs
    else
      let rs' := rs.dropWhile (fun r => r.2 ≤ b.1)
      clipOne rs' b ++ clip rs' bs

namespace WeaklyOrdered

variable {rs : List (K × K)}

theorem endSorted (h : WeaklyOrdered rs) : rs.Pairwise (fun a b => a.2 ≤ b.2) := by
  refine h.disjoint.imp_of_mem ?_
  intro a b _ hb hab
  exact hab.trans (h.le b hb)

theorem mem_dropWhile_end (h : WeaklyOrdered rs) {k : K} {r : K × K} :
    r ∈ rs.dropWhile (fun r => r.2 ≤ k) ↔ r ∈ rs ∧ k < r.2 := by
  rw [mem_dropWhile_iff]
  · simp
  · exact h.endSorted.imp fun hab hb => by simpa using hab.trans (by simpa using hb)

theorem mem_coverage_dropWhile_end (h : WeaklyOrdered rs) {k k' : K} (hk : k ≤ k') :
    k' ∈ coverage (rs.dropWhile (fun r => r.2 ≤ k)) ↔ k' ∈ coverage rs := by
  simp only [mem_coverage, h.mem_dropWhile_end]
  constructor
  · rintro ⟨r, ⟨hr, _⟩, hlo, hhi⟩
    exact ⟨r, hr, hlo, hhi⟩
  · rintro ⟨r, hr, hlo, hhi⟩
    exact ⟨r, ⟨hr, hk.trans_lt hhi⟩, hlo, hhi⟩

end WeaklyOrdered

namespace Ordered

variable {rs : List (K × K)}

theorem mem_dropWhile_end (h : Ordered rs) {k : K} {r : K × K} :
    r ∈ rs.dropWhile (fun r => r.2 ≤ k) ↔ r ∈ rs ∧ k < r.2 :=
  h.weaklyOrdered.mem_dropWhile_end

theorem mem_coverage_dropWhile_end (h : Ordered rs) {k k' : K} (hk : k ≤ k') :
    k' ∈ coverage (rs.dropWhile (fun r => r.2 ≤ k)) ↔ k' ∈ coverage rs :=
  h.weaklyOrdered.mem_coverage_dropWhile_end hk

theorem mem_takeWhile_start (h : Ordered rs) {k : K} {r : K × K} :
    r ∈ rs.takeWhile (fun r => r.1 < k) ↔ r ∈ rs ∧ r.1 < k := by
  rw [mem_takeWhile_iff]
  · simp
  · exact h.startSorted.imp fun hab hb => by simpa using hab.trans_lt (by simpa using hb)

end Ordered

theorem clip_nil_left (bs : List (K × K)) : clip [] bs = [] := by
  induction bs with
  | nil => rfl
  | cons b bs ih => simp [clip, clipOne, ih]

theorem coverage_clipOne {rs : List (K × K)} (hrs : Ordered rs) (b : K × K) :
    coverage (clipOne rs b) = coverage rs ∩ Set.Ico b.1 b.2 := by
  ext k
  simp only [clipOne, mem_coverage, List.mem_map, Set.mem_inter_iff, Set.mem_Ico]
  constructor
  · rintro ⟨_, ⟨r, hr, rfl⟩, hlo, hhi⟩
    rw [max_le_iff] at hlo
    rw [lt_min_iff] at hhi
    exact ⟨⟨r, (hrs.mem_takeWhile_start.mp hr).1, hlo.1, hhi.1⟩, hlo.2, hhi.2⟩
  · rintro ⟨⟨r, hr, hlo, hhi⟩, hb₁, hb₂⟩
    exact ⟨_, ⟨r, hrs.mem_takeWhile_start.mpr ⟨hr, hlo.trans_lt hb₂⟩, rfl⟩,
      max_le hlo hb₁, lt_min hhi hb₂⟩

theorem ordered_clipOne {rs : List (K × K)} (hrs : Ordered rs) (b : K × K) (hb : b.1 < b.2)
    (hend : ∀ r ∈ rs, b.1 < r.2) :
    Ordered (clipOne rs b) ∧ ∀ p ∈ clipOne rs b, b.1 ≤ p.1 ∧ p.2 ≤ b.2 := by
  refine ⟨⟨?_, ?_⟩, ?_⟩
  · intro p hp
    obtain ⟨r, hr, rfl⟩ := List.mem_map.mp hp
    obtain ⟨hr, hrb⟩ := hrs.mem_takeWhile_start.mp hr
    exact max_lt (lt_min (hrs.nonempty r hr) hrb) (lt_min (hend r hr) hb)
  · refine (hrs.disjoint.sublist (List.takeWhile_sublist _)).map _ ?_
    intro a c hac
    exact (min_le_left _ _).trans (hac.trans (le_max_left _ _))
  · intro p hp
    obtain ⟨r, _, rfl⟩ := List.mem_map.mp hp
    exact ⟨le_max_right _ _, min_le_right _ _⟩

theorem nonempty_clip {rs bs : List (K × K)} (hrs : Ordered rs) (hwf : ∀ b ∈ bs, b.1 ≤ b.2) :
    ∀ p ∈ clip rs bs, p.1 < p.2 := by
  induction bs generalizing rs with
  | nil => simp [clip]
  | cons b bs ih =>
    have hwf' : ∀ c ∈ bs, c.1 ≤ c.2 := fun c hc => hwf c (by simp [hc])
    by_cases heq : b.1 = b.2
    · rw [clip, if_pos heq]
      exact ih hrs hwf'
    · have hrs' : Ordered (rs.dropWhile (fun r => r.2 ≤ b.1)) :=
        hrs.sublist (List.dropWhile_sublist _)
      have hone := (ordered_clipOne hrs' b (lt_of_le_of_ne (hwf b (by simp)) heq)
        (fun r hr => (hrs.mem_dropWhile_end.mp hr).2)).1
      intro p hp
      rw [clip, if_neg heq] at hp
      cases List.mem_append.mp hp with
      | inl hp => exact hone.nonempty p hp
      | inr hp => exact ih hrs' hwf' p hp

theorem coverage_clip {rs bs : List (K × K)} (hrs : Ordered rs)
    (hbs : bs.Pairwise (fun a b => a.2 ≤ b.1)) (hwf : ∀ b ∈ bs, b.1 ≤ b.2) :
    coverage (clip rs bs) = coverage rs ∩ coverage bs := by
  induction bs generalizing rs with
  | nil => simp [clip]
  | cons b bs ih =>
    obtain ⟨hb, hbs⟩ := List.pairwise_cons.mp hbs
    have hwf' : ∀ c ∈ bs, c.1 ≤ c.2 := fun c hc => hwf c (by simp [hc])
    by_cases heq : b.1 = b.2
    · rw [clip, if_pos heq, ih hrs hbs hwf', coverage_cons, heq, Set.Ico_self, Set.empty_union]
    · let rs' := rs.dropWhile (fun r => r.2 ≤ b.1)
      have hrs' : Ordered rs' := hrs.sublist (List.dropWhile_sublist _)
      have hlow : ∀ k ∈ coverage bs, b.1 ≤ k := by
        rintro k ⟨c, hc, hlo, _⟩
        exact ((hwf b (by simp)).trans (hb c hc)).trans hlo
      rw [clip, if_neg heq, coverage_append, coverage_clipOne hrs' b, ih hrs' hbs hwf',
        coverage_cons, Set.inter_union_distrib_left]
      congr 1
      · ext k
        exact and_congr_left fun hk => hrs.mem_coverage_dropWhile_end hk.1
      · ext k
        exact and_congr_left fun hk => hrs.mem_coverage_dropWhile_end (hlow k hk)

theorem ordered_clip {rs bs : List (K × K)} (hrs : Ordered rs)
    (hbs : bs.Pairwise (fun a b => a.2 ≤ b.1)) (hwf : ∀ b ∈ bs, b.1 ≤ b.2) :
    Ordered (clip rs bs) ∧ ∀ k, (∀ b ∈ bs, k ≤ b.1) → ∀ p ∈ clip rs bs, k ≤ p.1 := by
  induction bs generalizing rs with
  | nil => simp [clip, Ordered.nil]
  | cons b bs ih =>
    obtain ⟨hb, hbs⟩ := List.pairwise_cons.mp hbs
    have hwf' : ∀ c ∈ bs, c.1 ≤ c.2 := fun c hc => hwf c (by simp [hc])
    by_cases heq : b.1 = b.2
    · rw [clip, if_pos heq]
      obtain ⟨hord, hlow⟩ := ih hrs hbs hwf'
      exact ⟨hord, fun k hk => hlow k fun c hc => hk c (by simp [hc])⟩
    · rw [clip, if_neg heq]
      have hrs' : Ordered (rs.dropWhile (fun r => r.2 ≤ b.1)) :=
        hrs.sublist (List.dropWhile_sublist _)
      obtain ⟨hone, hin⟩ := ordered_clipOne hrs' b (lt_of_le_of_ne (hwf b (by simp)) heq)
        (fun r hr => (hrs.mem_dropWhile_end.mp hr).2)
      obtain ⟨hord, hlow⟩ := ih hrs' hbs hwf'
      refine ⟨hone.append hord fun p hp q hq => (hin p hp).2.trans (hlow b.2 hb q hq), ?_⟩
      intro k hk p hp
      rcases List.mem_append.mp hp with hp | hp
      · exact (hk b (by simp)).trans (hin p hp).1
      · exact hlow k (fun c hc => hk c (by simp [hc])) p hp

end HalfOpen
