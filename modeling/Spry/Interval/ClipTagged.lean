import Spry.Interval.Clip

/-!
# The pieces of each boundary

Clipping by boundaries that carry a tag, and a second pass that moves its start position past the
ranges it has used up. Over disjoint boundaries the two passes find the same pieces, as long as
the pieces come out in ascending order.
-/

namespace HalfOpen

variable {K : Type*} [LinearOrder K] {α : Type*}

def clipTagged : List (K × K) → List (α × (K × K)) → List (α × List (K × K))
  | _, [] => []
  | rs, (a, b) :: bs =>
    if b.1 = b.2 then clipTagged rs bs
    else
      let rs' := rs.dropWhile (fun r => r.2 ≤ b.1)
      (a, clipOne rs' b) :: clipTagged rs' bs

theorem clip_eq_flatMap (rs : List (K × K)) (bs : List (α × (K × K))) :
    clip rs (bs.map Prod.snd) = (clipTagged rs bs).flatMap Prod.snd := by
  induction bs generalizing rs with
  | nil => rfl
  | cons ab bs ih =>
    rw [List.map_cons, clip, clipTagged]
    split_ifs
    · exact ih rs
    · simp only [ih, List.flatMap_cons]

theorem map_fst_clipTagged_sublist (rs : List (K × K)) (bs : List (α × (K × K))) :
    ((clipTagged rs bs).map Prod.fst).Sublist (bs.map Prod.fst) := by
  induction bs generalizing rs with
  | nil => exact List.Sublist.slnil
  | cons ab bs ih =>
    rw [clipTagged, List.map_cons]
    split_ifs
    · exact (ih rs).cons ab.1
    · exact (ih _).cons_cons ab.1

theorem mem_clipTagged {rs : List (K × K)} {bs : List (α × (K × K))} (hrs : Ordered rs)
    (hwf : ∀ ab ∈ bs, ab.2.1 ≤ ab.2.2) {a : α} {ps : List (K × K)}
    (h : (a, ps) ∈ clipTagged rs bs) :
    ∃ b, (a, b) ∈ bs ∧ (∀ p ∈ ps, p.1 < p.2) ∧ coverage ps ⊆ Set.Ico b.1 b.2 := by
  induction bs generalizing rs with
  | nil => cases h
  | cons ab bs ih =>
    have hwf' : ∀ cd ∈ bs, cd.2.1 ≤ cd.2.2 := fun cd hcd => hwf cd (List.mem_cons_of_mem ab hcd)
    have hrs' : Ordered (rs.dropWhile (fun r => r.2 ≤ ab.2.1)) :=
      hrs.sublist (List.dropWhile_sublist _)
    rw [clipTagged] at h
    split_ifs at h with heq
    · obtain ⟨b, hb, hps⟩ := ih hrs hwf' h
      exact ⟨b, List.mem_cons_of_mem ab hb, hps⟩
    · rcases List.mem_cons.mp h with h | h
      · obtain ⟨rfl, rfl⟩ := Prod.mk.inj h
        have hone := ordered_clipOne hrs' ab.2 (lt_of_le_of_ne (hwf ab List.mem_cons_self) heq)
          (fun r hr => (hrs.mem_dropWhile_end.mp hr).2)
        refine ⟨ab.2, List.mem_cons_self, hone.1.nonempty, ?_⟩
        rw [coverage_clipOne hrs' ab.2]
        exact Set.inter_subset_right
      · obtain ⟨b, hb, hps⟩ := ih hrs' hwf' h
        exact ⟨b, List.mem_cons_of_mem ab hb, hps⟩

theorem mem_coverage_clip_iff {rs : List (K × K)} {bs : List (α × (K × K))} {k : K} :
    k ∈ coverage (clip rs (bs.map Prod.snd)) ↔
      ∃ a ps, (a, ps) ∈ clipTagged rs bs ∧ k ∈ coverage ps := by
  rw [clip_eq_flatMap]
  constructor
  · rintro ⟨r, hr, hk⟩
    obtain ⟨⟨a, ps⟩, hmem, hr⟩ := List.mem_flatMap.mp hr
    exact ⟨a, ps, hmem, r, hr, hk⟩
  · rintro ⟨a, ps, hmem, r, hr, hk⟩
    exact ⟨r, List.mem_flatMap.mpr ⟨(a, ps), hmem, hr⟩, hk⟩

def consumeTagged : List (K × K) → List (α × (K × K)) → List (α × List (K × K))
  | _, [] => []
  | rs, (a, b) :: bs =>
    if b.1 = b.2 then consumeTagged rs bs
    else
      let rs' := rs.dropWhile (fun r => r.2 ≤ b.1)
      (a, clipOne rs' b) :: consumeTagged (rs'.dropWhile (fun r => r.2 ≤ b.2)) bs

theorem filter_consumeTagged_nil (bs : List (α × (K × K))) :
    (consumeTagged [] bs).filter (fun e => e.2 ≠ []) = [] := by
  induction bs with
  | nil => rfl
  | cons ab bs ih =>
    rw [consumeTagged]
    split_ifs
    · exact ih
    · simpa [clipOne] using ih

theorem dropWhile_dropWhile_end (rs : List (K × K)) {c c' : K} (h : c ≤ c') :
    (rs.dropWhile (fun r => r.2 ≤ c)).dropWhile (fun r => r.2 ≤ c') =
      rs.dropWhile (fun r => r.2 ≤ c') := by
  induction rs with
  | nil => rfl
  | cons r rs ih =>
    by_cases hr : r.2 ≤ c
    · rw [List.dropWhile_cons_of_pos (by simpa using hr),
        List.dropWhile_cons_of_pos (by simpa using hr.trans h), ih]
    · rw [List.dropWhile_cons_of_neg (by simpa using hr)]

theorem dropWhile_end_eq_self {rs : List (K × K)} {c : K} (h : ∀ r ∈ rs, c < r.2) :
    rs.dropWhile (fun r => r.2 ≤ c) = rs := by
  cases rs with
  | nil => rfl
  | cons r rs =>
    exact List.dropWhile_cons_of_neg (by simpa using h r List.mem_cons_self)

theorem clipOne_eq_nil_iff {rs : List (K × K)} (hrs : Ordered rs) (b : K × K) :
    clipOne rs b = [] ↔ ∀ r ∈ rs, b.2 ≤ r.1 := by
  rw [clipOne, List.map_eq_nil_iff, List.eq_nil_iff_forall_not_mem]
  simp only [hrs.mem_takeWhile_start, not_and, not_lt]

/-- What a consuming pass has left behind of the ranges: nothing, or what ends inside or before
of a boundary that the rest of the pass does not fall behind. -/
def Behind (rs rt bs : List (K × K)) : Prop :=
  rt = rs ∨ ∃ b : K × K, b.1 < b.2 ∧ rt = rs.dropWhile (fun r => r.2 ≤ b.2) ∧
    (∀ c ∈ bs, Disjoint (Set.Ico b.1 b.2) (Set.Ico c.1 c.2)) ∧ ∀ p ∈ clip rs bs, b.1 ≤ p.1

theorem le_or_le_of_disjoint_Ico {b c : K × K} (hb : b.1 < b.2) (hc : c.1 < c.2)
    (h : Disjoint (Set.Ico b.1 b.2) (Set.Ico c.1 c.2)) : b.2 ≤ c.1 ∨ c.2 ≤ b.1 := by
  rw [Set.Ico_disjoint_Ico, min_le_iff, le_max_iff, le_max_iff] at h
  rcases h with (h | h) | h | h
  · exact absurd h (not_le.mpr hb)
  · exact Or.inl h
  · exact Or.inr h
  · exact absurd h (not_le.mpr hc)

theorem Behind.step {rs rt bs : List (K × K)} {b : K × K} (h : Behind rs rt (b :: bs))
    (hrs : Ordered rs) (hb : b.1 < b.2)
    (hdisjoint : ∀ c ∈ bs, Disjoint (Set.Ico b.1 b.2) (Set.Ico c.1 c.2))
    (hsorted : StartSorted (clip rs (b :: bs))) :
    clipOne (rt.dropWhile (fun r => r.2 ≤ b.1)) b =
        clipOne (rs.dropWhile (fun r => r.2 ≤ b.1)) b ∧
      Behind (rs.dropWhile (fun r => r.2 ≤ b.1))
        ((rt.dropWhile (fun r => r.2 ≤ b.1)).dropWhile (fun r => r.2 ≤ b.2)) bs := by
  let rs' := rs.dropWhile (fun r => r.2 ≤ b.1)
  have hrs' : Ordered rs' := hrs.sublist (List.dropWhile_sublist _)
  have hclip : clip rs (b :: bs) = clipOne rs' b ++ clip rs' bs := by
    rw [clip, if_neg hb.ne]
  rw [hclip] at hsorted
  -- where the two passes have the same ranges, the boundary is what is left behind next
  have hsame : Behind rs' (rs'.dropWhile (fun r => r.2 ≤ b.2)) bs := by
    by_cases hnil : clipOne rs' b = []
    · refine Or.inl (dropWhile_end_eq_self fun r hr => ?_)
      exact ((clipOne_eq_nil_iff hrs' b).mp hnil r hr).trans_lt (hrs'.nonempty r hr)
    · obtain ⟨p, hp⟩ := List.exists_mem_of_ne_nil _ hnil
      have hone := ordered_clipOne hrs' b hb fun r hr => (hrs.mem_dropWhile_end.mp hr).2
      refine Or.inr ⟨b, hb, rfl, hdisjoint, fun q hq => ?_⟩
      exact (hone.2 p hp).1.trans ((List.pairwise_append.mp hsorted).2.2 p hp q hq)
  rcases h with rfl | ⟨c, hc, rfl, hdis, hlow⟩
  · exact ⟨rfl, hsame⟩
  · rcases le_or_le_of_disjoint_Ico hc hb (hdis b List.mem_cons_self) with hcb | hbc
    · rw [dropWhile_dropWhile_end rs hcb]
      exact ⟨rfl, hsame⟩
    · -- a boundary before the consumed one has no pieces, since they would start too early
      have hnil : clipOne rs' b = [] := by
        apply List.eq_nil_iff_forall_not_mem.mpr
        intro p hp
        have hone := ordered_clipOne hrs' b hb fun r hr => (hrs.mem_dropWhile_end.mp hr).2
        have hstart := hlow p (hclip ▸ List.mem_append_left _ hp)
        exact absurd ((hone.1.nonempty p hp).trans_le ((hone.2 p hp).2.trans hbc))
          (not_lt.mpr hstart)
      have hend : ∀ r ∈ rs.dropWhile (fun r => r.2 ≤ c.2), c.2 < r.2 := fun r hr =>
        (hrs.mem_dropWhile_end.mp hr).2
      have hbound : b.2 < c.2 := hbc.trans_lt hc
      have hrest : rs.dropWhile (fun r => r.2 ≤ c.2) = rs'.dropWhile (fun r => r.2 ≤ c.2) :=
        (dropWhile_dropWhile_end rs (hb.trans hbound).le).symm
      rw [dropWhile_end_eq_self fun r hr => (hb.trans hbound).trans (hend r hr),
        dropWhile_end_eq_self fun r hr => hbound.trans (hend r hr)]
      refine ⟨?_, Or.inr ⟨c, hc, hrest, fun x hx => hdis x (List.mem_cons_of_mem b hx), ?_⟩⟩
      · have hone := (clipOne_eq_nil_iff hrs' b).mp hnil
        rw [hnil, hrest, clipOne_eq_nil_iff (hrs'.sublist (List.dropWhile_sublist _))]
        exact fun r hr => hone r ((List.dropWhile_sublist _).subset hr)
      · exact fun p hp => hlow p (hclip ▸ List.mem_append_right _ hp)

theorem Behind.filter_consumeTagged {bs : List (α × (K × K))} {rs rt : List (K × K)}
    (h : Behind rs rt (bs.map Prod.snd)) (hrs : Ordered rs) (hwf : ∀ ab ∈ bs, ab.2.1 ≤ ab.2.2)
    (hdisjoint : bs.Pairwise
      (fun x y => Disjoint (Set.Ico x.2.1 x.2.2) (Set.Ico y.2.1 y.2.2)))
    (hsorted : StartSorted (clip rs (bs.map Prod.snd))) :
    (consumeTagged rt bs).filter (fun e => e.2 ≠ []) =
      (clipTagged rs bs).filter (fun e => e.2 ≠ []) := by
  induction bs generalizing rs rt with
  | nil => rfl
  | cons ab bs ih =>
    obtain ⟨hab, hbs⟩ := List.pairwise_cons.mp hdisjoint
    have hwf' : ∀ cd ∈ bs, cd.2.1 ≤ cd.2.2 := fun cd hcd => hwf cd (List.mem_cons_of_mem ab hcd)
    rw [List.map_cons] at h hsorted
    rw [consumeTagged, clipTagged]
    by_cases heq : ab.2.1 = ab.2.2
    · rw [if_pos heq, if_pos heq]
      rw [clip, if_pos heq] at hsorted
      refine ih ?_ hrs hwf' hbs hsorted
      rcases h with h | ⟨b, hb, hrt, hdis, hlow⟩
      · exact Or.inl h
      · rw [clip, if_pos heq] at hlow
        exact Or.inr ⟨b, hb, hrt, fun c hc => hdis c (List.mem_cons_of_mem _ hc), hlow⟩
    · have hb := lt_of_le_of_ne (hwf ab List.mem_cons_self) heq
      obtain ⟨hpieces, hrest⟩ := h.step hrs hb (List.forall_mem_map.mpr hab) hsorted
      rw [clip, if_neg heq] at hsorted
      rw [if_neg heq, if_neg heq]
      simp only [hpieces, List.filter_cons]
      rw [ih hrest (hrs.sublist (List.dropWhile_sublist _)) hwf' hbs
        (List.pairwise_append.mp hsorted).2.1]

def intersections (rs : List (K × K)) (b : K × K) : List (K × K) :=
  rs.filterMap fun r =>
    if max r.1 b.1 < min r.2 b.2 then some (max r.1 b.1, min r.2 b.2) else none

theorem intersections_eq_nil_of_eq (rs : List (K × K)) {b : K × K} (hb : b.1 = b.2) :
    intersections rs b = [] := by
  rw [intersections, List.filterMap_eq_nil_iff]
  intro r _
  rw [if_neg]
  exact not_lt.mpr ((min_le_right _ _).trans (hb ▸ le_max_right _ _))

theorem intersections_dropWhile (rs : List (K × K)) {k : K} {b : K × K} (hk : k ≤ b.1) :
    intersections (rs.dropWhile (fun r => r.2 ≤ k)) b = intersections rs b := by
  induction rs with
  | nil => rfl
  | cons r rs ih =>
    by_cases hr : r.2 ≤ k
    · have hout : ¬ max r.1 b.1 < min r.2 b.2 :=
        not_lt.mpr ((min_le_left _ _).trans (hr.trans (hk.trans (le_max_right _ _))))
      rw [List.dropWhile_cons_of_pos (by simpa using hr), ih]
      conv_rhs => rw [intersections, List.filterMap_cons, if_neg hout]
      rfl
    · rw [List.dropWhile_cons_of_neg (by simpa using hr)]

theorem clipOne_eq_intersections {rs : List (K × K)} (hrs : Ordered rs) {b : K × K}
    (hb : b.1 < b.2) (hend : ∀ r ∈ rs, b.1 < r.2) : clipOne rs b = intersections rs b := by
  induction rs with
  | nil => rfl
  | cons r rs ih =>
    obtain ⟨hr, hlt, hrs⟩ := Ordered.cons_iff.mp hrs
    have hih := ih hrs fun s hs => hend s (List.mem_cons_of_mem r hs)
    by_cases hstart : r.1 < b.2
    · have hin : max r.1 b.1 < min r.2 b.2 :=
        max_lt (lt_min hr hstart) (lt_min (hend r List.mem_cons_self) hb)
      rw [clipOne, List.takeWhile_cons_of_pos (by simpa using hstart), List.map_cons,
        intersections, List.filterMap_cons, if_pos hin]
      exact congrArg _ hih
    · have hnil : clipOne rs b = [] := (clipOne_eq_nil_iff hrs b).mpr fun s hs =>
        (not_lt.mp hstart).trans (hr.le.trans (hlt s hs))
      have hout : ¬ max r.1 b.1 < min r.2 b.2 :=
        not_lt.mpr ((min_le_right _ _).trans ((not_lt.mp hstart).trans (le_max_left _ _)))
      rw [clipOne, List.takeWhile_cons_of_neg (by simpa using hstart), intersections,
        List.filterMap_cons, if_neg hout]
      exact hnil.symm.trans hih

theorem clipTagged_eq_map {rs : List (K × K)} {bs : List (α × (K × K))} (hrs : Ordered rs)
    (hwf : ∀ ab ∈ bs, ab.2.1 ≤ ab.2.2) (hbs : StartSorted (bs.map Prod.snd)) :
    clipTagged rs bs = (bs.filter fun ab => ab.2.1 ≠ ab.2.2).map
      fun ab => (ab.1, intersections rs ab.2) := by
  induction bs generalizing rs with
  | nil => rfl
  | cons ab bs ih =>
    obtain ⟨hab, hbs⟩ := List.pairwise_cons.mp hbs
    have hwf' : ∀ cd ∈ bs, cd.2.1 ≤ cd.2.2 := fun cd hcd => hwf cd (List.mem_cons_of_mem ab hcd)
    rw [clipTagged]
    by_cases heq : ab.2.1 = ab.2.2
    · rw [if_pos heq, ih hrs hwf' hbs, List.filter_cons_of_neg (by simpa using heq)]
    · have hrs' : Ordered (rs.dropWhile (fun r => r.2 ≤ ab.2.1)) :=
        hrs.sublist (List.dropWhile_sublist _)
      rw [if_neg heq, List.filter_cons_of_pos (by simpa using heq), List.map_cons]
      simp only
      rw [clipOne_eq_intersections hrs' (lt_of_le_of_ne (hwf ab List.mem_cons_self) heq)
        (fun r hr => (hrs.mem_dropWhile_end.mp hr).2), intersections_dropWhile rs le_rfl,
        ih hrs' hwf' hbs]
      refine congrArg _ (List.map_congr_left fun cd hcd => ?_)
      have hmem := List.mem_map_of_mem (f := Prod.snd) (List.mem_filter.mp hcd).1
      rw [intersections_dropWhile rs (hab cd.2 hmem)]

theorem clip_eq_intersections {rs bs : List (K × K)} (hrs : Ordered rs)
    (hwf : ∀ b ∈ bs, b.1 ≤ b.2) (hbs : StartSorted bs) :
    clip rs bs = bs.flatMap (intersections rs) := by
  induction bs generalizing rs with
  | nil => rfl
  | cons b bs ih =>
    obtain ⟨hb, hbs⟩ := List.pairwise_cons.mp hbs
    have hwf' : ∀ c ∈ bs, c.1 ≤ c.2 := fun c hc => hwf c (List.mem_cons_of_mem b hc)
    rw [clip, List.flatMap_cons]
    by_cases heq : b.1 = b.2
    · rw [if_pos heq, ih hrs hwf' hbs, intersections_eq_nil_of_eq rs heq, List.nil_append]
    · have hrs' : Ordered (rs.dropWhile (fun r => r.2 ≤ b.1)) :=
        hrs.sublist (List.dropWhile_sublist _)
      rw [if_neg heq]
      simp only
      rw [clipOne_eq_intersections hrs' (lt_of_le_of_ne (hwf b List.mem_cons_self) heq)
        (fun r hr => (hrs.mem_dropWhile_end.mp hr).2), intersections_dropWhile rs le_rfl,
        ih hrs' hwf' hbs]
      congr 1
      exact List.flatMap_congr fun c hc => intersections_dropWhile rs (hb c hc)

theorem clip_filter (rs bs : List (K × K)) :
    clip rs (bs.filter fun b => b.1 ≠ b.2) = clip rs bs := by
  induction bs generalizing rs with
  | nil => rfl
  | cons b bs ih =>
    by_cases heq : b.1 = b.2
    · rw [List.filter_cons_of_neg (by simpa using heq), clip, if_pos heq, ih]
    · rw [List.filter_cons_of_pos (by simpa using heq), clip, clip, if_neg heq, if_neg heq]
      simp only [ih]

theorem ordered_clip_of_disjoint {rs bs : List (K × K)} (hrs : Ordered rs)
    (hwf : ∀ b ∈ bs, b.1 ≤ b.2) (hbs : StartSorted bs)
    (hdisjoint : bs.Pairwise (fun x y => Disjoint (Set.Ico x.1 x.2) (Set.Ico y.1 y.2))) :
    Ordered (clip rs bs) := by
  rw [← clip_filter]
  have hsub : (bs.filter fun b => b.1 ≠ b.2).Sublist bs := List.filter_sublist
  have hne : ∀ b ∈ bs.filter fun b => b.1 ≠ b.2, b.1 < b.2 := by
    intro b hb
    obtain ⟨hmem, hb⟩ := List.mem_filter.mp hb
    exact lt_of_le_of_ne (hwf b hmem) (by simpa using hb)
  refine (ordered_clip hrs ?_ fun b hb => (hne b hb).le).1
  refine ((hbs.and hdisjoint).sublist hsub).imp_of_mem ?_
  rintro a c ha hc ⟨hac, hdis⟩
  rcases le_or_le_of_disjoint_Ico (hne a ha) (hne c hc) hdis with h | h
  · exact h
  · exact absurd ((hne c hc).trans_le h) (not_lt.mpr hac)

end HalfOpen
