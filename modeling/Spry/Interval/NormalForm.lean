import Spry.Interval.Subtract

/-!
# The normal form of a range list

Non-empty ranges with a gap between neighbours are determined by the keys they cover, and no
other list with the same coverage is shorter. So two ways to merge ranges agree as soon as both
reach the normal form and keep the coverage. Ranges that may be empty reduce to this case:
`thicken` turns `(k, k)` into a non-empty range over a finer order.
-/

namespace HalfOpen

variable {K : Type*} [LinearOrder K]

structure Normal (rs : List (K × K)) : Prop where
  nonempty : ∀ r ∈ rs, r.1 < r.2
  gapped : Gapped rs

instance (rs : List (K × K)) : Decidable (Normal rs) :=
  decidable_of_iff ((∀ r ∈ rs, r.1 < r.2) ∧ Gapped rs)
    ⟨fun h => ⟨h.1, h.2⟩, fun h => ⟨h.nonempty, h.gapped⟩⟩

namespace Normal

theorem nil : Normal ([] : List (K × K)) := ⟨by simp, List.Pairwise.nil⟩

theorem cons_iff {r : K × K} {rs : List (K × K)} :
    Normal (r :: rs) ↔ r.1 < r.2 ∧ (∀ s ∈ rs, r.2 < s.1) ∧ Normal rs := by
  constructor
  · rintro ⟨hne, hgap⟩
    obtain ⟨hr, hrs⟩ := List.pairwise_cons.mp hgap
    exact ⟨hne r (by simp), hr, fun s hs => hne s (by simp [hs]), hrs⟩
  · rintro ⟨hr, hlt, hrs⟩
    refine ⟨?_, List.pairwise_cons.mpr ⟨hlt, hrs.gapped⟩⟩
    intro s hs
    rcases List.mem_cons.mp hs with rfl | hs
    · exact hr
    · exact hrs.nonempty s hs

theorem ordered {rs : List (K × K)} (h : Normal rs) : Ordered rs := h.gapped.ordered h.nonempty

theorem end_notMem {r : K × K} {rs : List (K × K)} (h : Normal (r :: rs)) :
    r.2 ∉ coverage (r :: rs) := by
  obtain ⟨_, hlt, _⟩ := cons_iff.mp h
  rw [coverage_cons]
  rintro (hr | hrs)
  · exact lt_irrefl _ hr.2
  · exact notMem_coverage_of_lt hlt hrs

theorem start_le {r : K × K} {rs : List (K × K)} (h : Normal (r :: rs)) {k : K}
    (hk : k ∈ coverage (r :: rs)) : r.1 ≤ k := by
  obtain ⟨s, hs, hsk, _⟩ := hk
  refine le_trans ?_ hsk
  rcases List.mem_cons.mp hs with rfl | hs
  · exact le_rfl
  · exact (List.pairwise_cons.mp h.ordered.startSorted).1 s hs

theorem start_mem {r : K × K} {rs : List (K × K)} (h : Normal (r :: rs)) :
    r.1 ∈ coverage (r :: rs) :=
  ⟨r, by simp, le_rfl, h.nonempty r (by simp)⟩

theorem end_le_of_coverage_eq {r s : K × K} {rs ss : List (K × K)} (hr : Normal (r :: rs))
    (hstart : s.1 ≤ r.1) (h : coverage (r :: rs) = coverage (s :: ss)) : s.2 ≤ r.2 := by
  by_contra hlt
  apply hr.end_notMem
  rw [h]
  exact ⟨s, by simp, hstart.trans (hr.nonempty r (by simp)).le, not_le.mp hlt⟩

theorem coverage_tail {r : K × K} {rs : List (K × K)} (h : Normal (r :: rs)) :
    coverage rs = coverage (r :: rs) \ Set.Ico r.1 r.2 := by
  obtain ⟨_, hlt, _⟩ := cons_iff.mp h
  rw [coverage_cons, Set.union_sdiff_left, eq_comm, sdiff_eq_left]
  refine Set.disjoint_left.mpr fun k hk hr => ?_
  exact notMem_coverage_of_lt (fun s hs => hr.2.trans (hlt s hs)) hk

theorem eq_of_coverage_eq {rs ss : List (K × K)} (hrs : Normal rs) (hss : Normal ss)
    (h : coverage rs = coverage ss) : rs = ss := by
  induction rs generalizing ss with
  | nil =>
    cases ss with
    | nil => rfl
    | cons s ss =>
      have hs := hss.start_mem
      rw [← h, coverage_nil] at hs
      exact absurd hs (Set.notMem_empty _)
  | cons r rs ih =>
    cases ss with
    | nil =>
      have hr := hrs.start_mem
      rw [h, coverage_nil] at hr
      exact absurd hr (Set.notMem_empty _)
    | cons s ss =>
      have hstart : r.1 = s.1 :=
        le_antisymm (hrs.start_le (h ▸ hss.start_mem)) (hss.start_le (h ▸ hrs.start_mem))
      have hend : r.2 = s.2 :=
        le_antisymm (hss.end_le_of_coverage_eq hstart.le h.symm)
          (hrs.end_le_of_coverage_eq hstart.ge h)
      obtain rfl : r = s := Prod.ext hstart hend
      rw [ih (cons_iff.mp hrs).2.2 (cons_iff.mp hss).2.2]
      rw [hrs.coverage_tail, hss.coverage_tail, h]

end Normal

theorem normal_coalesceAll {rs : List (K × K)} (h : StartSorted rs)
    (hne : ∀ r ∈ rs, r.1 < r.2) : Normal (coalesceAll rs) :=
  ⟨(ordered_coalesceAll h hne).nonempty, gapped_coalesceAll h⟩

theorem length_coalesceBy_le (joins : K → K → Bool) (cur : K × K) (rs : List (K × K)) :
    (coalesceBy joins cur rs).length ≤ rs.length + 1 := by
  induction rs generalizing cur with
  | nil => simp [coalesceBy]
  | cons r rs ih =>
    rw [coalesceBy]
    split_ifs
    · exact (ih _).trans (by simp)
    · simpa using ih r

theorem length_coalesceAll_le (rs : List (K × K)) : (coalesceAll rs).length ≤ rs.length := by
  cases rs with
  | nil => exact le_rfl
  | cons r rs => exact length_coalesceBy_le _ r rs

theorem coverage_filter_nonempty (rs : List (K × K)) :
    coverage (rs.filter fun r => r.1 < r.2) = coverage rs := by
  ext k
  simp only [mem_coverage, List.mem_filter, decide_eq_true_eq]
  constructor
  · rintro ⟨r, ⟨hr, _⟩, hk⟩
    exact ⟨r, hr, hk⟩
  · rintro ⟨r, hr, hlo, hhi⟩
    exact ⟨r, ⟨hr, hlo.trans_lt hhi⟩, hlo, hhi⟩

theorem Normal.length_le {rs ss : List (K × K)} (hrs : Normal rs)
    (h : coverage ss = coverage rs) : rs.length ≤ ss.length := by
  let ts := sortByStart (ss.filter fun r => r.1 < r.2)
  have hperm : ts.Perm (ss.filter fun r => r.1 < r.2) := sortByStart_perm _
  have hne : ∀ r ∈ ts, r.1 < r.2 := by
    intro r hr
    simpa using (List.mem_filter.mp (hperm.mem_iff.mp hr)).2
  have hsorted : StartSorted ts := startSorted_sortByStart _
  have hcov : coverage rs = coverage (coalesceAll ts) := by
    rw [coverage_coalesceAll hsorted, coverage_perm hperm, coverage_filter_nonempty, h]
  calc rs.length = (coalesceAll ts).length := by
        rw [hrs.eq_of_coverage_eq (normal_coalesceAll hsorted hne) hcov]
    _ ≤ ts.length := length_coalesceAll_le ts
    _ = (ss.filter fun r => r.1 < r.2).length := hperm.length_eq
    _ ≤ ss.length := List.length_filter_le _ _

theorem coalesceBy_eq_of_length {joins : K → K → Bool} {cur : K × K} {rs : List (K × K)}
    (h : (coalesceBy joins cur rs).length = rs.length + 1) :
    coalesceBy joins cur rs = cur :: rs := by
  induction rs generalizing cur with
  | nil => rfl
  | cons r rs ih =>
    rw [coalesceBy] at h ⊢
    split_ifs at h ⊢
    · -- a joined range is missing from the result
      have hle := length_coalesceBy_le joins (cur.1, max cur.2 r.2) rs
      rw [h, List.length_cons] at hle
      omega
    · rw [ih (by simpa using h)]

theorem coalesceAll_eq_of_length {rs : List (K × K)} (h : (coalesceAll rs).length = rs.length) :
    coalesceAll rs = rs := by
  cases rs with
  | nil => rfl
  | cons r rs => exact coalesceBy_eq_of_length h

theorem Normal.eq_of_length_le {rs ss : List (K × K)} (hrs : Normal rs) (hss : Ordered ss)
    (hcov : coverage ss = coverage rs) (hlen : ss.length ≤ rs.length) : ss = rs := by
  have hmerged : coalesceAll ss = rs := by
    apply (normal_coalesceAll hss.startSorted hss.nonempty).eq_of_coverage_eq hrs
    rw [coverage_coalesceAll hss.startSorted, hcov]
  have hlength : (coalesceAll ss).length = ss.length :=
    le_antisymm (length_coalesceAll_le ss) (hmerged ▸ hlen)
  rw [← hmerged, coalesceAll_eq_of_length hlength]

section Insert

/-- One pass that inserts a range: ranges that end before `start` stay in front, the ones met
until a range starts after `stop` are absorbed into `cur`, the rest follows. -/
def insertRange (start stop : K) : K × K → List (K × K) → List (K × K)
  | cur, [] => [cur]
  | cur, r :: rs =>
    if r.2 < start then r :: insertRange start stop cur rs
    else if stop < r.1 then cur :: r :: rs
    else insertRange start stop (min cur.1 r.1, max cur.2 r.2) rs

variable {start stop : K}

/-- From the first range that reaches `start` on, no range is passed over any more. -/
theorem insertRange_absorb {rs : List (K × K)} (hrs : Normal rs) (hreach : ∀ r ∈ rs, start ≤ r.2)
    {cur : K × K} (hcur : cur.1 < cur.2) (hlo : cur.1 ≤ start) (hhi : stop ≤ cur.2)
    (hpast : ∀ r ∈ rs, stop < r.1 → cur.2 < r.1) :
    Normal (insertRange start stop cur rs) ∧
      coverage (insertRange start stop cur rs) = Set.Ico cur.1 cur.2 ∪ coverage rs ∧
      ∀ k < cur.1, (∀ r ∈ rs, k < r.1) → ∀ p ∈ insertRange start stop cur rs, k < p.1 := by
  induction rs generalizing cur with
  | nil => simp [insertRange, Normal.cons_iff, Normal.nil, hcur]
  | cons r rs ih =>
    obtain ⟨hr, hlt, htail⟩ := Normal.cons_iff.mp hrs
    have hreach' : ∀ s ∈ rs, start ≤ s.2 := fun s hs => hreach s (by simp [hs])
    have hnot : ¬ r.2 < start := not_lt.mpr (hreach r (by simp))
    by_cases hstop : stop < r.1
    · have hgap : ∀ s ∈ r :: rs, cur.2 < s.1 := by
        intro s hs
        rcases List.mem_cons.mp hs with rfl | hs
        · exact hpast s (by simp) hstop
        · exact (hpast r (by simp) hstop).trans (hr.trans (hlt s hs))
      rw [insertRange, if_neg hnot, if_pos hstop]
      refine ⟨Normal.cons_iff.mpr ⟨hcur, hgap, hrs⟩, coverage_cons _ _, ?_⟩
      intro k hk hrest p hp
      rcases List.mem_cons.mp hp with rfl | hp
      · exact hk
      · exact hrest p hp
    · have hpast' : ∀ s ∈ rs, stop < s.1 → max cur.2 r.2 < s.1 := fun s hs hs1 =>
        max_lt (hpast s (by simp [hs]) hs1) (hlt s hs)
      have hgrown : (min cur.1 r.1, max cur.2 r.2).1 < (min cur.1 r.1, max cur.2 r.2).2 :=
        lt_of_le_of_lt (min_le_left _ _) (lt_max_of_lt_left hcur)
      obtain ⟨hnormal, hcov, hlow⟩ := ih htail hreach' hgrown ((min_le_left _ _).trans hlo)
        (le_max_of_le_left hhi) hpast'
      rw [insertRange, if_neg hnot, if_neg hstop]
      refine ⟨hnormal, ?_, ?_⟩
      · rw [hcov, coverage_cons, ← Set.union_assoc, Set.Ico_union_Ico']
        · exact (not_lt.mp hstop).trans hhi
        · exact hlo.trans (hreach r (by simp))
      · intro k hk hrest
        exact hlow k (lt_min hk (hrest r (by simp))) fun s hs => hrest s (by simp [hs])

theorem normal_insertRange {rs : List (K × K)} (hrs : Normal rs) {cur : K × K}
    (hcur : cur.1 < cur.2) :
    Normal (insertRange cur.1 cur.2 cur rs) ∧
      coverage (insertRange cur.1 cur.2 cur rs) = Set.Ico cur.1 cur.2 ∪ coverage rs ∧
      ∀ k < cur.1, (∀ r ∈ rs, k < r.1) → ∀ p ∈ insertRange cur.1 cur.2 cur rs, k < p.1 := by
  induction rs with
  | nil => simp [insertRange, Normal.cons_iff, Normal.nil, hcur]
  | cons r rs ih =>
    obtain ⟨hr, hlt, htail⟩ := Normal.cons_iff.mp hrs
    by_cases hbefore : r.2 < cur.1
    · obtain ⟨hnormal, hcov, hlow⟩ := ih htail
      rw [insertRange, if_pos hbefore]
      refine ⟨Normal.cons_iff.mpr ⟨hr, hlow r.2 hbefore hlt, hnormal⟩, ?_, ?_⟩
      · rw [coverage_cons, hcov, coverage_cons, Set.union_left_comm]
      · intro k hk hrest p hp
        rcases List.mem_cons.mp hp with rfl | hp
        · exact hrest p (by simp)
        · exact hlow k hk (fun s hs => hrest s (by simp [hs])) p hp
    · have hreach : ∀ s ∈ r :: rs, cur.1 ≤ s.2 := by
        intro s hs
        rcases List.mem_cons.mp hs with rfl | hs
        · exact not_lt.mp hbefore
        · exact ((not_lt.mp hbefore).trans (hlt s hs).le).trans
            (htail.nonempty s hs).le
      exact insertRange_absorb hrs hreach hcur le_rfl le_rfl fun _ _ h => h

end Insert

section Subtract

/-- A boundary without keys, strictly inside a range: subtracting it takes no key away but cuts
the range in two. -/
def Cleaves (b v : K × K) : Prop := b.1 = b.2 ∧ v.1 < b.1 ∧ b.1 < v.2

instance (b v : K × K) : Decidable (Cleaves b v) :=
  inferInstanceAs (Decidable (b.1 = b.2 ∧ v.1 < b.1 ∧ b.1 < v.2))

theorem mem_cut_rest (v : K × K) (bs : List (K × K)) (hv : v.1 < v.2) {b : K × K} (hb : b ∈ bs) :
    b ∈ (cut v bs).2 ∨ b.2 ≤ v.2 := by
  induction bs generalizing v with
  | nil => cases hb
  | cons c bs ih =>
    simp only [cut]
    split_ifs with h₁ h₂ h₃
    · exact Or.inl hb
    · rcases List.mem_cons.mp hb with rfl | hb
      · exact Or.inr (h₂.trans hv.le)
      · exact ih v hv hb
    · exact Or.inl hb
    · rcases List.mem_cons.mp hb with rfl | hb
      · exact Or.inr (not_le.mp h₃).le
      · exact ih (c.2, v.2) (not_le.mp h₃) hb

theorem Gapped.startSorted {bs : List (K × K)} (h : Gapped bs) (hwf : ∀ b ∈ bs, b.1 ≤ b.2) :
    StartSorted bs :=
  h.imp_of_mem fun ha _ hab => (hwf _ ha).trans hab.le

theorem mem_before {v a : K × K} {k : K} : a ∈ before v k ↔ v.1 < k ∧ a = (v.1, k) := by
  rw [before, List.mem_ite_nil_right, List.mem_singleton]

theorem gapped_before (v : K × K) (k : K) : Gapped (before v k) := by
  unfold before
  split_ifs
  · exact List.pairwise_singleton _ _
  · exact List.Pairwise.nil

theorem gapped_cut_iff {v : K × K} {bs : List (K × K)} (hv : v.1 < v.2) (hbs : Gapped bs)
    (hwf : ∀ b ∈ bs, b.1 ≤ b.2) : Gapped (cut v bs).1 ↔ ∀ b ∈ bs, ¬ Cleaves b v := by
  induction bs generalizing v with
  | nil => simp [cut]
  | cons b bs ih =>
    obtain ⟨hb, hbs⟩ := List.pairwise_cons.mp hbs
    have hble : b.1 ≤ b.2 := hwf b (by simp)
    have hwf' : ∀ c ∈ bs, c.1 ≤ c.2 := fun c hc => hwf c (by simp [hc])
    rw [List.forall_mem_cons]
    by_cases h₁ : v.2 ≤ b.1
    · rw [cut, if_pos h₁]
      refine iff_of_true (List.pairwise_singleton _ _) ⟨?_, ?_⟩
      · intro hc
        exact absurd hc.2.2 (not_lt.mpr h₁)
      · intro c hc hcl
        exact absurd hcl.2.2 (not_lt.mpr (h₁.trans (hble.trans (hb c hc).le)))
    by_cases h₂ : b.2 ≤ v.1
    · rw [cut, if_neg h₁, if_pos h₂, ih hv hbs hwf']
      refine ⟨fun h => ⟨?_, h⟩, And.right⟩
      intro hc
      exact absurd hc.2.1 (not_lt.mpr (hble.trans h₂))
    by_cases h₃ : v.2 ≤ b.2
    · rw [cut, if_neg h₁, if_neg h₂, if_pos h₃]
      refine iff_of_true (gapped_before v b.1) ⟨?_, ?_⟩
      · intro hc
        exact absurd hc.2.2 (not_lt.mpr (hc.1.symm ▸ h₃))
      · intro c hc hcl
        exact absurd hcl.2.2 (not_lt.mpr (h₃.trans (hb c hc).le))
    · have hrest : (b.2, v.2).1 < (b.2, v.2).2 := not_le.mp h₃
      have hlater : ∀ c ∈ bs, (Cleaves c (b.2, v.2) ↔ Cleaves c v) := by
        intro c hc
        exact and_congr_right fun _ => and_congr_left fun _ =>
          iff_of_true (hb c hc) ((not_le.mp h₂).trans (hb c hc))
      have hstarts : ∀ p ∈ (cut (b.2, v.2) bs).1, b.2 ≤ p.1 := fun p hp =>
        ((ordered_cut _ bs hrest (Gapped.startSorted hbs hwf') hwf').2 p hp).1
      rw [cut, if_neg h₁, if_neg h₂, if_neg h₃]
      simp only [Gapped, List.pairwise_append] at ih ⊢
      rw [ih hrest hbs hwf']
      constructor
      · rintro ⟨_, htail, hacross⟩
        refine ⟨?_, fun c hc hcl => htail c hc ((hlater c hc).mpr hcl)⟩
        -- the key of the boundary is still covered, by a piece that touches the one before it
        intro hcl
        have hmem : b.2 ∈ coverage (cut (b.2, v.2) bs).1 := by
          rw [coverage_cut _ _ (Gapped.startSorted hbs hwf')]
          exact ⟨⟨le_rfl, hrest⟩, notMem_coverage_of_lt hb⟩
        obtain ⟨p, hp, hple, _⟩ := hmem
        have hlt := hacross (v.1, b.1) (mem_before.mpr ⟨hcl.2.1, rfl⟩) p hp
        exact absurd hlt (not_lt.mpr (hple.trans hcl.1.symm.le))
      · rintro ⟨hnot, htail⟩
        refine ⟨gapped_before v b.1, fun c hc hcl => htail c hc ((hlater c hc).mp hcl), ?_⟩
        intro a ha p hp
        obtain ⟨hva, rfl⟩ := mem_before.mp ha
        have hne : b.1 ≠ b.2 := fun heq => hnot ⟨heq, hva, not_le.mp h₁⟩
        exact (lt_of_le_of_ne hble hne).trans_le (hstarts p hp)

theorem normal_subtract_iff {rs bs : List (K × K)} (hrs : Normal rs) (hbs : Gapped bs)
    (hwf : ∀ b ∈ bs, b.1 ≤ b.2) :
    Normal (subtract rs bs) ↔ ∀ r ∈ rs, ∀ b ∈ bs, ¬ Cleaves b r := by
  induction rs generalizing bs with
  | nil => simp [subtract, Normal.nil]
  | cons r rs ih =>
    obtain ⟨hr, hlt, htail⟩ := Normal.cons_iff.mp hrs
    have hsorted : StartSorted bs := hbs.startSorted hwf
    have hsuffix := cut_rest_suffix r bs
    have hbs' : Gapped (cut r bs).2 := hbs.sublist hsuffix.sublist
    have hwf' : ∀ b ∈ (cut r bs).2, b.1 ≤ b.2 := fun b hb => hwf b (hsuffix.subset hb)
    obtain ⟨hcut, hin⟩ := ordered_cut r bs hr hsorted hwf
    have hsub := ordered_subtract htail.ordered (hsorted.sublist hsuffix.sublist) hwf'
    -- a boundary passed by `r` ends before the later ranges start
    have hrest : (∀ s ∈ rs, ∀ b ∈ (cut r bs).2, ¬ Cleaves b s) ↔
        ∀ s ∈ rs, ∀ b ∈ bs, ¬ Cleaves b s := by
      refine forall₂_congr fun s hs => ⟨fun h b hb hcl => ?_, fun h b hb =>
        h b (hsuffix.subset hb)⟩
      rcases mem_cut_rest r bs hr hb with hmem | hle
      · exact h b hmem hcl
      · exact absurd (hcl.2.1.trans_le (hcl.1.le.trans hle)) (not_lt.mpr (hlt s hs).le)
    have hacross : ∀ a ∈ (cut r bs).1, ∀ p ∈ subtract rs (cut r bs).2, a.2 < p.1 := by
      intro a ha p hp
      cases rs with
      | nil => cases hp
      | cons s rs =>
        have hstart : ∀ t ∈ s :: rs, s.1 ≤ t.1 := by
          intro t ht
          rcases List.mem_cons.mp ht with rfl | ht
          · exact le_rfl
          · exact (List.pairwise_cons.mp htail.ordered.startSorted).1 t ht
        exact ((hin a ha).2.trans_lt (hlt s (by simp))).trans_le (hsub.2 s.1 hstart p hp)
    rw [List.forall_mem_cons, ← gapped_cut_iff hr hbs hwf, ← hrest, ← ih htail hbs' hwf']
    constructor
    · intro h
      obtain ⟨hgap, hgap', _⟩ := List.pairwise_append.mp h.gapped
      exact ⟨hgap, hsub.1.nonempty, hgap'⟩
    · rintro ⟨hgap, hnormal⟩
      exact ⟨(hcut.append hsub.1 fun a ha p hp => (hacross a ha p hp).le).nonempty,
        List.pairwise_append.mpr ⟨hgap, hnormal.gapped, hacross⟩⟩

end Subtract

section Thicken

def thickStart (k : K) : K ×ₗ Bool := toLex (k, false)

def thickEnd (k : K) : K ×ₗ Bool := toLex (k, true)

theorem thickStart_strictMono : StrictMono (thickStart (K := K)) := fun _ _ h =>
  Prod.Lex.toLex_lt_toLex.mpr (Or.inl h)

theorem thickEnd_strictMono : StrictMono (thickEnd (K := K)) := fun _ _ h =>
  Prod.Lex.toLex_lt_toLex.mpr (Or.inl h)

theorem thickStart_min (a b : K) : thickStart (min a b) = min (thickStart a) (thickStart b) :=
  Monotone.map_min (thickStart_strictMono (K := K)).monotone

theorem thickEnd_max (a b : K) : thickEnd (max a b) = max (thickEnd a) (thickEnd b) :=
  Monotone.map_max (thickEnd_strictMono (K := K)).monotone

theorem thickEnd_lt_thickStart {a b : K} : thickEnd a < thickStart b ↔ a < b := by
  simp [thickEnd, thickStart, Prod.Lex.toLex_lt_toLex]

theorem thickStart_le_thickEnd {a b : K} : thickStart a ≤ thickEnd b ↔ a ≤ b := by
  rw [← not_lt, thickEnd_lt_thickStart, not_lt]

theorem thickStart_lt_thickEnd {a b : K} : thickStart a < thickEnd b ↔ a ≤ b := by
  simp [thickStart, thickEnd, Prod.Lex.toLex_lt_toLex, le_iff_lt_or_eq]

/-- A range with its end pushed just behind the key: `(k, k)` becomes non-empty, and ends compare
with starts as before. -/
def thicken (r : K × K) : (K ×ₗ Bool) × (K ×ₗ Bool) := (thickStart r.1, thickEnd r.2)

theorem thicken_injective : Function.Injective (thicken (K := K)) := fun _ _ h =>
  Prod.ext (thickStart_strictMono.injective (congrArg Prod.fst h))
    (thickEnd_strictMono.injective (congrArg Prod.snd h))

theorem map_thicken_coalesce (cur : K × K) (rs : List (K × K)) :
    (coalesce cur rs).map thicken = coalesce (thicken cur) (rs.map thicken) := by
  unfold coalesce
  induction rs generalizing cur with
  | nil => rfl
  | cons r rs ih =>
    rw [List.map_cons, coalesceBy, coalesceBy]
    by_cases hjoin : r.1 ≤ cur.2
    · have hjoin' : (thicken r).1 ≤ (thicken cur).2 := thickStart_le_thickEnd.mpr hjoin
      rw [if_pos (by simpa using hjoin), if_pos (by simpa using hjoin'), ih]
      simp only [thicken, thickEnd_max]
    · have hjoin' : ¬ (thicken r).1 ≤ (thicken cur).2 := fun h =>
        hjoin (thickStart_le_thickEnd.mp h)
      rw [if_neg (by simpa using hjoin), if_neg (by simpa using hjoin'), List.map_cons, ih]

theorem map_thicken_coalesceAll (rs : List (K × K)) :
    (coalesceAll rs).map thicken = coalesceAll (rs.map thicken) := by
  cases rs with
  | nil => rfl
  | cons r rs => exact map_thicken_coalesce r rs

theorem map_thicken_insertRange (start stop : K) (cur : K × K) (rs : List (K × K)) :
    (insertRange start stop cur rs).map thicken =
      insertRange (thickStart start) (thickEnd stop) (thicken cur) (rs.map thicken) := by
  induction rs generalizing cur with
  | nil => rfl
  | cons r rs ih =>
    rw [List.map_cons, insertRange, insertRange]
    have hbefore : (thicken r).2 < thickStart start ↔ r.2 < start := thickEnd_lt_thickStart
    have hafter : thickEnd stop < (thicken r).1 ↔ stop < r.1 := thickEnd_lt_thickStart
    simp only [hbefore, hafter]
    split_ifs
    · rw [List.map_cons, ih]
    · rfl
    · rw [ih]
      simp only [thicken, thickStart_min, thickEnd_max]

theorem startSorted_map_thicken {rs : List (K × K)} (h : StartSorted rs) :
    StartSorted (rs.map thicken) :=
  List.pairwise_map.mpr (h.imp fun hab => thickStart_strictMono.monotone hab)

theorem nonempty_map_thicken {rs : List (K × K)} (h : ∀ r ∈ rs, r.1 ≤ r.2) :
    ∀ t ∈ rs.map thicken, t.1 < t.2 := by
  intro t ht
  obtain ⟨r, hr, rfl⟩ := List.mem_map.mp ht
  exact thickStart_lt_thickEnd.mpr (h r hr)

theorem normal_map_thicken {rs : List (K × K)} (hle : ∀ r ∈ rs, r.1 ≤ r.2) (hgap : Gapped rs) :
    Normal (rs.map thicken) :=
  ⟨nonempty_map_thicken hle, List.pairwise_map.mpr (hgap.imp thickEnd_lt_thickStart.mpr)⟩

theorem normal_foldl_insertRange {rs ms : List (K × K)} (hrs : Normal rs)
    (hms : ∀ r ∈ ms, r.1 < r.2) :
    Normal (ms.foldl (fun l r => insertRange r.1 r.2 r l) rs) ∧
      coverage (ms.foldl (fun l r => insertRange r.1 r.2 r l) rs) = coverage rs ∪ coverage ms := by
  induction ms generalizing rs with
  | nil => simpa using hrs
  | cons m ms ih =>
    obtain ⟨hnormal, hcov, _⟩ := normal_insertRange hrs (hms m (by simp))
    obtain ⟨hnormal', hcov'⟩ := ih hnormal fun r hr => hms r (by simp [hr])
    refine ⟨hnormal', ?_⟩
    rw [List.foldl_cons, hcov', hcov, coverage_cons, ← Set.union_assoc,
      Set.union_comm (Set.Ico _ _)]

theorem coalesceAll_eq_of_perm {rs ss : List (K × K)} (h : rs.Perm ss) (hrs : StartSorted rs)
    (hss : StartSorted ss) (hle : ∀ r ∈ rs, r.1 ≤ r.2) : coalesceAll rs = coalesceAll ss := by
  have hle' : ∀ r ∈ ss, r.1 ≤ r.2 := fun r hr => hle r (h.mem_iff.mpr hr)
  have hr := startSorted_map_thicken hrs
  have hs := startSorted_map_thicken hss
  apply List.map_injective_iff.mpr thicken_injective
  rw [map_thicken_coalesceAll, map_thicken_coalesceAll]
  apply (normal_coalesceAll hr (nonempty_map_thicken hle)).eq_of_coverage_eq
    (normal_coalesceAll hs (nonempty_map_thicken hle'))
  rw [coverage_coalesceAll hr, coverage_coalesceAll hs, coverage_perm (h.map thicken)]

theorem foldl_insertRange_eq_coalesceAll {rs ms ts : List (K × K)} (hgap : Gapped rs)
    (hle : ∀ r ∈ rs ++ ms, r.1 ≤ r.2) (hts : StartSorted ts) (hperm : ts.Perm (rs ++ ms)) :
    ms.foldl (fun l r => insertRange r.1 r.2 r l) rs = coalesceAll ts := by
  have hmap : ∀ l : List (K × K),
      (ms.foldl (fun l r => insertRange r.1 r.2 r l) l).map thicken =
        (ms.map thicken).foldl (fun l r => insertRange r.1 r.2 r l) (l.map thicken) := by
    clear hle hperm
    induction ms with
    | nil => intro l; rfl
    | cons m ms ih =>
      intro l
      rw [List.foldl_cons, ih, map_thicken_insertRange, List.map_cons, List.foldl_cons]
      rfl
  have hlets : ∀ r ∈ ts, r.1 ≤ r.2 := fun r hr => hle r (hperm.mem_iff.mp hr)
  have hlems : ∀ r ∈ ms, r.1 ≤ r.2 := fun r hr => hle r (by simp [hr])
  obtain ⟨hnormal, hcov⟩ := normal_foldl_insertRange
    (normal_map_thicken (fun r hr => hle r (by simp [hr])) hgap) (nonempty_map_thicken hlems)
  have hsorted := startSorted_map_thicken hts
  apply List.map_injective_iff.mpr thicken_injective
  rw [hmap, map_thicken_coalesceAll]
  apply hnormal.eq_of_coverage_eq (normal_coalesceAll hsorted (nonempty_map_thicken hlets))
  rw [hcov, coverage_coalesceAll hsorted, coverage_perm (hperm.map thicken), List.map_append,
    coverage_append]

end Thicken

end HalfOpen
