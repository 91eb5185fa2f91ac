import Spry.Interval.NormalForm

/-!
# Lists of closed integer ranges

The same range lists with both ends included. Two ranges that leave no integer between them are
joined, so `unite` of two sorted lists is gapped; `subtract` removes a second list, and
`puncture` removes single keys, which is the same as subtracting ranges of one key.
-/

namespace ClosedRange

open HalfOpen (StartSorted coalesceBy stepBack)

/-- The keys covered by some range `[first, second]` of the list. -/
def coverage (rs : List (ℤ × ℤ)) : Set ℤ := {k | ∃ r ∈ rs, k ∈ Set.Icc r.1 r.2}

theorem mem_coverage {rs : List (ℤ × ℤ)} {k : ℤ} :
    k ∈ coverage rs ↔ ∃ r ∈ rs, r.1 ≤ k ∧ k ≤ r.2 := Iff.rfl

instance (rs : List (ℤ × ℤ)) (k : ℤ) : Decidable (k ∈ coverage rs) :=
  decidable_of_iff (∃ r ∈ rs, r.1 ≤ k ∧ k ≤ r.2) mem_coverage.symm

@[simp] theorem coverage_nil : coverage [] = ∅ := by
  ext k; simp [coverage]

@[simp] theorem coverage_cons (r : ℤ × ℤ) (rs : List (ℤ × ℤ)) :
    coverage (r :: rs) = Set.Icc r.1 r.2 ∪ coverage rs := by
  ext k; simp [coverage]

@[simp] theorem coverage_append (rs ss : List (ℤ × ℤ)) :
    coverage (rs ++ ss) = coverage rs ∪ coverage ss := by
  ext k; simp [coverage, or_and_right, exists_or]

theorem coverage_perm {rs ss : List (ℤ × ℤ)} (h : rs.Perm ss) : coverage rs = coverage ss := by
  ext k; simp only [mem_coverage, h.mem_iff]

structure Ordered (rs : List (ℤ × ℤ)) : Prop where
  valid : ∀ r ∈ rs, r.1 ≤ r.2
  disjoint : rs.Pairwise (fun a b => a.2 < b.1)

namespace Ordered

theorem nil : Ordered [] := ⟨by simp, List.Pairwise.nil⟩

theorem cons_iff {r : ℤ × ℤ} {rs : List (ℤ × ℤ)} :
    Ordered (r :: rs) ↔ r.1 ≤ r.2 ∧ (∀ s ∈ rs, r.2 < s.1) ∧ Ordered rs := by
  constructor
  · rintro ⟨hvalid, hdis⟩
    obtain ⟨hr, hrs⟩ := List.forall_mem_cons.mp hvalid
    obtain ⟨hlt, hdis⟩ := List.pairwise_cons.mp hdis
    exact ⟨hr, hlt, hrs, hdis⟩
  · rintro ⟨hr, hlt, hrs⟩
    exact ⟨List.forall_mem_cons.mpr ⟨hr, hrs.valid⟩, List.pairwise_cons.mpr ⟨hlt, hrs.disjoint⟩⟩

theorem sublist {rs ss : List (ℤ × ℤ)} (h : Ordered rs) (hss : ss.Sublist rs) : Ordered ss :=
  ⟨fun r hr => h.valid r (hss.subset hr), h.disjoint.sublist hss⟩

theorem startSorted {rs : List (ℤ × ℤ)} (h : Ordered rs) : StartSorted rs := by
  refine h.disjoint.imp_of_mem ?_
  intro a b ha _ hab
  exact (h.valid a ha).trans hab.le

theorem append_iff {rs ss : List (ℤ × ℤ)} :
    Ordered (rs ++ ss) ↔ Ordered rs ∧ Ordered ss ∧ ∀ a ∈ rs, ∀ b ∈ ss, a.2 < b.1 := by
  constructor
  · rintro ⟨hvalid, hdis⟩
    obtain ⟨hr, hs, hrs⟩ := List.pairwise_append.mp hdis
    exact ⟨⟨fun r h => hvalid r (by simp [h]), hr⟩, ⟨fun r h => hvalid r (by simp [h]), hs⟩, hrs⟩
  · rintro ⟨hr, hs, hrs⟩
    refine ⟨?_, List.pairwise_append.mpr ⟨hr.disjoint, hs.disjoint, hrs⟩⟩
    intro r hmem
    rcases List.mem_append.mp hmem with h | h
    · exact hr.valid r h
    · exact hs.valid r h

end Ordered

theorem notMem_coverage_of_lt {rs : List (ℤ × ℤ)} {k : ℤ} (h : ∀ r ∈ rs, k < r.1) :
    k ∉ coverage rs := by
  rintro ⟨r, hr, hle, _⟩
  exact absurd (h r hr) (not_lt.mpr hle)

theorem Ordered.halfOpen {rs : List (ℤ × ℤ)} (h : Ordered rs) :
    HalfOpen.Ordered (rs.map fun r => (r.1, r.2 + 1)) := by
  refine ⟨?_, List.pairwise_map.mpr (h.disjoint.imp fun hab => Int.add_one_le_iff.mpr hab)⟩
  intro r hr
  obtain ⟨s, hs, rfl⟩ := List.mem_map.mp hr
  have := h.valid s hs
  simp only
  omega

theorem halfOpen_coverage (rs : List (ℤ × ℤ)) :
    HalfOpen.coverage (rs.map fun r => (r.1, r.2 + 1)) = coverage rs := by
  ext k
  simp only [mem_coverage, HalfOpen.mem_coverage]
  constructor
  · rintro ⟨r, hr, hlo, hhi⟩
    obtain ⟨t, ht, rfl⟩ := List.mem_map.mp hr
    exact ⟨t, ht, hlo, Int.lt_add_one_iff.mp hhi⟩
  · rintro ⟨t, ht, hlo, hhi⟩
    exact ⟨_, List.mem_map_of_mem ht, hlo, Int.lt_add_one_iff.mpr hhi⟩

theorem stepBack_halfOpen (r : ℤ × ℤ) (rs : List (ℤ × ℤ)) (k : ℤ) :
    stepBack (r.1, r.2 + 1) (rs.map fun r => (r.1, r.2 + 1)) k =
      ((stepBack r rs k).1, (stepBack r rs k).2 + 1) := by
  induction rs generalizing r with
  | nil => rfl
  | cons s rs ih =>
    by_cases hs : s.1 ≤ k
    · simpa only [stepBack, List.map_cons, if_pos hs] using ih s
    · simp only [stepBack, List.map_cons, if_neg hs]

/-- On an ordered list the range reached by stepping back from the upper bound decides
coverage. -/
theorem mem_stepBack_iff {r : ℤ × ℤ} {rs : List (ℤ × ℤ)} {k : ℤ} (h : Ordered (r :: rs)) :
    (stepBack r rs k).1 ≤ k ∧ k ≤ (stepBack r rs k).2 ↔ k ∈ coverage (r :: rs) := by
  have hback := HalfOpen.mem_stepBack_iff (k := k) h.halfOpen
  rw [stepBack_halfOpen, Set.mem_Ico, Int.lt_add_one_iff] at hback
  rw [hback, ← halfOpen_coverage (r :: rs), List.map_cons]

structure Separated (rs : List (ℤ × ℤ)) : Prop where
  valid : ∀ r ∈ rs, r.1 ≤ r.2
  gapped : rs.Pairwise (fun a b => a.2 + 1 < b.1)

namespace Separated

variable {rs ss : List (ℤ × ℤ)}

theorem nil : Separated [] := ⟨by simp, List.Pairwise.nil⟩

theorem ordered (h : Separated rs) : Ordered rs :=
  ⟨h.valid, h.gapped.imp fun hab => by omega⟩

theorem halfOpen (h : Separated rs) : HalfOpen.Normal (rs.map fun r => (r.1, r.2 + 1)) :=
  ⟨h.ordered.halfOpen.nonempty, List.pairwise_map.mpr h.gapped⟩

theorem eq_of_coverage_eq (hrs : Separated rs) (hss : Separated ss)
    (h : coverage rs = coverage ss) : rs = ss := by
  have hmap := hrs.halfOpen.eq_of_coverage_eq hss.halfOpen
    (by rw [halfOpen_coverage, halfOpen_coverage, h])
  refine List.map_injective_iff.mpr ?_ hmap
  intro a b hab
  obtain ⟨hstart, hstop⟩ := Prod.mk.inj hab
  exact Prod.ext hstart (by omega)

end Separated

section Unite

def joins (stop start : ℤ) : Bool := start ≤ stop + 1

theorem joins_iff {stop start : ℤ} : joins stop start = true ↔ start ≤ stop + 1 := by
  simp [joins]

def grow (cur r : ℤ × ℤ) : ℤ × ℤ := (cur.1, max cur.2 r.2)

/-- The run over both lists while the left one starts with `a`; `rest` goes on once `a` has been
taken. The left list is asked first, and on a new range the smaller start opens it. -/
def uniteHead (a : ℤ × ℤ) (rest : ℤ × ℤ → List (ℤ × ℤ) → List (ℤ × ℤ)) :
    ℤ × ℤ → List (ℤ × ℤ) → List (ℤ × ℤ)
  | cur, [] => if joins cur.2 a.1 then rest (grow cur a) [] else cur :: rest a []
  | cur, b :: bs =>
    if joins cur.2 a.1 then rest (grow cur a) (b :: bs)
    else if joins cur.2 b.1 then uniteHead a rest (grow cur b) bs
    else if a.1 ≤ b.1 then cur :: rest a (b :: bs)
    else cur :: uniteHead a rest b bs

def unite : List (ℤ × ℤ) → ℤ × ℤ → List (ℤ × ℤ) → List (ℤ × ℤ)
  | [], cur, bs => coalesceBy joins cur bs
  | a :: as, cur, bs => uniteHead a (unite as) cur bs

def uniteAll : List (ℤ × ℤ) → List (ℤ × ℤ) → List (ℤ × ℤ)
  | [], [] => []
  | [], b :: bs => unite [] b bs
  | a :: as, [] => unite as a []
  | a :: as, b :: bs => if a.1 ≤ b.1 then unite as a (b :: bs) else unite (a :: as) b bs

/-- What a run that has opened `cur` and still has the keys `s` ahead of it puts out. -/
structure Unites (cur : ℤ × ℤ) (s : Set ℤ) (out : List (ℤ × ℤ)) : Prop where
  coverage_eq : coverage out = Set.Icc cur.1 cur.2 ∪ s
  start_le : ∀ r ∈ out, cur.1 ≤ r.1
  valid : ∀ r ∈ out, r.1 ≤ r.2
  gapped : out.Pairwise (fun a b => a.2 + 1 < b.1)

namespace Unites

variable {cur r : ℤ × ℤ} {s : Set ℤ} {out : List (ℤ × ℤ)}

theorem single (h : cur.1 ≤ cur.2) : Unites cur ∅ [cur] :=
  ⟨by simp, by simp, by simpa using h, List.pairwise_singleton _ _⟩

theorem grow (h : Unites (grow cur r) s out) (hle : cur.1 ≤ r.1) (hj : joins cur.2 r.1 = true) :
    Unites cur (Set.Icc r.1 r.2 ∪ s) out := by
  rw [joins_iff] at hj
  refine ⟨?_, h.start_le, h.valid, h.gapped⟩
  rw [h.coverage_eq, ← Set.union_assoc]
  congr 1
  ext k
  simp only [ClosedRange.grow, Set.mem_union, Set.mem_Icc, le_max_iff]
  omega

theorem emit (h : Unites r s out) (hcur : cur.1 ≤ cur.2) (hj : ¬ joins cur.2 r.1 = true) :
    Unites cur (Set.Icc r.1 r.2 ∪ s) (cur :: out) := by
  rw [joins_iff] at hj
  refine ⟨by rw [coverage_cons, h.coverage_eq], ?_, ?_, ?_⟩
  · refine List.forall_mem_cons.mpr ⟨le_rfl, fun a ha => ?_⟩
    have := h.start_le a ha
    omega
  · exact List.forall_mem_cons.mpr ⟨hcur, h.valid⟩
  · refine List.pairwise_cons.mpr ⟨fun a ha => ?_, h.gapped⟩
    have := h.start_le a ha
    omega

theorem separated (h : Unites cur s out) : Separated out := ⟨h.valid, h.gapped⟩

theorem ordered (h : Unites cur s out) : Ordered out := h.separated.ordered

end Unites

theorem grow_valid {cur r : ℤ × ℤ} (h : cur.1 ≤ cur.2) : (grow cur r).1 ≤ (grow cur r).2 :=
  le_max_of_le_left h

theorem unites_coalesceBy {cur : ℤ × ℤ} {bs : List (ℤ × ℤ)} (hcur : cur.1 ≤ cur.2)
    (hbs : StartSorted (cur :: bs)) (hvalid : ∀ b ∈ bs, b.1 ≤ b.2) :
    Unites cur (coverage bs) (coalesceBy joins cur bs) := by
  induction bs generalizing cur with
  | nil =>
    rw [coverage_nil]
    exact Unites.single hcur
  | cons b bs ih =>
    obtain ⟨hle, hsorted⟩ := List.pairwise_cons.mp hbs
    obtain ⟨hb, hvalid⟩ := List.forall_mem_cons.mp hvalid
    rw [coverage_cons]
    by_cases hj : joins cur.2 b.1 = true
    · rw [coalesceBy, if_pos hj]
      exact (ih (grow_valid hcur) (HalfOpen.startSorted_grow _ hbs) hvalid).grow
        (hle b (by simp)) hj
    · rw [coalesceBy, if_neg hj]
      exact (ih hb hsorted hvalid).emit hcur hj

/-- One left range against the right list, given that `rest` is right for every current range
and every right list. -/
theorem unites_uniteHead {a : ℤ × ℤ} {s : Set ℤ}
    {rest : ℤ × ℤ → List (ℤ × ℤ) → List (ℤ × ℤ)} (ha : a.1 ≤ a.2)
    (hrest : ∀ cur bs, cur.1 ≤ cur.2 → StartSorted (cur :: bs) → cur.1 ≤ a.1 →
      (∀ b ∈ bs, b.1 ≤ b.2) → Unites cur (s ∪ coverage bs) (rest cur bs))
    {cur : ℤ × ℤ} {bs : List (ℤ × ℤ)} (hcur : cur.1 ≤ cur.2) (hbs : StartSorted (cur :: bs))
    (hca : cur.1 ≤ a.1) (hvalid : ∀ b ∈ bs, b.1 ≤ b.2) :
    Unites cur (Set.Icc a.1 a.2 ∪ (s ∪ coverage bs)) (uniteHead a rest cur bs) := by
  induction bs generalizing cur with
  | nil =>
    by_cases hj : joins cur.2 a.1 = true
    · rw [uniteHead, if_pos hj]
      exact (hrest _ _ (grow_valid hcur) (List.pairwise_singleton _ _) hca hvalid).grow hca hj
    · rw [uniteHead, if_neg hj]
      exact (hrest _ _ ha (List.pairwise_singleton _ _) le_rfl hvalid).emit hcur hj
  | cons b bs ih =>
    obtain ⟨hle, hsorted⟩ := List.pairwise_cons.mp hbs
    obtain ⟨hb, hvalid'⟩ := List.forall_mem_cons.mp hvalid
    have hswap : Set.Icc a.1 a.2 ∪ (s ∪ coverage (b :: bs)) =
        Set.Icc b.1 b.2 ∪ (Set.Icc a.1 a.2 ∪ (s ∪ coverage bs)) := by
      rw [coverage_cons, Set.union_left_comm s, Set.union_left_comm (Set.Icc a.1 a.2)]
    by_cases hj : joins cur.2 a.1 = true
    · rw [uniteHead, if_pos hj]
      refine (hrest (grow cur a) _ (grow_valid hcur) ?_ hca hvalid).grow hca hj
      exact List.pairwise_cons.mpr ⟨hle, hsorted⟩
    by_cases hjb : joins cur.2 b.1 = true
    · rw [uniteHead, if_neg hj, if_pos hjb, hswap]
      exact (ih (grow_valid hcur) (HalfOpen.startSorted_grow _ hbs) hca hvalid').grow
        (hle b (by simp)) hjb
    by_cases hab : a.1 ≤ b.1
    · rw [uniteHead, if_neg hj, if_neg hjb, if_pos hab]
      refine (hrest a _ ha ?_ le_rfl hvalid).emit hcur hj
      refine List.pairwise_cons.mpr ⟨?_, hsorted⟩
      exact List.forall_mem_cons.mpr
        ⟨hab, fun c hc => hab.trans ((List.pairwise_cons.mp hsorted).1 c hc)⟩
    · rw [uniteHead, if_neg hj, if_neg hjb, if_neg hab, hswap]
      exact (ih hb hsorted (by omega) hvalid').emit hcur hjb

theorem unites_unite {as bs : List (ℤ × ℤ)} {cur : ℤ × ℤ} (hcur : cur.1 ≤ cur.2)
    (has : StartSorted (cur :: as)) (hbs : StartSorted (cur :: bs))
    (hva : ∀ a ∈ as, a.1 ≤ a.2) (hvb : ∀ b ∈ bs, b.1 ≤ b.2) :
    Unites cur (coverage as ∪ coverage bs) (unite as cur bs) := by
  induction as generalizing cur bs with
  | nil =>
    rw [coverage_nil, Set.empty_union]
    exact unites_coalesceBy hcur hbs hvb
  | cons a as ih =>
    obtain ⟨hle, hsorted⟩ := List.pairwise_cons.mp has
    obtain ⟨ha, hva⟩ := List.forall_mem_cons.mp hva
    rw [coverage_cons, Set.union_assoc]
    refine unites_uniteHead ha ?_ hcur hbs (hle a (by simp)) hvb
    intro cur' bs' hcur' hbs' hca hvb'
    refine ih hcur' ?_ hbs' hva hvb'
    exact List.pairwise_cons.mpr
      ⟨fun x hx => hca.trans ((List.pairwise_cons.mp hsorted).1 x hx), hsorted.tail⟩

theorem unites_uniteAll {as bs : List (ℤ × ℤ)} (has : StartSorted as) (hbs : StartSorted bs)
    (hva : ∀ a ∈ as, a.1 ≤ a.2) (hvb : ∀ b ∈ bs, b.1 ≤ b.2) (hne : as ≠ [] ∨ bs ≠ []) :
    ∃ cur s, Unites cur s (uniteAll as bs) ∧
      Set.Icc cur.1 cur.2 ∪ s = coverage as ∪ coverage bs := by
  cases as with
  | nil =>
    cases bs with
    | nil => simp at hne
    | cons b bs =>
      obtain ⟨hb, hvb⟩ := List.forall_mem_cons.mp hvb
      exact ⟨b, _, unites_unite hb (List.pairwise_singleton _ b) hbs (by simp) hvb, by simp⟩
  | cons a as =>
    obtain ⟨ha, hva'⟩ := List.forall_mem_cons.mp hva
    cases bs with
    | nil =>
      exact ⟨a, _, unites_unite ha has (List.pairwise_singleton _ a) hva' (by simp), by simp⟩
    | cons b bs =>
      obtain ⟨hb, hvb'⟩ := List.forall_mem_cons.mp hvb
      obtain ⟨hlea, hsa⟩ := List.pairwise_cons.mp has
      obtain ⟨hleb, hsb⟩ := List.pairwise_cons.mp hbs
      by_cases hab : a.1 ≤ b.1
      · have hab' : StartSorted (a :: b :: bs) := List.pairwise_cons.mpr
          ⟨List.forall_mem_cons.mpr ⟨hab, fun c hc => hab.trans (hleb c hc)⟩, hbs⟩
        rw [uniteAll, if_pos hab]
        refine ⟨a, _, unites_unite ha has hab' hva' hvb, ?_⟩
        rw [coverage_cons a, Set.union_assoc]
      · have hba : StartSorted (b :: a :: as) := List.pairwise_cons.mpr
          ⟨List.forall_mem_cons.mpr
            ⟨by omega, fun c hc => (not_le.mp hab).le.trans (hlea c hc)⟩, has⟩
        rw [uniteAll, if_neg hab]
        refine ⟨b, _, unites_unite hb hba hbs hva hvb', ?_⟩
        rw [coverage_cons b, Set.union_left_comm]

theorem separated_uniteAll {as bs : List (ℤ × ℤ)} (has : StartSorted as) (hbs : StartSorted bs)
    (hva : ∀ a ∈ as, a.1 ≤ a.2) (hvb : ∀ b ∈ bs, b.1 ≤ b.2) :
    coverage (uniteAll as bs) = coverage as ∪ coverage bs ∧ Separated (uniteAll as bs) := by
  by_cases hne : as ≠ [] ∨ bs ≠ []
  · obtain ⟨cur, s, h, hcov⟩ := unites_uniteAll has hbs hva hvb hne
    exact ⟨h.coverage_eq.trans hcov, h.separated⟩
  · push Not at hne
    obtain ⟨rfl, rfl⟩ := hne
    exact ⟨by simp [uniteAll], Separated.nil⟩

theorem uniteAll_spec {as bs : List (ℤ × ℤ)} (has : StartSorted as) (hbs : StartSorted bs)
    (hva : ∀ a ∈ as, a.1 ≤ a.2) (hvb : ∀ b ∈ bs, b.1 ≤ b.2) :
    coverage (uniteAll as bs) = coverage as ∪ coverage bs ∧ Ordered (uniteAll as bs) :=
  (separated_uniteAll has hbs hva hvb).imp_right Separated.ordered

end Unite

end ClosedRange
