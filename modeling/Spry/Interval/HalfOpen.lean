import Mathlib

/-!
# Lists of half-open ranges over a linear order

A range list stands for the set of keys its ranges cover. `Ordered` lists are ascending with
non-empty ranges that may touch; `Gapped` lists additionally leave a gap between neighbours.
The point search below steps back from an upper bound, and on an ordered list it decides
membership in the coverage.
-/

namespace HalfOpen

section Scan

variable {α : Type*} {p : α → Bool} {l : List α} {a : α}

theorem mem_takeWhile_iff (h : l.Pairwise (fun a b => p b → p a)) :
    a ∈ l.takeWhile p ↔ a ∈ l ∧ p a := by
  induction l with
  | nil => simp
  | cons c l ih =>
    obtain ⟨hc, hl⟩ := List.pairwise_cons.mp h
    by_cases hpc : p c
    · rw [List.takeWhile_cons_of_pos hpc, List.mem_cons, List.mem_cons, ih hl]
      constructor
      · rintro (rfl | ⟨ha, hpa⟩)
        · exact ⟨Or.inl rfl, hpc⟩
        · exact ⟨Or.inr ha, hpa⟩
      · rintro ⟨rfl | ha, hpa⟩
        · exact Or.inl rfl
        · exact Or.inr ⟨ha, hpa⟩
    · rw [List.takeWhile_cons_of_neg hpc]
      refine iff_of_false (by simp) ?_
      rintro ⟨ha, hpa⟩
      rcases List.mem_cons.mp ha with rfl | ha
      · exact hpc hpa
      · exact hpc (hc a ha hpa)

theorem mem_dropWhile_iff (h : l.Pairwise (fun a b => p b → p a)) :
    a ∈ l.dropWhile p ↔ a ∈ l ∧ ¬ p a := by
  induction l with
  | nil => simp
  | cons c l ih =>
    obtain ⟨hc, hl⟩ := List.pairwise_cons.mp h
    by_cases hpc : p c
    · rw [List.dropWhile_cons_of_pos hpc, ih hl, List.mem_cons]
      constructor
      · rintro ⟨ha, hpa⟩
        exact ⟨Or.inr ha, hpa⟩
      · rintro ⟨rfl | ha, hpa⟩
        · exact absurd hpc hpa
        · exact ⟨ha, hpa⟩
    · rw [List.dropWhile_cons_of_neg hpc]
      refine ⟨fun ha => ⟨ha, ?_⟩, And.left⟩
      rcases List.mem_cons.mp ha with rfl | ha
      · exact hpc
      · exact fun hpa => hpc (hc a ha hpa)

theorem takeWhile_eq_filter (h : l.Pairwise (fun a b => p b → p a)) :
    l.takeWhile p = l.filter p := by
  induction l with
  | nil => rfl
  | cons c l ih =>
    obtain ⟨hc, hl⟩ := List.pairwise_cons.mp h
    by_cases hpc : p c
    · rw [List.takeWhile_cons_of_pos hpc, List.filter_cons_of_pos hpc, ih hl]
    · rw [List.takeWhile_cons_of_neg hpc, List.filter_cons_of_neg hpc, eq_comm,
        List.filter_eq_nil_iff]
      exact fun a ha hpa => hpc (hc a ha hpa)

end Scan

variable {K : Type*} [LinearOrder K]

/-- The keys covered by some range `[first, second)` of the list. -/
def coverage (rs : List (K × K)) : Set K := {k | ∃ r ∈ rs, k ∈ Set.Ico r.1 r.2}

theorem mem_coverage {rs : List (K × K)} {k : K} :
    k ∈ coverage rs ↔ ∃ r ∈ rs, r.1 ≤ k ∧ k < r.2 := Iff.rfl

instance (rs : List (K × K)) (k : K) : Decidable (k ∈ coverage rs) :=
  decidable_of_iff (∃ r ∈ rs, r.1 ≤ k ∧ k < r.2) mem_coverage.symm

@[simp] theorem coverage_nil : coverage ([] : List (K × K)) = ∅ := by
  ext k; simp [coverage]

@[simp] theorem coverage_cons (r : K × K) (rs : List (K × K)) :
    coverage (r :: rs) = Set.Ico r.1 r.2 ∪ coverage rs := by
  ext k; simp [coverage]

@[simp] theorem coverage_append (rs ss : List (K × K)) :
    coverage (rs ++ ss) = coverage rs ∪ coverage ss := by
  ext k; simp [coverage, or_and_right, exists_or]

theorem coverage_perm {rs ss : List (K × K)} (h : rs.Perm ss) : coverage rs = coverage ss := by
  ext k; simp only [mem_coverage, h.mem_iff]

theorem mem_coverage_map {f : K → K} {s : Set K} (hf : StrictMonoOn f s) {rs : List (K × K)}
    {k : K} (hk : k ∈ s) (hrs : ∀ r ∈ rs, r.1 ∈ s ∧ r.2 ∈ s) :
    f k ∈ coverage (rs.map fun r => (f r.1, f r.2)) ↔ k ∈ coverage rs := by
  constructor
  · intro h
    obtain ⟨_, himage, hcov⟩ := h
    obtain ⟨r, hr, rfl⟩ := List.mem_map.mp himage
    obtain ⟨hstart, hstop⟩ := hrs r hr
    exact ⟨r, hr, (hf.le_iff_le hstart hk).mp hcov.1, (hf.lt_iff_lt hk hstop).mp hcov.2⟩
  · intro h
    obtain ⟨r, hr, hcov⟩ := h
    obtain ⟨hstart, hstop⟩ := hrs r hr
    exact ⟨_, List.mem_map_of_mem hr, (hf.le_iff_le hstart hk).mpr hcov.1,
      (hf.lt_iff_lt hk hstop).mpr hcov.2⟩

/-- Starts do not decrease along the list. -/
abbrev StartSorted (rs : List (K × K)) : Prop := rs.Pairwise (fun a b => a.1 ≤ b.1)

/-- Ascending non-empty ranges, pairwise disjoint; neighbours may touch. -/
structure Ordered (rs : List (K × K)) : Prop where
  nonempty : ∀ r ∈ rs, r.1 < r.2
  disjoint : rs.Pairwise (fun a b => a.2 ≤ b.1)

instance (rs : List (K × K)) : Decidable (Ordered rs) :=
  decidable_of_iff ((∀ r ∈ rs, r.1 < r.2) ∧ rs.Pairwise (fun a b => a.2 ≤ b.1))
    ⟨fun h => ⟨h.1, h.2⟩, fun h => ⟨h.nonempty, h.disjoint⟩⟩

/-- Neighbours leave a gap: each range ends strictly before the next one starts. -/
abbrev Gapped (rs : List (K × K)) : Prop := rs.Pairwise (fun a b => a.2 < b.1)

theorem eq_or_rel_of_pairwise {α : Type*} {R : α → α → Prop} {rs : List α} (h : rs.Pairwise R)
    {r s : α} (hr : r ∈ rs) (hs : s ∈ rs) : r = s ∨ R r s ∨ R s r := by
  by_cases heq : r = s
  · exact Or.inl heq
  · refine Or.inr ?_
    have hsymm : Std.Symm (fun a b : α => R a b ∨ R b a) := ⟨fun _ _ => Or.symm⟩
    have hpair : rs.Pairwise (fun a b => R a b ∨ R b a) := h.imp Or.inl
    exact hpair.forall hr hs heq

structure WeaklyOrdered (rs : List (K × K)) : Prop where
  le : ∀ r ∈ rs, r.1 ≤ r.2
  disjoint : rs.Pairwise (fun a b => a.2 ≤ b.1)

theorem Ordered.weaklyOrdered {rs : List (K × K)} (h : Ordered rs) : WeaklyOrdered rs :=
  ⟨fun r hr => (h.nonempty r hr).le, h.disjoint⟩

theorem WeaklyOrdered.sublist {rs ss : List (K × K)} (h : WeaklyOrdered rs)
    (hss : ss.Sublist rs) : WeaklyOrdered ss :=
  ⟨fun r hr => h.le r (hss.subset hr), h.disjoint.sublist hss⟩

theorem WeaklyOrdered.apart {rs : List (K × K)} (h : WeaklyOrdered rs) {r s : K × K}
    (hr : r ∈ rs) (hs : s ∈ rs) : r = s ∨ r.2 ≤ s.1 ∨ s.2 ≤ r.1 :=
  eq_or_rel_of_pairwise h.disjoint hr hs

theorem Gapped.apart {rs : List (K × K)} (h : Gapped rs) {r s : K × K}
    (hr : r ∈ rs) (hs : s ∈ rs) : r = s ∨ r.2 < s.1 ∨ s.2 < r.1 :=
  eq_or_rel_of_pairwise h hr hs

namespace Ordered

theorem nil : Ordered ([] : List (K × K)) := ⟨by simp, List.Pairwise.nil⟩

theorem cons_iff {r : K × K} {rs : List (K × K)} :
    Ordered (r :: rs) ↔ r.1 < r.2 ∧ (∀ s ∈ rs, r.2 ≤ s.1) ∧ Ordered rs := by
  constructor
  · rintro ⟨hne, hdis⟩
    rw [List.pairwise_cons] at hdis
    exact ⟨hne r (by simp), hdis.1, ⟨fun s hs => hne s (by simp [hs]), hdis.2⟩⟩
  · rintro ⟨hr, hlt, hrs⟩
    refine ⟨?_, List.pairwise_cons.mpr ⟨hlt, hrs.disjoint⟩⟩
    intro s hs
    rcases List.mem_cons.mp hs with rfl | hs
    · exact hr
    · exact hrs.nonempty s hs

theorem tail {r : K × K} {rs : List (K × K)} (h : Ordered (r :: rs)) : Ordered rs :=
  (cons_iff.mp h).2.2

theorem sublist {rs ss : List (K × K)} (h : Ordered rs) (hss : ss.Sublist rs) : Ordered ss :=
  ⟨fun r hr => h.nonempty r (hss.subset hr), h.disjoint.sublist hss⟩

theorem nodup {rs : List (K × K)} (h : Ordered rs) : rs.Nodup := by
  refine h.disjoint.imp_of_mem ?_
  rintro a _ ha _ hab rfl
  exact absurd (h.nonempty a ha) (not_lt.mpr hab)

theorem startSorted {rs : List (K × K)} (h : Ordered rs) : StartSorted rs := by
  refine h.disjoint.imp_of_mem ?_
  intro a b ha _ hab
  exact (h.nonempty a ha).le.trans hab

theorem apart {rs : List (K × K)} (h : Ordered rs) {r s : K × K} (hr : r ∈ rs) (hs : s ∈ rs) :
    r = s ∨ r.2 ≤ s.1 ∨ s.2 ≤ r.1 :=
  h.weaklyOrdered.apart hr hs

theorem not_start_inside {rs : List (K × K)} (h : Ordered rs) {r s : K × K} (hr : r ∈ rs)
    (hs : s ∈ rs) (hlo : r.1 < s.1) : ¬ s.1 < r.2 := by
  intro hhi
  have hsne := h.nonempty s hs
  rcases h.apart hr hs with heq | hle | hle
  · exact absurd hlo (by rw [heq]; exact lt_irrefl _)
  · exact absurd hhi (not_lt.mpr hle)
  · exact absurd (hlo.trans hsne) (not_lt.mpr hle)

theorem not_end_inside {rs : List (K × K)} (h : Ordered rs) {r s : K × K} (hr : r ∈ rs)
    (hs : s ∈ rs) (hlo : r.1 < s.2) : ¬ s.2 < r.2 := by
  intro hhi
  have hsne := h.nonempty s hs
  rcases h.apart hr hs with heq | hle | hle
  · exact absurd hhi (by rw [heq]; exact lt_irrefl _)
  · exact absurd (hsne.trans hhi) (not_lt.mpr hle)
  · exact absurd hlo (not_lt.mpr hle)

theorem append {rs ss : List (K × K)} (hr : Ordered rs) (hs : Ordered ss)
    (hrs : ∀ a ∈ rs, ∀ b ∈ ss, a.2 ≤ b.1) : Ordered (rs ++ ss) := by
  refine ⟨?_, List.pairwise_append.mpr ⟨hr.disjoint, hs.disjoint, hrs⟩⟩
  intro r hmem
  rcases List.mem_append.mp hmem with h | h
  · exact hr.nonempty r h
  · exact hs.nonempty r h

theorem filter_end_of_start_lt {rs : List (K × K)} (h : Ordered rs) {k : K}
    (hlt : ∀ r ∈ rs, r.1 < k) :
    rs.filter (fun r => k < r.2) = (rs.getLast?.filter fun r => k < r.2).toList := by
  cases rs using List.reverseRecOn with
  | nil => rfl
  | append_singleton before prev =>
    have hshort : before.filter (fun r => k < r.2) = [] := by
      rw [List.filter_eq_nil_iff]
      intro r hr
      have hend : r.2 ≤ prev.1 := (List.pairwise_append.mp h.disjoint).2.2 r hr prev (by simp)
      simpa using hend.trans (hlt prev (by simp)).le
    rw [List.filter_append, hshort, List.nil_append, List.getLast?_concat]
    by_cases hreach : k < prev.2
    · simp [Option.filter, hreach]
    · simp [Option.filter, not_lt.mp hreach]

end Ordered

theorem Gapped.ordered {rs : List (K × K)} (hg : Gapped rs) (hne : ∀ r ∈ rs, r.1 < r.2) :
    Ordered rs := ⟨hne, hg.imp le_of_lt⟩

theorem notMem_coverage_of_lt {rs : List (K × K)} {k : K} (h : ∀ r ∈ rs, k < r.1) :
    k ∉ coverage rs := by
  rintro ⟨r, hr, hle, _⟩
  exact absurd (h r hr) (not_lt.mpr hle)

/-- The range reached by stepping back once from the upper bound of `k` on the starts: the last
range that starts at or before `k`, or the first range if none does. -/
def stepBack : K × K → List (K × K) → K → K × K
  | r, [], _ => r
  | r, s :: rs, k => if s.1 ≤ k then stepBack s rs k else r

theorem mem_stepBack_iff {r : K × K} {rs : List (K × K)} {k : K} (h : Ordered (r :: rs)) :
    k ∈ Set.Ico (stepBack r rs k).1 (stepBack r rs k).2 ↔ k ∈ coverage (r :: rs) := by
  induction rs generalizing r with
  | nil => simp [stepBack]
  | cons s rs ih =>
    obtain ⟨hr, hlt, hrs⟩ := Ordered.cons_iff.mp h
    have hrs1 : r.2 ≤ s.1 := hlt s (by simp)
    by_cases hs : s.1 ≤ k
    · have hnot : k ∉ Set.Ico r.1 r.2 := fun hk => absurd (hk.2.trans_le hrs1) (not_lt.mpr hs)
      rw [stepBack, if_pos hs, ih hrs, coverage_cons r, Set.mem_union]
      exact ⟨Or.inr, fun hk => hk.resolve_left hnot⟩
    · have hnot : k ∉ coverage (s :: rs) := by
        apply notMem_coverage_of_lt
        intro a ha
        rcases List.mem_cons.mp ha with rfl | ha
        · exact not_le.mp hs
        · exact (not_le.mp hs).trans_le
            ((hrs.startSorted |> List.pairwise_cons.mp).1 a ha)
      rw [stepBack, if_neg hs, coverage_cons r, Set.mem_union]
      exact ⟨Or.inl, fun hk => hk.resolve_right hnot⟩

end HalfOpen
