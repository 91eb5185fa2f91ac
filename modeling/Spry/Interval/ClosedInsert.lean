import Spry.Interval.ClosedSubtract

/-!
# Closed ranges in an ordered set of pairs

The set keeps its pairs in lexicographic order, as a list here. A pair that has no key in common
with the others is inserted in its place, and a search for a key stops one pair before the first
one behind the key.
-/

namespace ClosedRange

def pairLt (a b : ℤ × ℤ) : Prop := a.1 < b.1 ∨ a.1 = b.1 ∧ a.2 < b.2

instance (a b : ℤ × ℤ) : Decidable (pairLt a b) := inferInstanceAs (Decidable (_ ∨ _))

def insertPair (p : ℤ × ℤ) : List (ℤ × ℤ) → List (ℤ × ℤ)
  | [] => [p]
  | r :: rs => if pairLt p r then p :: r :: rs else if p = r then r :: rs else r :: insertPair p rs

def insertPairs (ps rs : List (ℤ × ℤ)) : List (ℤ × ℤ) := ps.foldl (fun rs p => insertPair p rs) rs

/-- The set cut at the iterator that stands on the upper bound of `(k, k)`, moved back by one
unless it is the first. -/
def seekBack (k : ℤ) (rs : List (ℤ × ℤ)) : List (ℤ × ℤ) × List (ℤ × ℤ) :=
  rs.splitAt ((rs.takeWhile fun r => ¬ pairLt (k, k) r).length - 1)

def Apart (a b : ℤ × ℤ) : Prop := a.2 < b.1 ∨ b.2 < a.1

theorem Apart.symm {a b : ℤ × ℤ} (h : Apart a b) : Apart b a := Or.symm h

theorem Ordered.apart {rs : List (ℤ × ℤ)} (h : Ordered rs) : rs.Pairwise Apart :=
  h.disjoint.imp fun hab => Or.inl hab

theorem Ordered.eq_or_lt_of_mem {r s : ℤ × ℤ} {rs : List (ℤ × ℤ)} (h : Ordered (r :: rs))
    (hs : s ∈ r :: rs) : s = r ∨ s ∈ rs ∧ r.2 < s.1 := by
  rcases List.mem_cons.mp hs with rfl | hs
  · exact Or.inl rfl
  · exact Or.inr ⟨hs, (Ordered.cons_iff.mp h).2.1 s hs⟩

theorem disjoint_Icc_iff {r s : ℤ × ℤ} (hr : r.1 ≤ r.2) (hs : s.1 ≤ s.2) :
    Disjoint (Set.Icc r.1 r.2) (Set.Icc s.1 s.2) ↔ Apart r s := by
  rw [Set.disjoint_left]
  constructor
  · intro h
    by_contra hn
    rw [Apart] at hn
    refine h (a := max r.1 s.1) ?_ ?_
    · exact ⟨le_max_left _ _, max_le hr (by omega)⟩
    · exact ⟨le_max_right _ _, max_le (by omega) hs⟩
  · rintro h k ⟨h₁, h₂⟩ ⟨h₃, h₄⟩
    rcases h with h | h
    · omega
    · omega

section Insert

variable {p : ℤ × ℤ} {ps rs : List (ℤ × ℤ)}

theorem mem_insertPair {r : ℤ × ℤ} : r ∈ insertPair p rs ↔ r = p ∨ r ∈ rs := by
  induction rs with
  | nil => simp [insertPair]
  | cons s rs ih =>
    rw [insertPair]
    split_ifs with hlt heq
    · simp
    · rw [heq]
      simp
    · rw [List.mem_cons, ih, List.mem_cons]
      exact or_left_comm

theorem coverage_insertPair : coverage (insertPair p rs) = Set.Icc p.1 p.2 ∪ coverage rs := by
  ext k
  simp only [mem_coverage, mem_insertPair, or_and_right, exists_or, exists_eq_left, Set.mem_union,
    Set.mem_Icc]

theorem ordered_insertPair (hp : p.1 ≤ p.2) (hrs : Ordered rs) (h : ∀ r ∈ rs, Apart p r) :
    Ordered (insertPair p rs) := by
  induction rs with
  | nil => exact Ordered.cons_iff.mpr ⟨hp, by simp, Ordered.nil⟩
  | cons r rs ih =>
    obtain ⟨hr, hlt, hrs'⟩ := Ordered.cons_iff.mp hrs
    obtain ⟨hpr, h⟩ := List.forall_mem_cons.mp h
    rw [insertPair]
    split_ifs with hbefore heq
    · have hpr' : p.2 < r.1 := by
        rcases hpr with hpr | hpr
        · exact hpr
        · rcases hbefore with hlt | ⟨heq, _⟩
          · omega
          · omega
      refine Ordered.cons_iff.mpr ⟨hp, List.forall_mem_cons.mpr ⟨hpr', fun s hs => ?_⟩, hrs⟩
      have := hlt s hs
      omega
    · subst heq
      rcases hpr with hpr | hpr
      · omega
      · omega
    · have hrp : r.2 < p.1 := by
        rcases hpr with hpr | hpr
        · exact absurd (Or.inl (hp.trans_lt hpr)) hbefore
        · exact hpr
      refine Ordered.cons_iff.mpr ⟨hr, fun s hs => ?_, ih hrs' h⟩
      rcases mem_insertPair.mp hs with rfl | hs
      · exact hrp
      · exact hlt s hs

theorem coverage_insertPairs : coverage (insertPairs ps rs) = coverage ps ∪ coverage rs := by
  induction ps generalizing rs with
  | nil => simp [insertPairs]
  | cons p ps ih =>
    rw [insertPairs, List.foldl_cons, ← insertPairs, ih, coverage_insertPair, coverage_cons,
      ← Set.union_assoc, Set.union_comm (coverage ps)]

theorem ordered_insertPairs (hps : ∀ p ∈ ps, p.1 ≤ p.2) (hrs : Ordered rs)
    (h : (ps ++ rs).Pairwise Apart) : Ordered (insertPairs ps rs) := by
  induction ps generalizing rs with
  | nil => exact hrs
  | cons p ps ih =>
    obtain ⟨hp, hps⟩ := List.forall_mem_cons.mp hps
    obtain ⟨hfirst, h⟩ := List.pairwise_cons.mp h
    obtain ⟨hpp, _, hcross⟩ := List.pairwise_append.mp h
    have hord := ordered_insertPair hp hrs fun r hr => hfirst r (List.mem_append_right _ hr)
    refine ih hps hord (List.pairwise_append.mpr ⟨hpp, hord.apart, fun q hq r hr => ?_⟩)
    rcases mem_insertPair.mp hr with rfl | hr
    · exact (hfirst q (List.mem_append_left _ hq)).symm
    · exact hcross q hq r hr

end Insert

section Seek

variable {k : ℤ} {rs : List (ℤ × ℤ)}

theorem seekBack_append : (seekBack k rs).1 ++ (seekBack k rs).2 = rs := by
  rw [seekBack, List.splitAt_eq]
  exact List.take_append_drop _ rs

theorem exists_upperBound (h : Ordered rs) : ∃ le gt, rs = le ++ gt ∧
    seekBack k rs = rs.splitAt (le.length - 1) ∧ (∀ r ∈ le, r.1 ≤ k ∧ (r.1 = k → r.2 = k)) ∧
    ∀ r ∈ gt, k ≤ r.1 ∧ (r.1 = k → k < r.2) := by
  refine ⟨rs.takeWhile fun r => ¬ pairLt (k, k) r, rs.dropWhile fun r => ¬ pairLt (k, k) r,
    List.takeWhile_append_dropWhile.symm, rfl, fun r hr => ?_, ?_⟩
  · have hle : ¬ pairLt (k, k) r := by simpa using List.mem_takeWhile_imp hr
    have hvalid := h.valid r (List.takeWhile_subset _ hr)
    simp only [pairLt, not_or, not_and] at hle
    omega
  · -- the first pair behind the bound is not below it, and the others follow it
    have hsub : Ordered (rs.dropWhile fun r => ¬ pairLt (k, k) r) :=
      h.sublist (List.dropWhile_sublist _)
    cases hgt : rs.dropWhile fun r => ¬ pairLt (k, k) r with
    | nil => simp
    | cons g gs =>
      rw [hgt] at hsub
      obtain ⟨hg, hlt, _⟩ := Ordered.cons_iff.mp hsub
      have hhead : pairLt (k, k) g := by
        have hfirst := List.head?_dropWhile_not (fun r => decide (¬ pairLt (k, k) r)) rs
        rw [hgt] at hfirst
        simpa using hfirst
      simp only [pairLt] at hhead
      refine List.forall_mem_cons.mpr ⟨by omega, fun r hr => ?_⟩
      have := hlt r hr
      omega

theorem lt_of_mem_seekBack (h : Ordered rs) : ∀ r ∈ (seekBack k rs).1, r.2 < k := by
  obtain ⟨le, gt, hrs, hseek, hle, _⟩ := exists_upperBound (k := k) h
  intro r hr
  rw [hseek, List.splitAt_eq, hrs] at hr
  rcases List.eq_nil_or_concat' le with rfl | ⟨init, last, rfl⟩
  · simp at hr
  · rw [List.length_append, List.length_singleton, Nat.add_sub_cancel, List.append_assoc] at hr
    have hr : r ∈ init := by simpa using hr
    rw [hrs, List.append_assoc] at h
    have hlt := (Ordered.append_iff.mp h).2.2 r hr last (by simp)
    exact hlt.trans_le (hle last (by simp)).1

end Seek

end ClosedRange
