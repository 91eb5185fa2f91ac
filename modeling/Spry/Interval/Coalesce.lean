import Spry.Interval.HalfOpen

/-!
# Coalescing range lists

`coalesceBy` runs once over a list sorted by start and grows a current range while a test joins
the next one to it; `coalesce` joins a range that starts no later than the current end. The run
keeps the coverage, and what it emits is apart. Interleaving two sorted lists first gives the
union of two range lists.
-/

namespace HalfOpen

variable {K : Type*} [LinearOrder K]

/-- Grow `cur` over the ranges whose start joins its end, emit it before the first other one. -/
def coalesceBy (joins : K → K → Bool) : K × K → List (K × K) → List (K × K)
  | cur, [] => [cur]
  | cur, r :: rs =>
    if joins cur.2 r.1 then coalesceBy joins (cur.1, max cur.2 r.2) rs
    else cur :: coalesceBy joins r rs

theorem coalesceBy_ne_nil {joins : K → K → Bool} (cur : K × K) (rs : List (K × K)) :
    coalesceBy joins cur rs ≠ [] := by
  induction rs generalizing cur with
  | nil => exact List.cons_ne_nil _ _
  | cons r rs ih =>
    rw [coalesceBy]
    split_ifs
    · exact ih _
    · exact List.cons_ne_nil _ _

def coalesce (cur : K × K) (rs : List (K × K)) : List (K × K) :=
  coalesceBy (fun stop start => start ≤ stop) cur rs

theorem Ico_union_grow {a b c d : K} (hac : a ≤ c) (hcb : c ≤ b) :
    Set.Ico a b ∪ Set.Ico c d = Set.Ico a (max b d) := by
  ext k
  simp only [Set.mem_union, Set.mem_Ico, lt_max_iff]
  constructor
  · rintro (⟨h₁, h₂⟩ | ⟨h₁, h₂⟩)
    · exact ⟨h₁, Or.inl h₂⟩
    · exact ⟨hac.trans h₁, Or.inr h₂⟩
  · rintro ⟨h₁, h₂⟩
    by_cases hkb : k < b
    · exact Or.inl ⟨h₁, hkb⟩
    · exact Or.inr ⟨hcb.trans (not_lt.mp hkb), h₂.resolve_left hkb⟩

section CoalesceBy

variable {joins : K → K → Bool}

theorem startSorted_grow {cur r : K × K} {rs : List (K × K)} (stop : K)
    (h : StartSorted (cur :: r :: rs)) : StartSorted ((cur.1, stop) :: rs) := by
  obtain ⟨hcur, hrs⟩ := List.pairwise_cons.mp h
  exact List.pairwise_cons.mpr ⟨fun a ha => hcur a (by simp [ha]), hrs.tail⟩

theorem coverage_coalesceBy (hjoins : ∀ stop start, joins stop start = true → start ≤ stop)
    (cur : K × K) (rs : List (K × K)) (h : StartSorted (cur :: rs)) :
    coverage (coalesceBy joins cur rs) = coverage (cur :: rs) := by
  induction rs generalizing cur with
  | nil => rfl
  | cons r rs ih =>
    obtain ⟨hcur, hrs⟩ := List.pairwise_cons.mp h
    by_cases hj : joins cur.2 r.1 = true
    · rw [coalesceBy, if_pos hj, ih _ (startSorted_grow _ h)]
      simp only [coverage_cons, ← Set.union_assoc,
        Ico_union_grow (hcur r (by simp)) (hjoins _ _ hj)]
    · rw [coalesceBy, if_neg hj, coverage_cons, ih r hrs, coverage_cons cur]

theorem start_le_of_mem_coalesceBy (cur : K × K) (rs : List (K × K))
    (h : StartSorted (cur :: rs)) (a : K × K) (ha : a ∈ coalesceBy joins cur rs) :
    cur.1 ≤ a.1 := by
  induction rs generalizing cur with
  | nil =>
    simp only [coalesceBy, List.mem_singleton] at ha
    rw [ha]
  | cons r rs ih =>
    obtain ⟨hcur, hrs⟩ := List.pairwise_cons.mp h
    by_cases hj : joins cur.2 r.1 = true
    · rw [coalesceBy, if_pos hj] at ha
      exact ih (cur.1, max cur.2 r.2) (startSorted_grow _ h) ha
    · rw [coalesceBy, if_neg hj] at ha
      cases List.mem_cons.mp ha with
      | inl heq => rw [heq]
      | inr ha => exact (hcur r (by simp)).trans (ih r hrs ha)

theorem pairwise_coalesceBy (apart : K → K → Prop)
    (hapart : ∀ stop start, ¬ joins stop start = true → apart stop start)
    (hmono : ∀ stop start start', apart stop start → start ≤ start' → apart stop start')
    (cur : K × K) (rs : List (K × K)) (h : StartSorted (cur :: rs)) :
    (coalesceBy joins cur rs).Pairwise (fun a b => apart a.2 b.1) := by
  induction rs generalizing cur with
  | nil => exact List.pairwise_singleton _ _
  | cons r rs ih =>
    obtain ⟨_, hrs⟩ := List.pairwise_cons.mp h
    by_cases hj : joins cur.2 r.1 = true
    · rw [coalesceBy, if_pos hj]
      exact ih _ (startSorted_grow _ h)
    · rw [coalesceBy, if_neg hj]
      refine List.pairwise_cons.mpr ⟨?_, ih r hrs⟩
      intro a ha
      exact hmono _ _ _ (hapart _ _ hj) (start_le_of_mem_coalesceBy r rs hrs a ha)

theorem of_mem_coalesceBy (ok : K → K → Prop) (hgrow : ∀ a b c, ok a b → ok a (max b c))
    (cur : K × K) (rs : List (K × K)) (hok : ∀ r ∈ cur :: rs, ok r.1 r.2) (a : K × K)
    (ha : a ∈ coalesceBy joins cur rs) : ok a.1 a.2 := by
  induction rs generalizing cur with
  | nil => exact hok a ha
  | cons r rs ih =>
    by_cases hj : joins cur.2 r.1 = true
    · rw [coalesceBy, if_pos hj] at ha
      refine ih (cur.1, max cur.2 r.2) ?_ ha
      intro s hs
      cases List.mem_cons.mp hs with
      | inl heq =>
        rw [heq]
        exact hgrow _ _ _ (hok cur (by simp))
      | inr hs => exact hok s (by simp [hs])
    · rw [coalesceBy, if_neg hj] at ha
      cases List.mem_cons.mp ha with
      | inl heq =>
        rw [heq]
        exact hok cur (by simp)
      | inr ha => exact ih r (fun s hs => hok s (by simp [List.mem_cons.mp hs])) ha

theorem ends_of_mem_coalesceBy (P : K → Prop) (cur : K × K) (rs : List (K × K))
    (hends : ∀ r ∈ cur :: rs, P r.1 ∧ P r.2) (a : K × K) (ha : a ∈ coalesceBy joins cur rs) :
    P a.1 ∧ P a.2 := by
  induction rs generalizing cur with
  | nil => exact hends a ha
  | cons r rs ih =>
    have hcur := hends cur (by simp)
    have hr := hends r (by simp)
    by_cases hj : joins cur.2 r.1 = true
    · rw [coalesceBy, if_pos hj] at ha
      refine ih (cur.1, max cur.2 r.2) ?_ ha
      intro s hs
      cases List.mem_cons.mp hs with
      | inl heq =>
        rw [heq]
        exact ⟨hcur.1, max_rec' P hcur.2 hr.2⟩
      | inr hs => exact hends s (by simp [hs])
    · rw [coalesceBy, if_neg hj] at ha
      cases List.mem_cons.mp ha with
      | inl heq => exact heq ▸ hcur
      | inr ha => exact ih r (fun s hs => hends s (by simp [List.mem_cons.mp hs])) ha

theorem nonempty_of_mem_coalesceBy (cur : K × K) (rs : List (K × K))
    (hne : ∀ r ∈ cur :: rs, r.1 < r.2) :
    ∀ a ∈ coalesceBy joins cur rs, a.1 < a.2 :=
  of_mem_coalesceBy (fun a b => a < b) (fun _ _ _ h => lt_max_of_lt_left h) cur rs hne

end CoalesceBy

theorem coverage_coalesce (cur : K × K) (rs : List (K × K)) (h : StartSorted (cur :: rs)) :
    coverage (coalesce cur rs) = coverage (cur :: rs) :=
  coverage_coalesceBy (by simp) cur rs h

theorem gapped_coalesce (cur : K × K) (rs : List (K × K)) (h : StartSorted (cur :: rs)) :
    Gapped (coalesce cur rs) :=
  pairwise_coalesceBy (fun a b => a < b) (by simp) (fun _ _ _ => lt_of_lt_of_le) cur rs h

theorem le_of_mem_coalesce (cur : K × K) (rs : List (K × K))
    (hle : ∀ r ∈ cur :: rs, r.1 ≤ r.2) : ∀ a ∈ coalesce cur rs, a.1 ≤ a.2 :=
  of_mem_coalesceBy (fun a b => a ≤ b) (fun _ _ _ h => le_max_of_le_left h) cur rs hle

def coalesceAll : List (K × K) → List (K × K)
  | [] => []
  | r :: rs => coalesce r rs

theorem coverage_coalesceAll {rs : List (K × K)} (h : StartSorted rs) :
    coverage (coalesceAll rs) = coverage rs := by
  cases rs with
  | nil => rfl
  | cons r rs => exact coverage_coalesce r rs h

theorem gapped_coalesceAll {rs : List (K × K)} (h : StartSorted rs) :
    Gapped (coalesceAll rs) := by
  cases rs with
  | nil => exact List.Pairwise.nil
  | cons r rs => exact gapped_coalesce r rs h

theorem ordered_coalesceAll {rs : List (K × K)} (h : StartSorted rs)
    (hne : ∀ r ∈ rs, r.1 < r.2) : Ordered (coalesceAll rs) := by
  refine (gapped_coalesceAll h).ordered ?_
  cases rs with
  | nil => simp [coalesceAll]
  | cons r rs => exact nonempty_of_mem_coalesceBy r rs hne

structure Ascends (rs : List (K × K)) : Prop where
  startSorted : StartSorted rs
  nonempty : ∀ r ∈ rs, r.1 < r.2

theorem Ordered.ascends {rs : List (K × K)} (h : Ordered rs) : Ascends rs :=
  ⟨h.startSorted, h.nonempty⟩

def sortByStart (rs : List (K × K)) : List (K × K) :=
  rs.insertionSort (fun a b => a.1 ≤ b.1)

theorem startSorted_sortByStart (rs : List (K × K)) : StartSorted (sortByStart rs) := by
  have : Std.Total (fun a b : K × K => a.1 ≤ b.1) := ⟨fun a b => le_total a.1 b.1⟩
  have : IsTrans (K × K) (fun a b => a.1 ≤ b.1) := ⟨fun _ _ _ => le_trans⟩
  exact List.pairwise_insertionSort _ rs

theorem sortByStart_perm (rs : List (K × K)) : (sortByStart rs).Perm rs :=
  List.perm_insertionSort _ rs

def sortPairs (rs : List (K × K)) : List (K × K) :=
  rs.insertionSort (fun a b => a.1 < b.1 ∨ (a.1 = b.1 ∧ a.2 ≤ b.2))

theorem sortPairs_perm (rs : List (K × K)) : (sortPairs rs).Perm rs :=
  List.perm_insertionSort _ rs

theorem Ordered.sortPairs_eq {rs : List (K × K)} (h : Ordered rs) : sortPairs rs = rs := by
  have hstarts : rs.Pairwise (fun a b => a.1 < b.1) :=
    List.Pairwise.imp_of_mem (fun ha _ hab => (h.nonempty _ ha).trans_le hab) h.disjoint
  exact (hstarts.imp fun hab => Or.inl hab).insertionSort_eq

theorem total_pairs : Std.Total (fun a b : K × K => a.1 < b.1 ∨ (a.1 = b.1 ∧ a.2 ≤ b.2)) := by
  refine ⟨fun a b => ?_⟩
  rcases lt_trichotomy a.1 b.1 with h | h | h
  · exact Or.inl (Or.inl h)
  · rcases le_total a.2 b.2 with h' | h'
    · exact Or.inl (Or.inr ⟨h, h'⟩)
    · exact Or.inr (Or.inr ⟨h.symm, h'⟩)
  · exact Or.inr (Or.inl h)

theorem isTrans_pairs :
    IsTrans (K × K) (fun a b => a.1 < b.1 ∨ (a.1 = b.1 ∧ a.2 ≤ b.2)) := by
  refine ⟨fun a b c hab hbc => ?_⟩
  rcases hab with hab | ⟨hab, hab'⟩ <;> rcases hbc with hbc | ⟨hbc, hbc'⟩
  · exact Or.inl (hab.trans hbc)
  · exact Or.inl (hab.trans_eq hbc)
  · exact Or.inl (hab.trans_lt hbc)
  · exact Or.inr ⟨hab.trans hbc, hab'.trans hbc'⟩

theorem startSorted_of_pairs {rs : List (K × K)}
    (h : rs.Pairwise fun a b => a.1 < b.1 ∨ (a.1 = b.1 ∧ a.2 ≤ b.2)) : StartSorted rs :=
  h.imp fun hab => hab.elim le_of_lt fun hab => hab.1.le

theorem startSorted_sortPairs (rs : List (K × K)) : StartSorted (sortPairs rs) := by
  have htotal := @total_pairs K _
  have htrans := @isTrans_pairs K _
  exact startSorted_of_pairs (List.pairwise_insertionSort _ rs)

def interleave : List (K × K) → List (K × K) → List (K × K)
  | [], bs => bs
  | a :: as, bs =>
    bs.takeWhile (fun b => b.1 < a.1) ++ a :: interleave as (bs.dropWhile (fun b => b.1 < a.1))

theorem interleave_perm (as bs : List (K × K)) : (interleave as bs).Perm (as ++ bs) := by
  induction as generalizing bs with
  | nil => simp [interleave]
  | cons a as ih =>
    let p : K × K → Bool := fun b => b.1 < a.1
    have hmid : (as ++ (bs.takeWhile p ++ bs.dropWhile p)).Perm
        (bs.takeWhile p ++ (as ++ bs.dropWhile p)) := by
      rw [← List.append_assoc, ← List.append_assoc]
      exact List.perm_append_comm.append_right _
    have hrest : (bs.takeWhile p ++ interleave as (bs.dropWhile p)).Perm (as ++ bs) := by
      refine ((ih _).append_left _).trans ?_
      simpa only [List.takeWhile_append_dropWhile] using hmid.symm
    exact List.perm_middle.trans (hrest.cons a)

theorem startSorted_interleave {as bs : List (K × K)} (ha : StartSorted as)
    (hb : StartSorted bs) : StartSorted (interleave as bs) := by
  induction as generalizing bs with
  | nil => exact hb
  | cons a as ih =>
    obtain ⟨haas, has⟩ := List.pairwise_cons.mp ha
    let p : K × K → Bool := fun b => b.1 < a.1
    have hscan : bs.Pairwise (fun x y => p y → p x) :=
      hb.imp fun hxy hy => by simpa [p] using hxy.trans_lt (by simpa [p] using hy)
    have hdrop : StartSorted (bs.dropWhile p) := hb.sublist (List.dropWhile_sublist _)
    have htake : ∀ b ∈ bs.takeWhile p, b.1 < a.1 := fun b hbm => by
      simpa [p] using List.mem_takeWhile_imp hbm
    have hlater : ∀ b ∈ interleave as (bs.dropWhile p), a.1 ≤ b.1 := by
      intro b hbm
      rcases List.mem_append.mp ((interleave_perm _ _).mem_iff.mp hbm) with h | h
      · exact haas b h
      · simpa [p] using ((mem_dropWhile_iff hscan).mp h).2
    refine List.pairwise_append.mpr ⟨hb.sublist (List.takeWhile_sublist _),
      List.pairwise_cons.mpr ⟨hlater, ih has hdrop⟩, ?_⟩
    intro x hx y hy
    rcases List.mem_cons.mp hy with rfl | hy
    · exact (htake x hx).le
    · exact (htake x hx).le.trans (hlater y hy)

end HalfOpen
