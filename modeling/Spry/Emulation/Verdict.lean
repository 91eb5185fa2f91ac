import Spry.Emulation.Workload

/-!
# What a list of entries says about a key

A list of entries answers a key with a value, with a deletion, or not at all. Its own points are
newer than its own ranges. Putting one list over another one is `Option.or` of the answers, and
so is the concatenation of two lists with separate keys.
-/

namespace Spry.Emulation

open ClosedRange
open HalfOpen (StartSorted coalesceBy sortByStart stepBack)

abbrev Verdict := Option (Option Bytes)

section Lookup

variable {ps qs : List PointEntry} {k : ℤ}

/-- No two entries have the same key. -/
abbrev Distinct (ps : List PointEntry) : Prop := ps.Pairwise fun a b => a.sortKey ≠ b.sortKey

/-- Strictly ascending keys. -/
abbrev Ascending (ps : List PointEntry) : Prop := ps.Pairwise fun a b => a.sortKey < b.sortKey

def pointKeys (ps : List PointEntry) : Set ℤ := {k | ∃ p ∈ ps, p.sortKey = k}

theorem mem_pointKeys : k ∈ pointKeys ps ↔ ∃ p ∈ ps, p.sortKey = k := Iff.rfl

theorem Ascending.distinct (h : Ascending ps) : Distinct ps := h.imp fun hab => hab.ne

@[simp] theorem lookup_nil : lookup k [] = none := rfl

theorem lookup_cons (p : PointEntry) :
    lookup k (p :: ps) = if p.sortKey = k then some p.value else lookup k ps := by
  by_cases h : p.sortKey = k
  · simp [lookup, h]
  · simp [lookup, h]

theorem lookup_append : lookup k (ps ++ qs) = (lookup k ps).or (lookup k qs) := by
  induction ps with
  | nil => simp
  | cons p ps ih =>
    rw [List.cons_append, lookup_cons, lookup_cons, ih]
    split_ifs
    · rfl
    · rfl

theorem lookup_eq_none_iff : lookup k ps = none ↔ k ∉ pointKeys ps := by
  simp [lookup, mem_pointKeys]

theorem lookup_eq_some_iff (h : Distinct ps) {v : Bytes} :
    lookup k ps = some v ↔ ⟨k, v⟩ ∈ ps := by
  induction ps with
  | nil => simp
  | cons p ps ih =>
    obtain ⟨hp, hps⟩ := List.pairwise_cons.mp h
    rw [lookup_cons, List.mem_cons]
    by_cases hk : p.sortKey = k
    · rw [if_pos hk, Option.some.injEq]
      constructor
      · rintro rfl
        exact Or.inl (by rw [← hk])
      · rintro (heq | hmem)
        · rw [← heq]
        · exact absurd hk (hp _ hmem)
    · rw [if_neg hk, ih hps]
      constructor
      · exact Or.inr
      · rintro (heq | hmem)
        · exact absurd (by rw [← heq]) hk
        · exact hmem

theorem lookup_perm (h : Distinct ps) (hperm : ps.Perm qs) : lookup k ps = lookup k qs := by
  have hqs : Distinct qs := (hperm.pairwise_iff fun hab => hab.symm).mp h
  ext v
  rw [lookup_eq_some_iff h, lookup_eq_some_iff hqs, hperm.mem_iff]

theorem lookup_filter (q : ℤ → Bool) :
    lookup k (ps.filter fun p => q p.sortKey) = if q k then lookup k ps else none := by
  induction ps with
  | nil => simp
  | cons p ps ih =>
    by_cases hp : p.sortKey = k
    · subst hp
      by_cases hq : q p.sortKey
      · rw [List.filter_cons_of_pos (by simpa using hq), lookup_cons, lookup_cons, if_pos hq]
        simp
      · rw [List.filter_cons_of_neg (by simpa using hq), ih, if_neg hq, if_neg hq]
    · rw [lookup_cons, if_neg hp, ← ih]
      by_cases hq : q p.sortKey
      · rw [List.filter_cons_of_pos (by simpa using hq), lookup_cons, if_neg hp]
      · rw [List.filter_cons_of_neg (by simpa using hq)]

end Lookup

namespace EntryList

def verdict (l : EntryList) (k : ℤ) : Verdict :=
  match lookup k l.points with
  | some v => some (some v)
  | none => if k ∈ coverage l.ranges then some none else none

def support (l : EntryList) : Set ℤ := pointKeys l.points ∪ coverage l.ranges

structure Sorted (l : EntryList) : Prop where
  points : Ascending l.points
  ranges : Ordered l.ranges

def InRange (l : EntryList) : Prop := l.support ⊆ Set.Ico 0 (2 ^ 31)

def Before (l m : EntryList) : Prop := ∀ a ∈ l.support, ∀ b ∈ m.support, a < b

def append (l m : EntryList) : EntryList := ⟨l.points ++ m.points, l.ranges ++ m.ranges⟩

variable {l m : EntryList} {k : ℤ}

theorem verdict_eq_none_iff : l.verdict k = none ↔ k ∉ l.support := by
  rw [verdict, support, Set.mem_union, not_or, ← lookup_eq_none_iff]
  cases lookup k l.points with
  | some v => simp
  | none => simp

theorem verdict_of_mem_points {v : Bytes} (h : lookup k l.points = some v) :
    l.verdict k = some (some v) := by
  rw [verdict, h]

theorem verdict_of_notMem_points (h : lookup k l.points = none) :
    l.verdict k = if k ∈ coverage l.ranges then some none else none := by
  rw [verdict, h]

theorem verdict_clear : clear.verdict k = none := by
  simp [verdict, clear]

theorem support_clear : clear.support = ∅ := by
  simp [support, clear, pointKeys]

theorem pointKeys_append (ps qs : List PointEntry) :
    pointKeys (ps ++ qs) = pointKeys ps ∪ pointKeys qs := by
  ext a
  simp [mem_pointKeys, or_and_right, exists_or]

structure SameContent (l m : EntryList) : Prop where
  points_eq : l.points = m.points
  coverage_eq : coverage l.ranges = coverage m.ranges

theorem SameContent.support_eq (h : SameContent l m) : l.support = m.support := by
  rw [support, support, h.points_eq, h.coverage_eq]

theorem support_append : (l.append m).support = l.support ∪ m.support := by
  simp only [support, append, pointKeys_append, coverage_append]
  exact Set.union_union_union_comm _ _ _ _

theorem verdict_congr (hpoints : lookup k l.points = lookup k m.points)
    (hranges : k ∈ coverage l.ranges ↔ k ∈ coverage m.ranges) : l.verdict k = m.verdict k := by
  rw [verdict, verdict, hpoints]
  cases lookup k m.points with
  | some v => rfl
  | none => exact if_congr hranges rfl rfl

theorem SameContent.verdict_eq (h : SameContent l m) : l.verdict k = m.verdict k :=
  verdict_congr (by rw [h.points_eq]) (by rw [h.coverage_eq])

/-- A list whose points are those of two separate lists and whose ranges cover what theirs do
answers like the two. -/
theorem verdict_of_parts {n : EntryList} (hpoints : n.points = l.points ++ m.points)
    (hranges : coverage n.ranges = coverage l.ranges ∪ coverage m.ranges) (h : Before l m) :
    n.verdict k = (l.verdict k).or (m.verdict k) := by
  by_cases hk : k ∈ l.support
  · have hkm : k ∉ m.support := fun hkm => absurd (h k hk k hkm) (lt_irrefl k)
    obtain ⟨hkp, hkr⟩ := not_or.mp hkm
    rw [verdict_eq_none_iff.mpr hkm, Option.or_none]
    apply verdict_congr
    · rw [hpoints, lookup_append, lookup_eq_none_iff.mpr hkp, Option.or_none]
    · rw [hranges]
      exact ⟨fun h => h.resolve_right hkr, Or.inl⟩
  · obtain ⟨hkp, hkr⟩ := not_or.mp hk
    rw [verdict_eq_none_iff.mpr hk, Option.none_or]
    apply verdict_congr
    · rw [hpoints, lookup_append, lookup_eq_none_iff.mpr hkp, Option.none_or]
    · rw [hranges]
      exact ⟨fun h => h.resolve_left hkr, Or.inr⟩

theorem verdict_append (h : Before l m) :
    (l.append m).verdict k = (l.verdict k).or (m.verdict k) :=
  verdict_of_parts rfl (coverage_append _ _) h

theorem mem_support_of_point {p : PointEntry} (hp : p ∈ l.points) : p.sortKey ∈ l.support :=
  Or.inl ⟨p, hp, rfl⟩

theorem start_mem_support (hl : l.Sorted) {r : ℤ × ℤ} (hr : r ∈ l.ranges) : r.1 ∈ l.support :=
  Or.inr ⟨r, hr, le_rfl, hl.ranges.valid r hr⟩

theorem end_mem_support (hl : l.Sorted) {r : ℤ × ℤ} (hr : r ∈ l.ranges) : r.2 ∈ l.support :=
  Or.inr ⟨r, hr, hl.ranges.valid r hr, le_rfl⟩

theorem Sorted.append (hl : l.Sorted) (hm : m.Sorted) (h : Before l m) : (l.append m).Sorted := by
  refine ⟨List.pairwise_append.mpr ⟨hl.points, hm.points, ?_⟩,
    Ordered.append_iff.mpr ⟨hl.ranges, hm.ranges, ?_⟩⟩
  · intro p hp q hq
    exact h _ (mem_support_of_point hp) _ (mem_support_of_point hq)
  · intro a ha b hb
    exact h _ (end_mem_support hl ha) _ (start_mem_support hm hb)

theorem support_of_verdict {n : EntryList}
    (h : ∀ k, n.verdict k = (l.verdict k).or (m.verdict k)) :
    n.support = l.support ∪ m.support := by
  ext a
  have ha := h a
  rw [← not_iff_not, ← verdict_eq_none_iff, Set.mem_union, not_or, ← verdict_eq_none_iff,
    ← verdict_eq_none_iff, ha, Option.or_eq_none_iff]

theorem empty_iff : l.empty = true ↔ l.points = [] ∧ l.ranges = [] := by
  simp [empty]

theorem support_nonempty (hl : l.Sorted) (h : ¬ l.empty = true) : l.support.Nonempty := by
  rw [empty_iff, not_and_or] at h
  rcases h with h | h
  · obtain ⟨p, hp⟩ := List.exists_mem_of_ne_nil _ h
    exact ⟨_, mem_support_of_point hp⟩
  · obtain ⟨r, hr⟩ := List.exists_mem_of_ne_nil _ h
    exact ⟨_, start_mem_support hl hr⟩

theorem not_empty_of_nonempty (h : l.support.Nonempty) : ¬ l.empty = true := by
  rw [empty_iff]
  rintro ⟨hpoints, hranges⟩
  simp [support, hpoints, hranges, pointKeys] at h

end EntryList

end Spry.Emulation
