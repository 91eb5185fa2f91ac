import Spry.Emulation.Counters
import Spry.Emulation.Merge
import Spry.Loop

/-!
# What the merges of entry lists keep and count

The points of a merge are the points of the upper list and the lower points that neither a range
nor a point above them hides; the counters count the lower points hidden for each reason.

The range vectors are merged by loops that compare starts with the end of the current range plus
one, in `long`. The loops are written out with their cursors; a sum that overflows is undefined
and ends them. On ranges that end before the greatest `long` they return the united ranges, and
these are what coalescing the sorted concatenation gives.
-/

namespace Spry.Emulation

open ClosedRange
open HalfOpen (StartSorted coalesceBy sortByStart)

section Points

variable {as bs : List PointEntry}

theorem Ascending.nodup (h : Ascending as) : as.Nodup :=
  h.imp fun hab heq => by rw [heq] at hab; exact lt_irrefl _ hab

theorem mem_mergePoints (has : Ascending as) (hbs : Ascending bs) {p : PointEntry} :
    p ∈ EntryList.mergePoints as bs ↔ p ∈ as ∨ p ∈ bs ∧ p.sortKey ∉ pointKeys as := by
  have hmerge := EntryList.merges_mergePoints has hbs
  have hmem : ∀ {ps : List PointEntry}, Ascending ps →
      (p ∈ ps ↔ lookup p.sortKey ps = some p.value) := fun hps =>
    (lookup_eq_some_iff hps.distinct).symm
  rw [hmem hmerge.ascending, hmerge.lookup_eq, Option.or_eq_some_iff, ← hmem has, ← hmem hbs,
    lookup_eq_none_iff, and_comm]

theorem mergeDeletedPoints_eq (has : Ascending as) (hbs : Ascending bs) :
    mergeDeletedPoints as bs = bs.countP fun b => ∃ a ∈ as, a.sortKey = b.sortKey := by
  have hout := (EntryList.merges_mergePoints has hbs).ascending
  have hkept : (EntryList.mergePoints as bs).Perm
      (as ++ bs.filter fun b => ¬ ∃ a ∈ as, a.sortKey = b.sortKey) := by
    refine (List.perm_ext_iff_of_nodup hout.nodup ?_).mpr fun p => ?_
    · refine List.nodup_append.mpr ⟨has.nodup, hbs.nodup.filter _, ?_⟩
      rintro a ha b hb rfl
      simp only [List.mem_filter, decide_eq_true_eq] at hb
      exact hb.2 ⟨a, ha, rfl⟩
    · rw [mem_mergePoints has hbs, List.mem_append, List.mem_filter, decide_eq_true_eq]
      rfl
  have hlength := hkept.length_eq
  have hsplit := List.length_eq_countP_add_countP
    (fun b : PointEntry => decide (∃ a ∈ as, a.sortKey = b.sortKey)) (l := bs)
  have hcount := length_mergePoints as bs
  rw [List.length_append, ← List.countP_eq_length_filter] at hlength
  simp only [decide_eq_true_eq] at hsplit
  omega

theorem rangeDeletedPoints_eq {rs : List (ℤ × ℤ)} (hrs : Ordered rs) (hbs : Ascending bs) :
    rangeDeletedPoints rs bs = bs.countP fun b => b.sortKey ∈ coverage rs := by
  have hcount := length_applyRangeDelete rs bs
  have hsplit := List.length_eq_countP_add_countP
    (fun b : PointEntry => decide (b.sortKey ∈ coverage rs)) (l := bs)
  rw [EntryList.applyRangeDelete_eq_filter hrs hbs, ← List.countP_eq_length_filter] at hcount
  simp only [decide_eq_true_eq] at hsplit
  omega

/-- An upper list over lower points: the merged points are the upper ones and the lower ones that
neither a range nor a key of the upper list hides, and each counter grows by the lower points
hidden for its reason. A lower point that a range covers counts for the range only. -/
theorem mergeWithAnotherPointEntryVector_spec {l : EntryList} {lower : List PointEntry}
    (hl : l.Sorted) (hlower : Ascending lower) :
    ∃ m, l.mergeWithAnotherPointEntryVector (EntryList.applyRangeDelete l.ranges lower) = some m ∧
      m.ranges = l.ranges ∧ Ascending m.points ∧
      (∀ p, p ∈ m.points ↔ p ∈ l.points ∨
        p ∈ lower ∧ p.sortKey ∉ coverage l.ranges ∧ p.sortKey ∉ pointKeys l.points) ∧
      ∀ (c : TreeCounters) (ranges : List (ℤ × ℤ)),
        (c.noteMerge l ⟨lower, ranges⟩).totalRangeDeletedPointEntryCount =
          c.totalRangeDeletedPointEntryCount +
            lower.countP (fun p => p.sortKey ∈ coverage l.ranges) ∧
        (c.noteMerge l ⟨lower, ranges⟩).totalMergeDeletedPointEntryCount =
          c.totalMergeDeletedPointEntryCount +
            lower.countP (fun p => p.sortKey ∉ coverage l.ranges ∧
              ∃ q ∈ l.points, q.sortKey = p.sortKey) := by
  have hfilter := EntryList.applyRangeDelete_eq_filter hl.ranges hlower
  have hkept : Ascending (lower.filter fun p => p.sortKey ∉ coverage l.ranges) :=
    hlower.sublist List.filter_sublist
  rw [← hfilter] at hkept
  have hchecks : EntryList.distinctPoints l.points ∧
      EntryList.distinctPoints (EntryList.applyRangeDelete l.ranges lower) :=
    ⟨hl.points.distinct.isChain, hkept.distinct.isChain⟩
  refine ⟨_, if_pos hchecks, rfl, (EntryList.merges_mergePoints hl.points hkept).ascending, ?_, ?_⟩
  · intro p
    refine (mem_mergePoints hl.points hkept).trans ?_
    rw [hfilter, List.mem_filter, decide_eq_true_eq, and_assoc]
  · intro c ranges
    simp only [TreeCounters.noteMerge]
    rw [rangeDeletedPoints_eq hl.ranges hlower, mergeDeletedPoints_eq hl.points hkept, hfilter,
      List.countP_filter]
    refine ⟨rfl, congrArg _ (List.countP_congr fun p _ => ?_)⟩
    simp [and_comm]

/-- The point `2` is hidden by a range, `4` by a point, `5` by both. -/
theorem mergeWithAnotherPointEntryVector_spec_sample :
    ∃ l m : EntryList, l = ⟨[⟨4, []⟩, ⟨5, []⟩], [(1, 3), (5, 6)]⟩ ∧
      l.mergeWithAnotherPointEntryVector (EntryList.applyRangeDelete l.ranges
        [⟨2, []⟩, ⟨4, [7]⟩, ⟨5, [8]⟩, ⟨9, []⟩]) = some m ∧
      m.points = [⟨4, []⟩, ⟨5, []⟩, ⟨9, []⟩] ∧ Ascending m.points := by
  have hl : EntryList.Sorted ⟨[⟨4, []⟩, ⟨5, []⟩], [(1, 3), (5, 6)]⟩ :=
    ⟨by decide, by decide, by decide⟩
  have hlower : Ascending [⟨2, []⟩, ⟨4, [7]⟩, ⟨5, [8]⟩, ⟨9, []⟩] := by decide
  obtain ⟨m, hm, _, hasc, _⟩ := mergeWithAnotherPointEntryVector_spec hl hlower
  exact ⟨_, m, rfl, hm, by rw [← Option.some.inj hm]; decide, hasc⟩

end Points

section Long

def longMin : ℤ := -2 ^ 63

def longMax : ℤ := 2 ^ 63 - 1

/-- A sum or difference of type `long`; one that overflows is undefined. -/
def checked (x : ℤ) : Option ℤ := if longMin ≤ x ∧ x ≤ longMax then some x else none

theorem checked_eq {x : ℤ} (hlo : longMin ≤ x) (hhi : x ≤ longMax) : checked x = some x :=
  if_pos ⟨hlo, hhi⟩

/-- A range with a start and an end of type `long`. -/
def LongRange (r : ℤ × ℤ) : Prop := longMin ≤ r.1 ∧ r.1 ≤ r.2 ∧ r.2 ≤ longMax

instance (r : ℤ × ℤ) : Decidable (LongRange r) :=
  inferInstanceAs (Decidable (longMin ≤ r.1 ∧ r.1 ≤ r.2 ∧ r.2 ≤ longMax))

end Long

section UniteLoop

/-- The two iterators and the current range of the loops that merge two range vectors. There is no
current range at the head of the outer loop. -/
structure UniteCursor where
  itA : List (ℤ × ℤ)
  itB : List (ℤ × ℤ)
  current : Option (ℤ × ℤ)
  count : ℕ
  merged : List (ℤ × ℤ)
  deleted : ℕ

def nextUpTo (bound : ℤ) : List (ℤ × ℤ) → Option ((ℤ × ℤ) × List (ℤ × ℤ))
  | [] => none
  | r :: rs => if r.1 ≤ bound then some (r, rs) else none

theorem nextUpTo_eq_some {bound : ℤ} {rs rest : List (ℤ × ℤ)} {r : ℤ × ℤ}
    (h : nextUpTo bound rs = some (r, rest)) : rs = r :: rest := by
  cases rs with
  | nil => cases h
  | cons a as =>
    obtain ⟨_, heq⟩ := Option.ite_none_right_eq_some.mp h
    obtain ⟨rfl, rfl⟩ := Prod.mk.inj (Option.some.inj heq)
    rfl

def openRange : List (ℤ × ℤ) → List (ℤ × ℤ) → Option ((ℤ × ℤ) × List (ℤ × ℤ) × List (ℤ × ℤ))
  | [], [] => none
  | [], b :: bs => some (b, [], bs)
  | a :: as, [] => some (a, as, [])
  | a :: as, b :: bs => if a.1 ≤ b.1 then some (a, as, b :: bs) else some (b, a :: as, bs)

/-- What an opened iteration has taken out of the vectors, and that the merge of the lists opens
the same range. -/
structure Opens (as bs : List (ℤ × ℤ)) (r : ℤ × ℤ) (as' bs' : List (ℤ × ℤ)) : Prop where
  mem : r ∈ as ++ bs
  subset : ∀ x ∈ as' ++ bs', x ∈ as ++ bs
  length : as'.length + bs'.length + 1 = as.length + bs.length
  unite_eq : uniteAll as bs = unite as' r bs'
  deleted_eq : mergeDeletedRanges as bs = uniteDeleted as' r bs'

theorem opens_openRange {as bs as' bs' : List (ℤ × ℤ)} {r : ℤ × ℤ}
    (h : openRange as bs = some (r, as', bs')) : Opens as bs r as' bs' := by
  cases as with
  | nil =>
    cases bs with
    | nil => cases h
    | cons b bs =>
      obtain ⟨rfl, rfl, rfl⟩ : b = r ∧ [] = as' ∧ bs = bs' := by simpa [openRange] using h
      exact ⟨by simp, fun x hx => List.mem_cons_of_mem _ hx, by simp, rfl, rfl⟩
  | cons a as =>
    cases bs with
    | nil =>
      obtain ⟨rfl, rfl, rfl⟩ : a = r ∧ as = as' ∧ [] = bs' := by simpa [openRange] using h
      exact ⟨by simp, fun x hx => List.mem_cons_of_mem _ hx, by simp, rfl, rfl⟩
    | cons b bs =>
      rw [openRange] at h
      split_ifs at h with hab
      · obtain ⟨rfl, rfl, rfl⟩ : a = r ∧ as = as' ∧ b :: bs = bs' := by simpa using h
        exact ⟨by simp, fun x hx => List.mem_cons_of_mem _ hx, by simp; omega, if_pos hab,
          if_pos hab⟩
      · obtain ⟨rfl, rfl, rfl⟩ : b = r ∧ a :: as = as' ∧ bs = bs' := by simpa using h
        refine ⟨by simp, fun x hx => ?_, by simp; omega, if_neg hab, if_neg hab⟩
        rcases List.mem_append.mp hx with hx | hx
        · exact List.mem_append_left _ hx
        · exact List.mem_append_right _ (List.mem_cons_of_mem _ hx)

theorem openRange_eq_none {as bs : List (ℤ × ℤ)} (h : openRange as bs = none) :
    as = [] ∧ bs = [] := by
  cases as with
  | nil =>
    cases bs with
    | nil => exact ⟨rfl, rfl⟩
    | cons b bs => cases h
  | cons a as =>
    cases bs with
    | nil => cases h
    | cons b bs =>
      rw [openRange] at h
      split_ifs at h

namespace UniteCursor

def push (s : UniteCursor) (cur : ℤ × ℤ) : UniteCursor :=
  { s with
    current := none
    merged := s.merged ++ [cur]
    deleted := s.deleted + (s.count - 1) }

def absorb (s : UniteCursor) (cur : ℤ × ℤ) (bound : ℤ) : UniteCursor :=
  match nextUpTo bound s.itA with
  | some (a, as) => { s with itA := as, current := some (grow cur a), count := s.count + 1 }
  | none =>
    match nextUpTo bound s.itB with
    | some (b, bs) => { s with itB := bs, current := some (grow cur b), count := s.count + 1 }
    | none => s.push cur

def step (s : UniteCursor) : Loop.Step UniteCursor (List (ℤ × ℤ) × ℕ) :=
  match s.current with
  | none =>
    match openRange s.itA s.itB with
    | none => .done (s.merged, s.deleted)
    | some (r, as, bs) => .next { s with itA := as, itB := bs, current := some r, count := 1 }
  | some cur =>
    if s.itA = [] ∧ s.itB = [] then .next (s.push cur)
    else
      match checked (cur.2 + 1) with
      | none => .exit
      | some bound => .next (s.absorb cur bound)

/-- The sums of the loops stay below the greatest `long`. -/
structure Safe (s : UniteCursor) : Prop where
  long : ∀ r ∈ s.itA ++ s.itB, longMin ≤ r.2 ∧ r.2 < longMax
  current : ∀ cur, s.current = some cur → longMin ≤ cur.2 ∧ cur.2 < longMax
  count : ∀ cur, s.current = some cur → 1 ≤ s.count

def value (s : UniteCursor) : List (ℤ × ℤ) × ℕ :=
  match s.current with
  | none => (s.merged ++ uniteAll s.itA s.itB, s.deleted + mergeDeletedRanges s.itA s.itB)
  | some cur => (s.merged ++ unite s.itA cur s.itB,
      s.deleted + (s.count - 1) + uniteDeleted s.itA cur s.itB)

def bound (s : UniteCursor) : ℕ :=
  2 * (s.itA.length + s.itB.length) + s.current.elim 0 fun _ => 1

theorem uniteHead_of_joins {a cur : ℤ × ℤ} {bs : List (ℤ × ℤ)}
    {rest : ℤ × ℤ → List (ℤ × ℤ) → List (ℤ × ℤ)} (h : a.1 ≤ cur.2 + 1) :
    uniteHead a rest cur bs = rest (grow cur a) bs := by
  cases bs with
  | nil => rw [uniteHead, if_pos (joins_iff.mpr h)]
  | cons b bs => rw [uniteHead, if_pos (joins_iff.mpr h)]

theorem uniteHeadDeleted_of_joins {a cur : ℤ × ℤ} {bs : List (ℤ × ℤ)}
    {rest : ℤ × ℤ → List (ℤ × ℤ) → ℕ} (h : a.1 ≤ cur.2 + 1) :
    uniteHeadDeleted a rest cur bs = rest (grow cur a) bs + 1 := by
  cases bs with
  | nil => rw [uniteHeadDeleted, if_pos (joins_iff.mpr h)]
  | cons b bs => rw [uniteHeadDeleted, if_pos (joins_iff.mpr h)]

theorem value_absorb {s : UniteCursor} {cur : ℤ × ℤ} (hcur : s.current = some cur)
    (hcount : 1 ≤ s.count) (hleft : s.itA ≠ [] ∨ s.itB ≠ []) :
    (s.absorb cur (cur.2 + 1)).value = s.value := by
  obtain ⟨itA, itB, current, count, merged, deleted⟩ := s
  obtain rfl : current = some cur := hcur
  simp only at hcount hleft
  cases itA with
  | nil =>
    cases itB with
    | nil => simp at hleft
    | cons b bs =>
      by_cases hb : b.1 ≤ cur.2 + 1
      · simp [absorb, nextUpTo, value, unite, uniteDeleted, coalesceBy, coalescedRanges, joins,
          hb, grow]
        omega
      · simp [absorb, nextUpTo, value, push, uniteAll, mergeDeletedRanges, unite, uniteDeleted,
          coalesceBy, coalescedRanges, joins, hb]
  | cons a as =>
    by_cases ha : a.1 ≤ cur.2 + 1
    · simp only [absorb, nextUpTo, value, unite, uniteDeleted, if_pos ha, uniteHead_of_joins ha,
        uniteHeadDeleted_of_joins ha, Prod.mk.injEq, true_and]
      omega
    cases itB with
    | nil =>
      simp [absorb, nextUpTo, value, push, uniteAll, mergeDeletedRanges, unite, uniteDeleted,
        uniteHead, uniteHeadDeleted, joins, ha]
    | cons b bs =>
      by_cases hb : b.1 ≤ cur.2 + 1
      · simp [absorb, nextUpTo, value, unite, uniteDeleted, uniteHead, uniteHeadDeleted, joins,
          ha, hb]
        omega
      · -- the smaller start opens the next range, in the loop and in the lists
        by_cases hab : a.1 ≤ b.1
        · simp [absorb, nextUpTo, value, push, uniteAll, mergeDeletedRanges, unite,
            uniteDeleted, uniteHead, uniteHeadDeleted, joins, ha, hb, hab]
        · simp [absorb, nextUpTo, value, push, uniteAll, mergeDeletedRanges, unite,
            uniteDeleted, uniteHead, uniteHeadDeleted, joins, ha, hb, hab]

namespace Safe

variable {s : UniteCursor}

/-- The invariant of a cursor that has taken `r` out of its vectors. -/
theorem take (hs : s.Safe) {r cur : ℤ × ℤ} {as bs : List (ℤ × ℤ)} {count : ℕ}
    (hcount : 1 ≤ count) (hr : r ∈ s.itA ++ s.itB) (hsub : ∀ x ∈ as ++ bs, x ∈ s.itA ++ s.itB)
    (hcur : cur.2 = r.2 ∨ ∃ old, s.current = some old ∧ cur.2 = max old.2 r.2) :
    Safe { s with itA := as, itB := bs, current := some cur, count := count } := by
  obtain ⟨hlo, hhi⟩ := hs.long r hr
  refine ⟨fun x hx => hs.long x (hsub x hx), ?_, fun _ _ => hcount⟩
  rintro _ ⟨⟩
  rcases hcur with heq | ⟨old, hold, heq⟩
  · rw [heq]
    exact ⟨hlo, hhi⟩
  · obtain ⟨hlo', hhi'⟩ := hs.current old hold
    rw [heq]
    exact ⟨hlo.trans (le_max_right _ _), max_lt hhi' hhi⟩

theorem push (hs : s.Safe) (cur : ℤ × ℤ) : (s.push cur).Safe :=
  ⟨hs.long, by simp [UniteCursor.push], by simp [UniteCursor.push]⟩

theorem absorb (hs : s.Safe) {cur : ℤ × ℤ} (hcur : s.current = some cur) (bound : ℤ) :
    (s.absorb cur bound).Safe := by
  rw [UniteCursor.absorb]
  split
  · next a as hA =>
      have hitA := nextUpTo_eq_some hA
      refine hs.take (Nat.le_add_left 1 _) (by simp [hitA]) ?_ (Or.inr ⟨cur, hcur, rfl⟩)
      rw [hitA]
      exact fun x hx => List.mem_cons_of_mem a hx
  · split
    · next b bs hB =>
        have hitB := nextUpTo_eq_some hB
        refine hs.take (Nat.le_add_left 1 _) (by simp [hitB]) ?_ (Or.inr ⟨cur, hcur, rfl⟩)
        intro x hx
        rw [hitB]
        rcases List.mem_append.mp hx with hx | hx
        · exact List.mem_append_left _ hx
        · exact List.mem_append_right _ (List.mem_cons_of_mem b hx)
    · exact hs.push cur

end Safe

theorem bound_absorb_lt {s : UniteCursor} {cur : ℤ × ℤ} (hcur : s.current = some cur) (m : ℤ) :
    (s.absorb cur m).bound < s.bound := by
  rw [absorb]
  split
  · next a as hA =>
      simp only [bound, hcur, nextUpTo_eq_some hA, List.length_cons, Option.elim_some]
      omega
  · split
    · next b bs hB =>
        simp only [bound, hcur, nextUpTo_eq_some hB, List.length_cons, Option.elim_some]
        omega
    · simp [bound, hcur, push]

theorem returns_step {s : UniteCursor} (hs : s.Safe) :
    Loop.Returns Safe value bound s s.step := by
  rw [step]
  cases hcur : s.current with
  | none =>
    cases hopen : openRange s.itA s.itB with
    | none =>
      obtain ⟨hA, hB⟩ := openRange_eq_none hopen
      simp [Loop.Returns, value, hcur, hA, hB, uniteAll, mergeDeletedRanges]
    | some p =>
      obtain ⟨r, as, bs⟩ := p
      have hopens := opens_openRange hopen
      have hlength := hopens.length
      refine ⟨hs.take le_rfl hopens.mem hopens.subset (Or.inl rfl), ?_, ?_⟩
      · simp [value, hcur, hopens.unite_eq, hopens.deleted_eq]
      · simp only [bound, hcur, Option.elim_some, Option.elim_none]
        omega
  | some cur =>
    by_cases hend : s.itA = [] ∧ s.itB = []
    · obtain ⟨hA, hB⟩ := hend
      simp only [hA, hB, and_self, if_true]
      refine ⟨hs.push cur, ?_, by simp [bound, push, hcur]⟩
      simp [value, push, hcur, hA, hB, uniteAll, mergeDeletedRanges, unite, uniteDeleted,
        coalesceBy, coalescedRanges]
    · obtain ⟨hlo, hhi⟩ := hs.current cur hcur
      simp only [if_neg hend, checked_eq (hlo.trans (by omega)) (Int.add_one_le_iff.mpr hhi)]
      refine ⟨hs.absorb hcur _, ?_, bound_absorb_lt hcur _⟩
      refine value_absorb hcur (hs.count cur hcur) ?_
      exact not_and_or.mp hend

end UniteCursor

theorem run_uniteStep {as bs : List (ℤ × ℤ)} (hlong : ∀ r ∈ as ++ bs, LongRange r)
    (hmax : ∀ r ∈ as ++ bs, r.2 < longMax) (counter : ℕ) {fuel : ℕ}
    (hfuel : 2 * (as.length + bs.length) < fuel) :
    Loop.run UniteCursor.step fuel ⟨as, bs, none, 0, [], counter⟩ =
      .returned (uniteAll as bs, counter + mergeDeletedRanges as bs) := by
  have hsafe : UniteCursor.Safe ⟨as, bs, none, 0, [], counter⟩ :=
    ⟨fun r hr => ⟨(hlong r hr).1.trans (hlong r hr).2.1, hmax r hr⟩, by simp, by simp⟩
  rw [Loop.run_returns (fun _ => UniteCursor.returns_step) hsafe hfuel]
  rfl

end UniteLoop

section OwnLoop

/-- The iterator and the current range of `merge_its_own_range_entry`. The outer loop opens a range
without moving past it. -/
structure OwnCursor where
  itA : List (ℤ × ℤ)
  current : Option (ℤ × ℤ)
  count : ℕ
  merged : List (ℤ × ℤ)
  deleted : ℕ

def coalesceOwn : List (ℤ × ℤ) → List (ℤ × ℤ)
  | [] => []
  | r :: rs => coalesceBy joins r rs

namespace OwnCursor

def push (s : OwnCursor) (cur : ℤ × ℤ) : OwnCursor :=
  { s with
    current := none
    merged := s.merged ++ [cur]
    deleted := s.deleted + (s.count - 1) }

def step (s : OwnCursor) : Loop.Step OwnCursor (List (ℤ × ℤ) × ℕ) :=
  match s.current, s.itA with
  | none, [] => .done (s.merged, s.deleted)
  | none, a :: _ => .next { s with current := some a, count := 0 }
  | some cur, [] => .next (s.push cur)
  | some cur, a :: as =>
    match checked (cur.2 + 1) with
    | none => .exit
    | some bound =>
      if a.1 ≤ bound then
        .next { s with itA := as, current := some (grow cur a), count := s.count + 1 }
      else .next (s.push cur)

/-- The sums stay below the greatest `long`, and a range that has just been opened is the next
one. -/
structure Safe (s : OwnCursor) : Prop where
  long : ∀ r ∈ s.itA, LongRange r ∧ r.2 < longMax
  current : ∀ cur, s.current = some cur → longMin ≤ cur.2 ∧ cur.2 < longMax
  opened : ∀ cur, s.current = some cur → 1 ≤ s.count ∨ s.count = 0 ∧ s.itA.head? = some cur

def value (s : OwnCursor) : List (ℤ × ℤ) × ℕ :=
  match s.current with
  | none => (s.merged ++ coalesceOwn s.itA, s.deleted + ownDeletedRanges s.itA)
  | some cur => (s.merged ++ coalesceBy joins cur s.itA,
      s.deleted + (s.count + coalescedRanges cur s.itA - 1))

def bound (s : OwnCursor) : ℕ :=
  match s.current with
  | none => 3 * s.itA.length
  | some _ => if s.count = 0 then 3 * s.itA.length - 1 else 3 * s.itA.length + 1

theorem grow_self (r : ℤ × ℤ) : grow r r = r := by
  rw [grow, max_self]

theorem returns_step {s : OwnCursor} (hs : s.Safe) : Loop.Returns Safe value bound s s.step := by
  obtain ⟨itA, current, count, merged, deleted⟩ := s
  cases current with
  | none =>
    cases itA with
    | nil => simp [step, Loop.Returns, value, coalesceOwn, ownDeletedRanges]
    | cons a as =>
      obtain ⟨hlong, hmax⟩ := hs.long a (by simp)
      have hj : joins a.2 a.1 = true := joins_iff.mpr (by have := hlong.2.1; omega)
      refine ⟨⟨hs.long, ?_, ?_⟩, ?_, ?_⟩
      · rintro _ ⟨⟩
        exact ⟨hlong.1.trans hlong.2.1, hmax⟩
      · rintro _ ⟨⟩
        exact Or.inr ⟨rfl, rfl⟩
      · simp [value, coalesceOwn, ownDeletedRanges, coalesceBy, coalescedRanges, hj, grow_self]
      · simp only [bound, if_true, List.length_cons]
        omega
  | some cur =>
    obtain ⟨hlo, hhi⟩ := hs.current cur rfl
    have hopened := hs.opened cur rfl
    simp only at hopened
    cases itA with
    | nil =>
      have hcount : 1 ≤ count := by simpa using hopened
      refine ⟨⟨by simp [push], by simp [push], by simp [push]⟩, ?_, ?_⟩
      · simp [value, push, coalesceOwn, ownDeletedRanges, coalesceBy, coalescedRanges]
      · simp [bound, push, Nat.one_le_iff_ne_zero.mp hcount]
    | cons a as =>
      obtain ⟨hlong, hrest⟩ := List.forall_mem_cons.mp hs.long
      simp only [step, checked_eq (hlo.trans (by omega)) (Int.add_one_le_iff.mpr hhi)]
      by_cases hj : a.1 ≤ cur.2 + 1
      · rw [if_pos hj]
        refine ⟨⟨hrest, ?_, fun _ _ => Or.inl (Nat.le_add_left 1 _)⟩, ?_, ?_⟩
        · rintro _ ⟨⟩
          exact ⟨hlo.trans (le_max_left _ _), max_lt hhi hlong.2⟩
        · simp [value, coalesceBy, coalescedRanges, joins, hj, grow]
        · simp only [bound, List.length_cons, Nat.add_one_ne_zero, if_false]
          split_ifs
          · omega
          · omega
      · -- the opened range itself always joins, so it has been counted
        have hcount : 1 ≤ count := by
          rcases hopened with h | ⟨_, hhead⟩
          · exact h
          · obtain rfl : a = cur := by simpa using hhead
            have := hlong.1.2.1
            omega
        rw [if_neg hj]
        refine ⟨⟨hs.long, by simp [push], by simp [push]⟩, ?_, ?_⟩
        · simp [value, push, coalesceOwn, ownDeletedRanges, coalesceBy, coalescedRanges, joins,
            hj]
          omega
        · simp [bound, push, Nat.one_le_iff_ne_zero.mp hcount]

end OwnCursor

theorem run_ownStep {rs : List (ℤ × ℤ)} (hlong : ∀ r ∈ rs, LongRange r)
    (hmax : ∀ r ∈ rs, r.2 < longMax) (counter : ℕ) {fuel : ℕ} (hfuel : 3 * rs.length < fuel) :
    Loop.run OwnCursor.step fuel ⟨rs, none, 0, [], counter⟩ =
      .returned (coalesceOwn rs, counter + ownDeletedRanges rs) := by
  have hsafe : OwnCursor.Safe ⟨rs, none, 0, [], counter⟩ :=
    ⟨fun r hr => ⟨hlong r hr, hmax r hr⟩, by simp, by simp⟩
  rw [Loop.run_returns (fun _ => OwnCursor.returns_step) hsafe hfuel]
  rfl

theorem separated_coalesceOwn {rs : List (ℤ × ℤ)} (hrs : StartSorted rs)
    (hvalid : ∀ r ∈ rs, r.1 ≤ r.2) :
    coverage (coalesceOwn rs) = coverage rs ∧ Separated (coalesceOwn rs) := by
  cases rs with
  | nil => exact ⟨rfl, Separated.nil⟩
  | cons r rs =>
    obtain ⟨hr, hvalid⟩ := List.forall_mem_cons.mp hvalid
    have h := unites_coalesceBy hr hrs hvalid
    exact ⟨by rw [coverage_cons]; exact h.coverage_eq, h.separated⟩

end OwnLoop

namespace EntryList

/-- `merge_with_another_range_entry_vector` with its loops; `counter` is the counter of merged
ranges. -/
def mergeWithAnotherRangeEntryVectorLoop (fuel : ℕ) (l : EntryList) (lower : List (ℤ × ℤ))
    (counter : ℕ) : Loop.Outcome (EntryList × ℕ) :=
  if ascending l.ranges ∧ ascending lower then
    (Loop.run UniteCursor.step fuel ⟨l.ranges, lower, none, 0, [], counter⟩).bind
      fun (merged, counter) => .returned ({ l with ranges := merged }, counter)
  else .exited

def mergeItsOwnRangeEntryLoop (fuel : ℕ) (l : EntryList) (counter : ℕ) :
    Loop.Outcome (EntryList × ℕ) :=
  if ascending l.ranges then
    (Loop.run OwnCursor.step fuel ⟨l.ranges, none, 0, [], counter⟩).bind
      fun (merged, counter) => .returned ({ l with ranges := merged }, counter)
  else .exited

/-- Ascending vectors of ranges that end before the greatest `long` are merged into their union
with a gap between neighbours, every joined range is counted, and coalescing any sorted
arrangement of both vectors gives the same ranges. -/
theorem mergeWithAnotherRangeEntryVectorLoop_spec {l : EntryList} {lower : List (ℤ × ℤ)}
    (hl : StartSorted l.ranges) (hlower : StartSorted lower)
    (hlong : ∀ r ∈ l.ranges ++ lower, LongRange r) (hmax : ∀ r ∈ l.ranges ++ lower, r.2 < longMax)
    (counter : ℕ) :
    ∃ ranges counter',
      (∀ fuel, 2 * (l.ranges.length + lower.length) < fuel →
        l.mergeWithAnotherRangeEntryVectorLoop fuel lower counter =
          .returned ({ l with ranges := ranges }, counter')) ∧
      (∀ r ∈ ranges, r.1 ≤ r.2) ∧ ranges.Pairwise (fun a b => a.2 + 1 < b.1) ∧
      coverage ranges = coverage l.ranges ∪ coverage lower ∧
      counter' + ranges.length = counter + (l.ranges.length + lower.length) ∧
      ∀ sorted, sorted.Perm (l.ranges ++ lower) → StartSorted sorted →
        ∀ fuel, 3 * sorted.length < fuel →
          ∃ counter'', mergeItsOwnRangeEntryLoop fuel { l with ranges := sorted } counter =
            .returned ({ l with ranges := ranges }, counter'') := by
  have hvalid := fun r hr => (hlong r hr).2.1
  obtain ⟨hcov, hsep⟩ := separated_uniteAll hl hlower
    (fun r hr => hvalid r (List.mem_append_left _ hr))
    (fun r hr => hvalid r (List.mem_append_right _ hr))
  refine ⟨uniteAll l.ranges lower, counter + mergeDeletedRanges l.ranges lower, ?_, hsep.valid,
    hsep.gapped, hcov, ?_, ?_⟩
  · intro fuel hfuel
    rw [mergeWithAnotherRangeEntryVectorLoop, if_pos ⟨hl.isChain, hlower.isChain⟩,
      run_uniteStep hlong hmax counter hfuel]
    rfl
  · have := length_uniteAll l.ranges lower
    omega
  · intro sorted hperm hsorted fuel hfuel
    have hmem : ∀ r ∈ sorted, r ∈ l.ranges ++ lower := fun r hr => hperm.mem_iff.mp hr
    obtain ⟨hcov', hsep'⟩ := separated_coalesceOwn hsorted fun r hr => hvalid r (hmem r hr)
    have heq : coalesceOwn sorted = uniteAll l.ranges lower := by
      apply hsep'.eq_of_coverage_eq hsep
      rw [hcov', coverage_perm hperm, coverage_append, hcov]
    refine ⟨counter + ownDeletedRanges sorted, ?_⟩
    have hcheck : ascending sorted := hsorted.isChain
    rw [mergeItsOwnRangeEntryLoop, if_pos hcheck,
      run_ownStep (fun r hr => hlong r (hmem r hr)) (fun r hr => hmax r (hmem r hr)) counter hfuel,
      Loop.Outcome.returned_bind, heq]

theorem mergeWithAnotherRangeEntryVectorLoop_spec_sample :
    ∃ ranges counter',
      (∀ fuel, 8 < fuel →
        mergeWithAnotherRangeEntryVectorLoop fuel ⟨[], [(1, 3), (2, 8)]⟩ [(4, 5), (9, 9)] 7 =
          .returned (⟨[], ranges⟩, counter')) ∧
      ranges.Pairwise (fun a b => a.2 + 1 < b.1) ∧ counter' + ranges.length = 11 := by
  have hlong : ∀ r ∈ [(1, 3), (2, 8)] ++ [(4, 5), (9, 9)], LongRange r := by decide
  obtain ⟨ranges, counter', hrun, _, hgap, _, hcount, _⟩ :=
    mergeWithAnotherRangeEntryVectorLoop_spec (l := ⟨[], [(1, 3), (2, 8)]⟩) (by decide) (by decide)
      hlong (by decide) 7
  exact ⟨ranges, counter', hrun, hgap, hcount⟩

/-- After a range that ends at the greatest `long` the next test overflows. -/
theorem mergeWithAnotherRangeEntryVectorLoop_overflows :
    (∀ r ∈ [(0, longMax)] ++ [(5, 6)], LongRange r) ∧
      ∀ fuel, 2 ≤ fuel →
        mergeWithAnotherRangeEntryVectorLoop fuel ⟨[], [(0, longMax)]⟩ [(5, 6)] 0 = .exited := by
  refine ⟨by decide, fun fuel hfuel => ?_⟩
  obtain ⟨n, rfl⟩ := Nat.exists_eq_add_of_le hfuel
  rw [Nat.add_comm]
  rfl

end EntryList

end Spry.Emulation
