import Spry.Emulation.SetFilter

/-!
# Inserting a list of ranges into the set

The two loops of `addRangeDelete(list)` are followed step by step. They never add a key, and they
lose the ranges of the list that end before a stored pair, touch none and do not follow another
range of the list.
-/

namespace Spry.Emulation

open ClosedRange
open HalfOpen (coalesceBy)

namespace PerlevelRangeDeleteFilterBySet

/-- The steps of the two loops of `addRangeDelete(list)`. -/
inductive Joins : Option (ℤ × ℤ) → List (ℤ × ℤ) → List (ℤ × ℤ) → Rebuilt → Prop
  | done {as} : Joins none as [] ⟨as, []⟩
  | skip {a as b bs j} : b.2 + 1 < a.1 → Joins none (a :: as) bs j →
      Joins none (a :: as) (b :: bs) j
  | keep {a as b bs j} : a.2 + 1 < b.1 → Joins none as (b :: bs) j →
      Joins none (a :: as) (b :: bs) (j.keep a)
  | openLeft {a as b bs j} : a.1 ≤ b.2 + 1 → b.1 ≤ a.2 + 1 → a.1 ≤ b.1 →
      Joins (some a) as (b :: bs) j → Joins none (a :: as) (b :: bs) j
  | openRight {a as b bs j} : a.1 ≤ b.2 + 1 → b.1 ≤ a.2 + 1 → b.1 < a.1 →
      Joins (some (grow b a)) as (b :: bs) j → Joins none (a :: as) (b :: bs) j
  | openLast {b bs j} : Joins (some b) [] bs j → Joins none [] (b :: bs) j
  | takeLeft {cur a as bs j} : a.1 ≤ cur.2 + 1 → Joins (some (grow cur a)) as bs j →
      Joins (some cur) (a :: as) bs j
  | takeRight {cur as b bs j} : (∀ a ∈ as.head?, cur.2 + 1 < a.1) → b.1 ≤ cur.2 + 1 →
      Joins (some (grow cur b)) as bs j → Joins (some cur) as (b :: bs) j
  | emit {cur as bs j} : (∀ a ∈ as.head?, cur.2 + 1 < a.1) → (∀ b ∈ bs.head?, cur.2 + 1 < b.1) →
      Joins none as bs j → Joins (some cur) as bs (j.push [cur])

/-- What a loop over the set leaves in it and collects: ranges without a common key, behind the
keys that lie before everything it passes. -/
structure Rebuilds (as : List (ℤ × ℤ)) (low : ℤ → Prop) (j : Rebuilt) : Prop where
  sublist : j.kept.Sublist as
  valid : ∀ r ∈ j.new, r.1 ≤ r.2
  apart : (j.new ++ j.kept).Pairwise Apart
  above : ∀ lo, low lo → ∀ r ∈ j.new ++ j.kept, lo < r.1

namespace Rebuilds

variable {as as' ps : List (ℤ × ℤ)} {low low' : ℤ → Prop} {j : Rebuilt} {a : ℤ × ℤ}

theorem whole (has : Ordered as) (h : ∀ lo, low lo → ∀ a ∈ as, lo < a.1) :
    Rebuilds as low ⟨as, []⟩ :=
  ⟨List.Sublist.refl _, by simp, has.apart, h⟩

theorem mono (h : Rebuilds as low j) (has : as.Sublist as') (hlow : ∀ lo, low' lo → low lo) :
    Rebuilds as' low' j :=
  ⟨h.sublist.trans has, h.valid, h.apart, fun lo hlo => h.above lo (hlow lo hlo)⟩

theorem keep (h : Rebuilds as low j) (ha : low a.2) (hlow : ∀ lo, low' lo → lo < a.1 ∧ low lo) :
    Rebuilds (a :: as) low' (j.keep a) := by
  have hperm : (j.new ++ a :: j.kept).Perm (a :: (j.new ++ j.kept)) := List.perm_middle
  refine ⟨h.sublist.cons_cons a, h.valid, ?_, fun lo hlo r hr => ?_⟩
  · refine (hperm.pairwise_iff Apart.symm).mpr (List.pairwise_cons.mpr ⟨fun r hr => ?_, h.apart⟩)
    exact Or.inl (h.above _ ha r hr)
  · rcases List.mem_cons.mp (hperm.mem_iff.mp hr) with rfl | hr
    · exact (hlow lo hlo).1
    · exact h.above lo (hlow lo hlo).2 r hr

theorem push (h : Rebuilds as low j) (stop : ℤ) (hps : Ordered ps) (hstop : ∀ p ∈ ps, p.2 ≤ stop)
    (hlow : low stop) (hlow' : ∀ lo, low' lo → low lo ∧ ∀ p ∈ ps, lo < p.1) :
    Rebuilds as low' (j.push ps) := by
  refine ⟨h.sublist, fun r hr => ?_, ?_, fun lo hlo r hr => ?_⟩
  · rcases List.mem_append.mp hr with hr | hr
    · exact hps.valid r hr
    · exact h.valid r hr
  · rw [Rebuilt.push, List.append_assoc]
    refine List.pairwise_append.mpr ⟨hps.apart, h.apart, fun p hp r hr => Or.inl ?_⟩
    exact (hstop p hp).trans_lt (h.above stop hlow r hr)
  · rw [Rebuilt.push, List.append_assoc] at hr
    rcases List.mem_append.mp hr with hr | hr
    · exact (hlow' lo hlo).2 r hr
    · exact h.above lo (hlow' lo hlo).1 r hr

/-- The set after the collected ranges have been inserted behind the part that was not passed. -/
theorem ordered_insertPairs {before : List (ℤ × ℤ)} (h : Rebuilds as low j)
    (has : Ordered (before ++ as)) (hlow : ∀ r ∈ before, low r.2) :
    Ordered (insertPairs j.new (before ++ j.kept)) := by
  refine ClosedRange.ordered_insertPairs h.valid
    (has.sublist (h.sublist.append_left before)) ?_
  have hperm : (j.new ++ (before ++ j.kept)).Perm (before ++ (j.new ++ j.kept)) := by
    rw [← List.append_assoc, ← List.append_assoc]
    exact List.perm_append_comm.append_right _
  refine (hperm.pairwise_iff Apart.symm).mpr (List.pairwise_append.mpr ⟨?_, h.apart, ?_⟩)
  · exact (Ordered.append_iff.mp has).1.apart
  · exact fun r hr s hs => Or.inl (h.above _ (hlow r hr) s hs)

end Rebuilds

section Loop

variable {cur : Option (ℤ × ℤ)} {a b c d : ℤ × ℤ} {as bs : List (ℤ × ℤ)} {j : Rebuilt}

theorem joins_coalesceBy (c : ℤ × ℤ) (bs : List (ℤ × ℤ)) :
    Joins (some c) [] bs ⟨[], coalesceBy joins c bs⟩ := by
  induction bs generalizing c with
  | nil => exact Joins.emit (by simp) (by simp) Joins.done
  | cons b bs ih =>
    by_cases hj : joins c.2 b.1 = true
    · rw [coalesceBy, if_pos hj]
      exact Joins.takeRight (by simp) (joins_iff.mp hj) (ih (grow c b))
    · rw [coalesceBy, if_neg hj]
      have hlt : c.2 + 1 < b.1 := not_le.mp fun h => hj (joins_iff.mpr h)
      exact Joins.emit (by simp) (by simpa using hlt) (Joins.openLast (ih b))

theorem joins_joinOpen {rest : Option (ℤ × ℤ) → List (ℤ × ℤ) → Rebuilt}
    (hrest : ∀ cur bs, Joins cur as bs (rest cur bs)) (hskip : Joins none (a :: as) bs j) :
    Joins none (a :: as) (b :: bs) (joinOpen a b bs rest j) := by
  rw [joinOpen]
  split_ifs with h₁ h₂ h₃
  · exact Joins.skip h₁ hskip
  · exact Joins.keep (by omega) (hrest none (b :: bs))
  · exact Joins.openLeft (by omega) (by omega) h₃ (hrest (some a) (b :: bs))
  · exact Joins.openRight (by omega) (by omega) (by omega) (hrest (some (grow b a)) (b :: bs))

theorem joins_joinHead {rest : Option (ℤ × ℤ) → List (ℤ × ℤ) → Rebuilt}
    (hrest : ∀ cur bs, Joins cur as bs (rest cur bs)) (cur : Option (ℤ × ℤ))
    (bs : List (ℤ × ℤ)) : Joins cur (a :: as) bs (joinHead a as rest cur bs) := by
  induction bs generalizing cur with
  | nil =>
    cases cur with
    | none => exact Joins.done
    | some c =>
      rw [joinHead]
      split_ifs with hj
      · exact Joins.takeLeft (joins_iff.mp hj) (hrest _ _)
      · rw [joins_iff] at hj
        exact Joins.emit (by simp; omega) (by simp) Joins.done
  | cons b bs ih =>
    cases cur with
    | none => exact joins_joinOpen hrest (ih none)
    | some c =>
      rw [joinHead]
      split_ifs with hj hjb
      · exact Joins.takeLeft (joins_iff.mp hj) (hrest _ _)
      · rw [joins_iff] at hj
        exact Joins.takeRight (by simp; omega) (joins_iff.mp hjb) (ih _)
      · rw [joins_iff] at hj hjb
        exact Joins.emit (by simp; omega) (by simp; omega) (joins_joinOpen hrest (ih none))

theorem joins_join (as : List (ℤ × ℤ)) (cur : Option (ℤ × ℤ)) (bs : List (ℤ × ℤ)) :
    Joins cur as bs (join as cur bs) := by
  induction as generalizing cur bs with
  | nil =>
    cases cur with
    | none =>
      cases bs with
      | nil => exact Joins.done
      | cons b bs => exact Joins.openLast (joins_coalesceBy b bs)
    | some c => exact joins_coalesceBy c bs
  | cons a as ih => exact joins_joinHead ih cur bs

structure Ahead (cur : Option (ℤ × ℤ)) (as bs : List (ℤ × ℤ)) : Prop where
  left : Ordered as
  right : Ordered bs
  valid : ∀ c ∈ cur, c.1 ≤ c.2
  le_left : ∀ c ∈ cur, ∀ a ∈ as, c.1 ≤ a.1
  le_right : ∀ c ∈ cur, ∀ b ∈ bs, c.1 ≤ b.1

namespace Ahead

theorem closed (has : Ordered as) (hbs : Ordered bs) : Ahead none as bs :=
  ⟨has, hbs, by simp, by simp, by simp⟩

theorem opened (has : Ordered as) (hbs : Ordered bs) (hc : c.1 ≤ c.2) (hca : ∀ a ∈ as, c.1 ≤ a.1)
    (hcb : ∀ b ∈ bs, c.1 ≤ b.1) : Ahead (some c) as bs :=
  ⟨has, hbs, by simpa using hc, by simpa using hca, by simpa using hcb⟩

theorem openLeft (h : Ahead none (a :: as) (b :: bs)) (hab : a.1 ≤ b.1) :
    Ahead (some a) as (b :: bs) := by
  obtain ⟨ha, hlt, has⟩ := Ordered.cons_iff.mp h.left
  refine opened has h.right ha (fun x hx => ?_) (fun y hy => ?_)
  · exact ha.trans (hlt x hx).le
  · rcases List.mem_cons.mp hy with rfl | hy
    · exact hab
    · obtain ⟨hb, hltb, _⟩ := Ordered.cons_iff.mp h.right
      exact hab.trans (hb.trans (hltb y hy).le)

theorem openRight (h : Ahead none (a :: as) (b :: bs)) (hba : b.1 < a.1) :
    Ahead (some (grow b a)) as (b :: bs) := by
  obtain ⟨ha, hlt, has⟩ := Ordered.cons_iff.mp h.left
  obtain ⟨hb, hltb, _⟩ := Ordered.cons_iff.mp h.right
  refine opened has h.right (grow_valid hb) (fun x hx => ?_) (fun y hy => ?_)
  · exact hba.le.trans (ha.trans (hlt x hx).le)
  · rcases List.mem_cons.mp hy with rfl | hy
    · exact le_rfl
    · exact hb.trans (hltb y hy).le

theorem openLast (h : Ahead none [] (b :: bs)) : Ahead (some b) [] bs := by
  obtain ⟨hb, hlt, hbs⟩ := Ordered.cons_iff.mp h.right
  exact opened Ordered.nil hbs hb (by simp) fun y hy => hb.trans (hlt y hy).le

theorem takeLeft (h : Ahead (some c) (a :: as) bs) : Ahead (some (grow c a)) as bs :=
  opened (Ordered.cons_iff.mp h.left).2.2 h.right (grow_valid (h.valid c rfl))
    (fun x hx => h.le_left c rfl x (List.mem_cons_of_mem _ hx)) (h.le_right c rfl)

theorem takeRight (h : Ahead (some c) as (b :: bs)) : Ahead (some (grow c b)) as bs :=
  opened h.left (Ordered.cons_iff.mp h.right).2.2 (grow_valid (h.valid c rfl)) (h.le_left c rfl)
    (fun x hx => h.le_right c rfl x (List.mem_cons_of_mem _ hx))

end Ahead

def Below (cur : Option (ℤ × ℤ)) (as bs : List (ℤ × ℤ)) (lo : ℤ) : Prop :=
  (∀ c ∈ cur, lo < c.1) ∧ (∀ a ∈ as, lo < a.1) ∧ ∀ b ∈ bs, lo < b.1

theorem Ahead.below_head (h : Ahead none as bs) {lo : ℤ} (hleft : ∀ a ∈ as.head?, lo < a.1)
    (hright : ∀ b ∈ bs.head?, lo < b.1) : Below none as bs lo := by
  have hfollow : ∀ rs : List (ℤ × ℤ), Ordered rs → (∀ r ∈ rs.head?, lo < r.1) →
      ∀ r ∈ rs, lo < r.1 := by
    intro rs hrs hhead
    cases rs with
    | nil => simp
    | cons r rs =>
      obtain ⟨hr, hlt, _⟩ := Ordered.cons_iff.mp hrs
      have hlo : lo < r.1 := hhead r rfl
      refine List.forall_mem_cons.mpr ⟨hlo, fun s hs => ?_⟩
      exact hlo.trans (hr.trans_lt (hlt s hs))
  exact ⟨by simp, hfollow as h.left hleft, hfollow bs h.right hright⟩

theorem Joins.rebuilds (h : Joins cur as bs j) (hahead : Ahead cur as bs) :
    Rebuilds as (Below cur as bs) j := by
  induction h with
  | done => exact Rebuilds.whole hahead.left fun lo hlo => hlo.2.1
  | skip _ _ ih =>
    have hright := (Ordered.cons_iff.mp hahead.right).2.2
    refine (ih (Ahead.closed hahead.left hright)).mono (List.Sublist.refl _) fun lo hlo => ?_
    exact ⟨hlo.1, hlo.2.1, fun b hb => hlo.2.2 b (List.mem_cons_of_mem _ hb)⟩
  | @keep a as b bs j hab _ ih =>
    obtain ⟨_, hlt, has⟩ := Ordered.cons_iff.mp hahead.left
    have hnext := Ahead.closed has hahead.right
    refine (ih hnext).keep ?_ fun lo hlo => ⟨hlo.2.1 a (by simp), hlo.1, fun x hx => ?_, hlo.2.2⟩
    · refine hnext.below_head (fun x hx => hlt x (List.mem_of_mem_head? hx)) ?_
      simp only [List.head?_cons, Option.mem_some_iff, forall_eq']
      omega
    · exact hlo.2.1 x (List.mem_cons_of_mem _ hx)
  | @openLeft a as b bs j _ _ hab _ ih =>
    refine (ih (hahead.openLeft hab)).mono (List.sublist_cons_self _ _) fun lo hlo => ?_
    refine ⟨?_, fun x hx => hlo.2.1 x (List.mem_cons_of_mem _ hx), hlo.2.2⟩
    simpa using hlo.2.1 a (by simp)
  | @openRight a as b bs j _ _ hba _ ih =>
    refine (ih (hahead.openRight hba)).mono (List.sublist_cons_self _ _) fun lo hlo => ?_
    refine ⟨?_, fun x hx => hlo.2.1 x (List.mem_cons_of_mem _ hx), hlo.2.2⟩
    simpa [grow] using hlo.2.2 b (by simp)
  | @openLast b bs j _ ih =>
    refine (ih hahead.openLast).mono (List.Sublist.refl _) fun lo hlo => ?_
    refine ⟨?_, hlo.2.1, fun x hx => hlo.2.2 x (List.mem_cons_of_mem _ hx)⟩
    simpa using hlo.2.2 b (by simp)
  | takeLeft _ _ ih =>
    refine (ih hahead.takeLeft).mono (List.sublist_cons_self _ _) fun lo hlo => ?_
    refine ⟨?_, fun x hx => hlo.2.1 x (List.mem_cons_of_mem _ hx), hlo.2.2⟩
    simpa [grow] using hlo.1
  | takeRight _ _ _ ih =>
    refine (ih hahead.takeRight).mono (List.Sublist.refl _) fun lo hlo => ?_
    refine ⟨?_, hlo.2.1, fun x hx => hlo.2.2 x (List.mem_cons_of_mem _ hx)⟩
    simpa [grow] using hlo.1
  | @emit c as bs j hleft hright _ ih =>
    have hnext := Ahead.closed hahead.left hahead.right
    have hc := hahead.valid c rfl
    refine (ih hnext).push c.2 (Ordered.cons_iff.mpr ⟨hc, by simp, Ordered.nil⟩)
      (by simp) ?_ fun lo hlo => ⟨⟨by simp, hlo.2⟩, by simpa using hlo.1⟩
    refine hnext.below_head (fun a ha => ?_) fun b hb => ?_
    · have := hleft a ha
      omega
    · have := hright b hb
      omega

theorem coverage_grow (hle : c.1 ≤ a.1) (hj : a.1 ≤ c.2 + 1) :
    Set.Icc (grow c a).1 (grow c a).2 = Set.Icc c.1 c.2 ∪ Set.Icc a.1 a.2 := by
  ext k
  simp only [grow, Set.mem_union, Set.mem_Icc, le_max_iff]
  omega

theorem coverage_keep : coverage ((j.keep a).new ++ (j.keep a).kept) =
    Set.Icc a.1 a.2 ∪ coverage (j.new ++ j.kept) := by
  simp only [Rebuilt.keep, coverage_append, coverage_cons]
  exact Set.union_left_comm _ _ _

theorem coverage_push {ps : List (ℤ × ℤ)} : coverage ((j.push ps).new ++ (j.push ps).kept) =
    coverage ps ∪ coverage (j.new ++ j.kept) := by
  simp only [Rebuilt.push, coverage_append, Set.union_assoc]

def keysAhead (cur : Option (ℤ × ℤ)) (as bs : List (ℤ × ℤ)) : Set ℤ :=
  coverage cur.toList ∪ (coverage as ∪ coverage bs)

theorem keysAhead_none : keysAhead none as bs = coverage as ∪ coverage bs := by
  simp [keysAhead]

theorem keysAhead_some : keysAhead (some c) as bs = Set.Icc c.1 c.2 ∪ keysAhead none as bs := by
  simp [keysAhead]

theorem keysAhead_left : keysAhead none (a :: as) bs = Set.Icc a.1 a.2 ∪ keysAhead none as bs := by
  rw [keysAhead_none, keysAhead_none, coverage_cons, Set.union_assoc]

theorem keysAhead_right :
    keysAhead none as (b :: bs) = Set.Icc b.1 b.2 ∪ keysAhead none as bs := by
  rw [keysAhead_none, keysAhead_none, coverage_cons, Set.union_left_comm]

theorem keysAhead_openRight (hab : a.1 ≤ b.2 + 1) (hba : b.1 < a.1) :
    keysAhead (some (grow b a)) as (b :: bs) = keysAhead none (a :: as) (b :: bs) := by
  rw [keysAhead_some, coverage_grow hba.le hab, keysAhead_right, keysAhead_left, keysAhead_right,
    Set.union_assoc, Set.union_left_comm, ← Set.union_assoc (Set.Icc b.1 b.2), Set.union_self]

theorem keysAhead_takeLeft (hle : c.1 ≤ a.1) (hj : a.1 ≤ c.2 + 1) :
    keysAhead (some (grow c a)) as bs = keysAhead (some c) (a :: as) bs := by
  rw [keysAhead_some, coverage_grow hle hj, keysAhead_some, keysAhead_left, Set.union_assoc]

theorem keysAhead_takeRight (hle : c.1 ≤ b.1) (hj : b.1 ≤ c.2 + 1) :
    keysAhead (some (grow c b)) as bs = keysAhead (some c) as (b :: bs) := by
  rw [keysAhead_some, coverage_grow hle hj, keysAhead_some, keysAhead_right, Set.union_assoc]

theorem Joins.coverage_subset (h : Joins cur as bs j) (hahead : Ahead cur as bs) :
    coverage (j.new ++ j.kept) ⊆ keysAhead cur as bs := by
  induction h with
  | done => simp [keysAhead_none]
  | skip _ _ ih =>
    rw [keysAhead_right]
    have hnext := Ahead.closed hahead.left (Ordered.cons_iff.mp hahead.right).2.2
    exact (ih hnext).trans Set.subset_union_right
  | keep _ _ ih =>
    rw [coverage_keep, keysAhead_left]
    have hnext := Ahead.closed (Ordered.cons_iff.mp hahead.left).2.2 hahead.right
    exact Set.union_subset_union_right _ (ih hnext)
  | openLeft _ _ hab _ ih =>
    rw [keysAhead_left, ← keysAhead_some]
    exact ih (hahead.openLeft hab)
  | openRight hab _ hba _ ih =>
    rw [← keysAhead_openRight hab hba]
    exact ih (hahead.openRight hba)
  | openLast _ ih =>
    rw [keysAhead_right, ← keysAhead_some]
    exact ih hahead.openLast
  | @takeLeft c a as bs j hj _ ih =>
    rw [← keysAhead_takeLeft (hahead.le_left c rfl a (by simp)) hj]
    exact ih hahead.takeLeft
  | @takeRight c as b bs j _ hj _ ih =>
    rw [← keysAhead_takeRight (hahead.le_right c rfl b (by simp)) hj]
    exact ih hahead.takeRight
  | emit _ _ _ ih =>
    rw [coverage_push, keysAhead_some, coverage_cons, coverage_nil, Set.union_empty]
    exact Set.union_subset_union_right _ (ih (Ahead.closed hahead.left hahead.right))

def Touch (a b : ℤ × ℤ) : Prop := a.1 ≤ b.2 + 1 ∧ b.1 ≤ a.2 + 1

/-- The range touches a pair of the set, or no pair lies behind it, or it follows another range of
the list without a gap. -/
def Connected (as bs : List (ℤ × ℤ)) (b : ℤ × ℤ) : Prop :=
  (∃ a ∈ as, Touch a b) ∨ (∀ a ∈ as, a.1 ≤ b.2 + 1) ∨ ∃ b' ∈ bs, b'.2 + 1 = b.1

theorem connected_head (hbs : Ordered (b :: bs)) :
    Connected as (b :: bs) b ↔ (∃ a ∈ as, Touch a b) ∨ ∀ a ∈ as, a.1 ≤ b.2 + 1 := by
  obtain ⟨hb, hlt, hbs'⟩ := Ordered.cons_iff.mp hbs
  have hfirst : ¬ ∃ b' ∈ b :: bs, b'.2 + 1 = b.1 := by
    rintro ⟨b', hb', heq⟩
    rcases List.mem_cons.mp hb' with rfl | hb'
    · omega
    · have := hlt b' hb'
      have := hbs'.valid b' hb'
      omega
  rw [Connected, or_iff_left hfirst]

def Reached (cur : Option (ℤ × ℤ)) (as bs : List (ℤ × ℤ)) (b : ℤ × ℤ) : Prop :=
  Connected as bs b ∨ ∃ c ∈ cur, b.1 ≤ c.2 + 1

theorem reached_none : Reached none as bs b ↔ Connected as bs b := by
  simp [Reached]

theorem Reached.of_left (h : Reached cur (a :: as) bs b)
    (hcur : ∀ c ∈ cur, c.2 ≤ d.2) (ha : a.2 ≤ d.2) : Reached (some d) as bs b := by
  rcases h with (⟨x, hx, htouch⟩ | hall | hprev) | ⟨c, hc, hbc⟩
  · rcases List.mem_cons.mp hx with rfl | hx
    · exact Or.inr ⟨d, rfl, by have := htouch.2; omega⟩
    · exact Or.inl (Or.inl ⟨x, hx, htouch⟩)
  · exact Or.inl (Or.inr (Or.inl fun x hx => hall x (List.mem_cons_of_mem _ hx)))
  · exact Or.inl (Or.inr (Or.inr hprev))
  · exact Or.inr ⟨d, rfl, by have := hcur c hc; omega⟩

theorem Reached.of_right (h : Reached cur as (b' :: bs) b)
    (hcur : ∀ c ∈ cur, c.2 ≤ d.2) (hb : b'.2 ≤ d.2) : Reached (some d) as bs b := by
  rcases h with (⟨x, hx, htouch⟩ | hall | ⟨y, hy, hprev⟩) | ⟨c, hc, hbc⟩
  · exact Or.inl (Or.inl ⟨x, hx, htouch⟩)
  · exact Or.inl (Or.inr (Or.inl hall))
  · rcases List.mem_cons.mp hy with rfl | hy
    · exact Or.inr ⟨d, rfl, by omega⟩
    · exact Or.inl (Or.inr (Or.inr ⟨y, hy, hprev⟩))
  · exact Or.inr ⟨d, rfl, by have := hcur c hc; omega⟩

theorem Joins.subset_coverage (h : Joins cur as bs j) (hahead : Ahead cur as bs)
    (hbs : ∀ b ∈ bs, Reached cur as bs b) : keysAhead cur as bs ⊆ coverage (j.new ++ j.kept) := by
  induction h with
  | done => simp [keysAhead_none]
  | @skip a as b bs j hab _ ih =>
    -- the first range of the list is connected, so it is not skipped
    obtain ⟨ha, hlt, _⟩ := Ordered.cons_iff.mp hahead.left
    rcases (connected_head hahead.right).mp (reached_none.mp (hbs b (by simp))) with
      ⟨x, hx, htouch⟩ | hall
    · rcases List.mem_cons.mp hx with rfl | hx
      · exact absurd htouch.1 (by omega)
      · have := hlt x hx
        exact absurd htouch.1 (by omega)
    · exact absurd (hall a (by simp)) (by omega)
  | @keep a as b bs j hab _ ih =>
    obtain ⟨_, hlt, has⟩ := Ordered.cons_iff.mp hahead.left
    obtain ⟨hb, hltb, _⟩ := Ordered.cons_iff.mp hahead.right
    rw [coverage_keep, keysAhead_left]
    refine Set.union_subset_union_right _ (ih (Ahead.closed has hahead.right) fun y hy => ?_)
    have hfar : a.2 + 1 < y.1 := by
      rcases List.mem_cons.mp hy with rfl | hy
      · exact hab
      · have := hltb y hy
        omega
    rcases reached_none.mp (hbs y hy) with ⟨x, hx, htouch⟩ | hall | hprev
    · rcases List.mem_cons.mp hx with rfl | hx
      · exact absurd htouch.2 (not_le.mpr hfar)
      · exact reached_none.mpr (Or.inl ⟨x, hx, htouch⟩)
    · exact reached_none.mpr (Or.inr (Or.inl fun x hx => hall x (List.mem_cons_of_mem _ hx)))
    · exact reached_none.mpr (Or.inr (Or.inr hprev))
  | openLeft _ _ hab _ ih =>
    rw [keysAhead_left, ← keysAhead_some]
    exact ih (hahead.openLeft hab) fun y hy => (hbs y hy).of_left (by simp) le_rfl
  | openRight hab _ hba _ ih =>
    rw [← keysAhead_openRight hab hba]
    exact ih (hahead.openRight hba) fun y hy => (hbs y hy).of_left (by simp) (le_max_right _ _)
  | openLast _ ih =>
    rw [keysAhead_right, ← keysAhead_some]
    refine ih hahead.openLast fun y hy => ?_
    exact (hbs y (List.mem_cons_of_mem _ hy)).of_right (by simp) le_rfl
  | @takeLeft c a as bs j hj _ ih =>
    rw [← keysAhead_takeLeft (hahead.le_left c rfl a (by simp)) hj]
    refine ih hahead.takeLeft fun y hy => (hbs y hy).of_left ?_ (le_max_right _ _)
    simp [grow]
  | @takeRight c as b bs j _ hj _ ih =>
    rw [← keysAhead_takeRight (hahead.le_right c rfl b (by simp)) hj]
    refine ih hahead.takeRight fun y hy => ?_
    refine (hbs y (List.mem_cons_of_mem _ hy)).of_right ?_ (le_max_right _ _)
    simp [grow]
  | @emit c as bs j hleft hright _ ih =>
    have hnext := Ahead.closed hahead.left hahead.right
    rw [coverage_push, keysAhead_some, coverage_cons, coverage_nil, Set.union_empty]
    refine Set.union_subset_union_right _ (ih hnext fun y hy => ?_)
    -- the current range has been closed because the next one does not touch it
    have hlo := (hnext.below_head hleft hright).2.2 y hy
    rcases hbs y hy with hconnected | ⟨d, hd, hyd⟩
    · exact Or.inl hconnected
    · obtain rfl := Option.some.inj hd
      omega

/-- The range touches no pair ahead, lies before one of them and follows no other range, and the
current range ends before it. -/
structure Missed (cur : Option (ℤ × ℤ)) (as bs : List (ℤ × ℤ)) (b : ℤ × ℤ) : Prop where
  touch : ∀ a ∈ as, ¬ Touch a b
  far : ∃ a ∈ as, b.2 + 1 < a.1
  prev : ∀ b' ∈ bs, b'.2 + 1 ≠ b.1
  behind : ∀ c ∈ cur, c.2 + 1 < b.1

namespace Missed

theorem of_not_reached (h : ¬ Reached cur as bs b) : Missed cur as bs b := by
  simp only [Reached, Connected, not_or, not_exists, not_and, not_forall, not_le,
    exists_prop] at h
  obtain ⟨⟨htouch, hfar, hprev⟩, hcur⟩ := h
  exact ⟨htouch, hfar, hprev, hcur⟩

theorem lt_start (h : Missed cur (a :: as) bs b) (ha : a.1 ≤ b.2 + 1) : a.2 + 1 < b.1 := by
  have hna := h.touch a (by simp)
  rw [Touch] at hna
  omega

theorem passLeft {cur' : Option (ℤ × ℤ)} (h : Missed cur (a :: as) bs b) (ha : a.1 ≤ b.2 + 1)
    (hcur : ∀ c ∈ cur', c.2 + 1 < b.1) : Missed cur' as bs b := by
  obtain ⟨x, hx, hlt⟩ := h.far
  refine ⟨fun x hx => h.touch x (List.mem_cons_of_mem _ hx), ?_, h.prev, hcur⟩
  rcases List.mem_cons.mp hx with rfl | hx
  · omega
  · exact ⟨x, hx, hlt⟩

theorem passRight {cur' : Option (ℤ × ℤ)} (h : Missed cur as (c :: bs) b)
    (hcur : ∀ c ∈ cur', c.2 + 1 < b.1) : Missed cur' as bs b :=
  ⟨h.touch, h.far, fun y hy => h.prev y (List.mem_cons_of_mem _ hy), hcur⟩

end Missed

theorem disjoint_of_not_touch (h : ¬ Touch a b) :
    Disjoint (Set.Icc a.1 a.2) (Set.Icc b.1 b.2) := by
  rw [Touch] at h
  rw [Set.disjoint_left]
  rintro k ⟨h₁, h₂⟩ ⟨h₃, h₄⟩
  omega

theorem disjoint_coverage_of_forall {s : Set ℤ}
    (h : ∀ a ∈ as, Disjoint (Set.Icc a.1 a.2) s) : Disjoint (coverage as) s := by
  rw [Set.disjoint_left]
  rintro k ⟨a, ha, hk⟩ hs
  exact Set.disjoint_left.mp (h a ha) hk hs

theorem Joins.disjoint_coverage (h : Joins cur as bs j) (hahead : Ahead cur as bs) (hb : b ∈ bs)
    (hmissed : Missed cur as bs b) :
    Disjoint (coverage (j.new ++ j.kept)) (Set.Icc b.1 b.2) := by
  have hvalid := hahead.right.valid b hb
  induction h with
  | done => exact absurd hb List.not_mem_nil
  | @skip a as y bs j hya hnext ih =>
    obtain ⟨_, hlt, hbs⟩ := Ordered.cons_iff.mp hahead.right
    have hnone := Ahead.closed hahead.left hbs
    rcases hahead.right.eq_or_lt_of_mem hb with rfl | ⟨hb, _⟩
    · refine Disjoint.mono_left (hnext.coverage_subset hnone) ?_
      rw [keysAhead_none, Set.disjoint_union_left]
      refine ⟨disjoint_coverage_of_forall fun x hx => disjoint_of_not_touch (hmissed.touch x hx),
        disjoint_coverage_of_forall fun x hx => ?_⟩
      exact (disjoint_Icc_iff (hbs.valid x hx) hvalid).mpr (Or.inr (hlt x hx))
    · exact ih hnone hb (hmissed.passRight hmissed.behind)
  | @keep a as y bs j hay _ ih =>
    have hyb : y.1 ≤ b.1 := by
      rcases hahead.right.eq_or_lt_of_mem hb with rfl | ⟨_, hlt⟩
      · exact le_rfl
      · have := hahead.right.valid y (by simp)
        omega
    have ha := hahead.left.valid a (by simp)
    rw [coverage_keep, Set.disjoint_union_left]
    refine ⟨disjoint_of_not_touch (hmissed.touch a (by simp)), ?_⟩
    exact ih (Ahead.closed (Ordered.cons_iff.mp hahead.left).2.2 hahead.right) hb
      (hmissed.passLeft (by omega) hmissed.behind)
  | @openLeft a as y bs j hay hya hle _ ih =>
    have hab : a.1 ≤ b.2 + 1 := by
      rcases hahead.right.eq_or_lt_of_mem hb with rfl | ⟨_, hlt⟩
      · exact hay
      · omega
    have hlt := hmissed.lt_start hab
    exact ih (hahead.openLeft hle) hb (hmissed.passLeft hab (by simpa using hlt))
  | @openRight a as y bs j hay hya hlt _ ih =>
    have hny := hmissed.prev y (by simp)
    rcases hahead.right.eq_or_lt_of_mem hb with rfl | ⟨hb', hyb⟩
    · exact absurd ⟨hay, hya⟩ (hmissed.touch a (by simp))
    · have hab : a.1 ≤ b.2 + 1 := by omega
      have hlt' := hmissed.lt_start hab
      refine ih (hahead.openRight hlt) hb (hmissed.passLeft hab ?_)
      simp only [Option.mem_some_iff, forall_eq', grow]
      omega
  | openLast _ ih =>
    obtain ⟨x, hx, _⟩ := hmissed.far
    exact absurd hx List.not_mem_nil
  | @takeLeft c a as bs j hj _ ih =>
    have hc := hmissed.behind c rfl
    have hab : a.1 ≤ b.2 + 1 := by omega
    have hlt := hmissed.lt_start hab
    refine ih hahead.takeLeft hb (hmissed.passLeft hab ?_)
    simp only [Option.mem_some_iff, forall_eq', grow]
    omega
  | @takeRight c as y bs j _ hj _ ih =>
    have hc := hmissed.behind c rfl
    have hny := hmissed.prev y (by simp)
    rcases hahead.right.eq_or_lt_of_mem hb with rfl | ⟨hb', hyb⟩
    · omega
    · refine ih hahead.takeRight hb' (hmissed.passRight ?_)
      simp only [Option.mem_some_iff, forall_eq', grow]
      omega
  | @emit c as bs j hleft hright _ ih =>
    have hc := hmissed.behind c rfl
    rw [coverage_push, Set.disjoint_union_left]
    refine ⟨disjoint_coverage_of_forall ?_, ?_⟩
    · simp only [List.mem_singleton, forall_eq]
      exact (disjoint_Icc_iff (hahead.valid c rfl) hvalid).mpr (Or.inl (by omega))
    · exact ih (Ahead.closed hahead.left hahead.right) hb { hmissed with behind := by simp }

end Loop

section Add

variable {S rs out : List (ℤ × ℤ)}

theorem addRangeDelete_eq_some (hS : Ordered S) (hrs : Ordered rs) : ∃ out,
    addRangeDelete S rs = some out ∧ Ordered out ∧ coverage out ⊆ coverage S ∪ coverage rs ∧
      ((∀ b ∈ rs, Connected S rs b) → coverage out = coverage S ∪ coverage rs) ∧
      ∀ b ∈ rs, ¬ Connected S rs b → Disjoint (coverage out) (Set.Icc b.1 b.2) := by
  have hjoins := joins_join S none rs
  have hahead := Ahead.closed hS hrs
  have hcov : coverage (insertPairs (join S none rs).new (join S none rs).kept) =
      coverage ((join S none rs).new ++ (join S none rs).kept) := by
    rw [coverage_insertPairs, coverage_append]
  have hchain : S.IsChain (fun a b => a.2 ≤ b.1) :=
    (hS.disjoint.imp fun hab => hab.le).isChain
  refine ⟨_, if_pos ⟨hS.startSorted.isChain, hrs.startSorted.isChain, hchain⟩, ?_, ?_, ?_, ?_⟩
  · exact (hjoins.rebuilds hahead).ordered_insertPairs (List.nil_append S ▸ hS) (by simp)
  · rw [hcov, ← keysAhead_none]
    exact hjoins.coverage_subset hahead
  · intro hall
    rw [hcov, ← keysAhead_none]
    refine Set.Subset.antisymm (hjoins.coverage_subset hahead) (hjoins.subset_coverage hahead ?_)
    exact fun b hb => reached_none.mpr (hall b hb)
  · intro b hb hn
    rw [hcov]
    exact hjoins.disjoint_coverage hahead hb
      (Missed.of_not_reached fun h => hn (reached_none.mp h))

end Add

end PerlevelRangeDeleteFilterBySet

end Spry.Emulation
