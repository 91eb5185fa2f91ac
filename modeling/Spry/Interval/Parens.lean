import Spry.Interval.HalfOpen

/-!
# Range lists as end points with parentheses

A range list can be stored as the ascending list of its end points, each with a left bit, set if
a range starts there, and a right bit, set if one ends there. For ordered ranges the first end
point at or after a key tells whether the key is covered.
-/

namespace HalfOpen

structure ParenKey (K : Type*) where
  key : K
  left : Bool
  right : Bool
  deriving DecidableEq

variable {K : Type*} [LinearOrder K]

def pushStart (ks : List (ParenKey K)) (start : K) : List (ParenKey K) :=
  match ks with
  | [] => [⟨start, true, false⟩]
  | p :: ps =>
    if p.key = start then { p with left := true } :: ps
    else ⟨start, true, false⟩ :: p :: ps

def emitRange (ks : List (ParenKey K)) (r : K × K) : List (ParenKey K) :=
  if r.1 = r.2 then pushStart ks r.1 else ⟨r.2, false, true⟩ :: pushStart ks r.1

def parens (rs : List (K × K)) : List (ParenKey K) := (rs.foldl emitRange []).reverse

/-- The end points once a range is opened: its start is the newest one, and has a right bit if
it was there with one. -/
structure Pushed (ks : List (ParenKey K)) (start : K) (top : ParenKey K)
    (rest : List (ParenKey K)) : Prop where
  key : top.key = start
  left : top.left = true
  descending : rest.Pairwise (fun a b => b.key < a.key)
  below : ∀ p ∈ rest, p ∈ ks ∧ p.key < start
  kept : ∀ p ∈ ks, p ∈ rest ∨ (p.key = start ∧ p.right = top.right)
  right : top.right = true → ∃ p ∈ ks, p.key = start ∧ p.right = true

theorem exists_pushed {ks : List (ParenKey K)} (hks : ks.Pairwise (fun a b => b.key < a.key))
    {start : K} (hstart : ∀ p ∈ ks, p.key ≤ start) :
    ∃ top below, pushStart ks start = top :: below ∧ Pushed ks start top below := by
  cases ks with
  | nil =>
    exact ⟨⟨start, true, false⟩, [], rfl, rfl, rfl, List.Pairwise.nil, by simp, by simp, by simp⟩
  | cons p ps =>
    obtain ⟨hlt, hps⟩ := List.pairwise_cons.mp hks
    by_cases heq : p.key = start
    · refine ⟨{ p with left := true }, ps, by simp [pushStart, heq], heq, rfl, hps, ?_, ?_, ?_⟩
      · exact fun q hq => ⟨List.mem_cons_of_mem p hq, heq ▸ hlt q hq⟩
      · intro q hq
        cases List.mem_cons.mp hq with
        | inl hq => exact Or.inr ⟨hq ▸ heq, by rw [hq]⟩
        | inr hq => exact Or.inl hq
      · exact fun hright => ⟨p, List.mem_cons_self, heq, hright⟩
    · have hp : p.key < start := lt_of_le_of_ne (hstart p List.mem_cons_self) heq
      refine ⟨⟨start, true, false⟩, p :: ps, by simp [pushStart, heq], rfl, rfl, hks, ?_,
        fun q hq => Or.inl hq, by simp⟩
      intro q hq
      cases List.mem_cons.mp hq with
      | inl heq => exact ⟨hq, heq ▸ hp⟩
      | inr hmem => exact ⟨hq, (hlt q hmem).trans hp⟩

theorem Pushed.exists_key_iff {ks : List (ParenKey K)} {start : K} {top : ParenKey K}
    {below : List (ParenKey K)} (h : Pushed ks start top below) (x : K) :
    start = x ∨ (∃ p ∈ below, p.key = x) ↔ start = x ∨ ∃ p ∈ ks, p.key = x := by
  constructor
  · rintro (heq | ⟨p, hp, heq⟩)
    · exact Or.inl heq
    · exact Or.inr ⟨p, (h.below p hp).1, heq⟩
  · rintro (heq | ⟨p, hp, heq⟩)
    · exact Or.inl heq
    · cases h.kept p hp with
      | inl hp => exact Or.inr ⟨p, hp, heq⟩
      | inr hp => exact Or.inl (hp.1.symm.trans heq)

/-- The end points of a range list, newest first, with the bits they should have. -/
structure Encodes (rs : List (K × K)) (ks : List (ParenKey K)) : Prop where
  descending : ks.Pairwise (fun a b => b.key < a.key)
  keys : ∀ x, (∃ p ∈ ks, p.key = x) ↔ ∃ r ∈ rs, r.1 = x ∨ r.2 = x
  left : ∀ p ∈ ks, p.left = true ↔ ∃ r ∈ rs, r.1 = p.key
  right : ∀ p ∈ ks, p.right = true ↔ ∃ r ∈ rs, r.2 = p.key

theorem Pushed.right_iff {rs : List (K × K)} {ks : List (ParenKey K)} {start : K}
    {top : ParenKey K} {rest : List (ParenKey K)} (hpushed : Pushed ks start top rest)
    (h : Encodes rs ks) : top.right = true ↔ ∃ r ∈ rs, r.2 = start := by
  constructor
  · intro hright
    obtain ⟨p, hp, rfl, hpright⟩ := hpushed.right hright
    exact (h.right p hp).mp hpright
  · rintro ⟨r, hr, hend⟩
    obtain ⟨p, hp, hkey⟩ := (h.keys start).mpr ⟨r, hr, Or.inr hend⟩
    rcases hpushed.kept p hp with hp' | ⟨_, hright⟩
    · exact absurd hkey (hpushed.below p hp').2.ne
    · rw [← hright, h.right p hp, hkey]
      exact ⟨r, hr, hend⟩

theorem pushStart_spec {rs : List (K × K)} {ks : List (ParenKey K)} (h : Encodes rs ks)
    {start : K} (hstart : ∀ p ∈ ks, p.key ≤ start) :
    (pushStart ks start).Pairwise (fun a b => b.key < a.key) ∧
      (∀ x, (∃ p ∈ pushStart ks start, p.key = x) ↔ (∃ p ∈ ks, p.key = x) ∨ start = x) ∧
      (∀ p ∈ pushStart ks start, p.left = true ↔ (∃ r ∈ rs, r.1 = p.key) ∨ start = p.key) ∧
      ∀ p ∈ pushStart ks start, p.right = true ↔ ∃ r ∈ rs, r.2 = p.key := by
  obtain ⟨top, rest, hpush, hpushed⟩ := exists_pushed h.descending hstart
  rw [hpush]
  refine ⟨List.pairwise_cons.mpr ⟨?_, hpushed.descending⟩, ?_, ?_, ?_⟩
  · intro q hq
    exact hpushed.key ▸ (hpushed.below q hq).2
  · intro x
    rw [List.exists_mem_cons_iff, hpushed.key, hpushed.exists_key_iff, or_comm]
  · intro q hq
    rcases List.mem_cons.mp hq with rfl | hq
    · simp [hpushed.left, hpushed.key]
    · obtain ⟨hmem, hlt⟩ := hpushed.below q hq
      rw [h.left q hmem, or_iff_left hlt.ne']
  · intro q hq
    rcases List.mem_cons.mp hq with rfl | hq
    · rw [hpushed.key]
      exact hpushed.right_iff h
    · exact h.right q (hpushed.below q hq).1

theorem Encodes.key_le {rs : List (K × K)} {ks : List (ParenKey K)} (h : Encodes rs ks)
    {r : K × K} (hord : Ordered (rs ++ [r])) : ∀ p ∈ ks, p.key ≤ r.1 := by
  intro p hp
  obtain ⟨s, hs, hend⟩ := (h.keys p.key).mp ⟨p, hp, rfl⟩
  have hne := hord.nonempty s (by simp [hs])
  have hle : s.2 ≤ r.1 := (List.pairwise_append.mp hord.disjoint).2.2 s hs r (by simp)
  cases hend with
  | inl hend => exact hend ▸ hne.le.trans hle
  | inr hend => exact hend ▸ hle

theorem Encodes.emitRange {rs : List (K × K)} {ks : List (ParenKey K)} (h : Encodes rs ks)
    {r : K × K} (hord : Ordered (rs ++ [r])) : Encodes (rs ++ [r]) (emitRange ks r) := by
  have hr : r.1 < r.2 := hord.nonempty r (by simp)
  have hends : ∀ s ∈ rs, s.1 < r.2 ∧ s.2 ≤ r.1 := by
    intro s hs
    have hle : s.2 ≤ r.1 := (List.pairwise_append.mp hord.disjoint).2.2 s hs r (by simp)
    exact ⟨(hord.nonempty s (by simp [hs])).trans_le (hle.trans hr.le), hle⟩
  obtain ⟨hdesc, hkeys, hleft, hright⟩ := pushStart_spec h (h.key_le hord)
  have hlt : ∀ p ∈ pushStart ks r.1, p.key < r.2 := by
    intro p hp
    cases (hkeys p.key).mp ⟨p, hp, rfl⟩ with
    | inl hq =>
      obtain ⟨q, hq, heq⟩ := hq
      exact heq ▸ (h.key_le hord q hq).trans_lt hr
    | inr heq => exact heq ▸ hr
  have hemit : HalfOpen.emitRange ks r = ⟨r.2, false, true⟩ :: pushStart ks r.1 := by
    rw [HalfOpen.emitRange, if_neg hr.ne]
  rw [hemit]
  refine ⟨List.pairwise_cons.mpr ⟨hlt, hdesc⟩, ?_, ?_, ?_⟩
  · intro x
    rw [List.exists_mem_cons_iff, hkeys x, h.keys x]
    simp only [List.mem_append, List.mem_singleton, or_and_right, exists_or, exists_eq_left]
    grind
  · intro p hp
    cases List.mem_cons.mp hp with
    | inl hp =>
      have hno : ¬ ∃ s ∈ rs ++ [r], s.1 = r.2 := by
        intro hs
        obtain ⟨s, hs, heq⟩ := hs
        cases List.mem_append.mp hs with
        | inl hs => exact absurd heq (hends s hs).1.ne
        | inr hs =>
          rw [List.mem_singleton.mp hs] at heq
          exact absurd heq hr.ne
      rw [hp]
      simpa using hno
    | inr hp =>
      rw [hleft p hp]
      simp only [List.mem_append, List.mem_singleton, or_and_right, exists_or, exists_eq_left]
  · intro p hp
    cases List.mem_cons.mp hp with
    | inl hp =>
      rw [hp]
      exact ⟨fun _ => ⟨r, by simp, rfl⟩, fun _ => rfl⟩
    | inr hp =>
      rw [hright p hp]
      simp only [List.mem_append, List.mem_singleton, or_and_right, exists_or, exists_eq_left]
      exact ⟨Or.inl, fun hs => hs.resolve_right (hlt p hp).ne'⟩

theorem encodes_foldl_emitRange {rs : List (K × K)} (hord : Ordered rs) :
    Encodes rs (rs.foldl emitRange []) := by
  induction rs using List.reverseRecOn with
  | nil => exact ⟨List.Pairwise.nil, by simp, by simp, by simp⟩
  | append_singleton rs r ih =>
    rw [List.foldl_append]
    exact (ih (hord.sublist (List.sublist_append_left rs [r]))).emitRange hord

def seekEnd (ks : List (ParenKey K)) (key : K) : Option (ParenKey K) :=
  ks.find? (fun p => key ≤ p.key)

theorem seekEnd_least {ks : List (ParenKey K)} (hasc : ks.Pairwise (fun a b => a.key < b.key))
    {key : K} {p : ParenKey K} (h : seekEnd ks key = some p) :
    p ∈ ks ∧ key ≤ p.key ∧ ∀ q ∈ ks, key ≤ q.key → p.key ≤ q.key := by
  obtain ⟨hkey, pre, post, rfl, hpre⟩ := List.find?_eq_some_iff_append.mp h
  refine ⟨by simp, by simpa using hkey, ?_⟩
  intro q hq hle
  cases List.mem_append.mp hq with
  | inl hq => exact absurd hle (by simpa using hpre q hq)
  | inr hq =>
    cases List.mem_cons.mp hq with
    | inl hq => rw [hq]
    | inr hq =>
      exact ((List.pairwise_cons.mp (List.pairwise_append.mp hasc).2.1).1 q hq).le

section Seek

variable {rs : List (K × K)} (hord : Ordered rs) {key : K}
include hord

theorem ascending_parens : (parens rs).Pairwise (fun a b => a.key < b.key) :=
  List.pairwise_reverse.mpr (encodes_foldl_emitRange hord).descending

theorem mem_parens_iff {x : K} :
    (∃ p ∈ parens rs, p.key = x) ↔ ∃ r ∈ rs, r.1 = x ∨ r.2 = x := by
  simpa [parens] using (encodes_foldl_emitRange hord).keys x

theorem notMem_coverage_of_seekEnd_none (h : seekEnd (parens rs) key = none) :
    key ∉ coverage rs := by
  intro hcov
  obtain ⟨r, hr, _, hhi⟩ := mem_coverage.mp hcov
  obtain ⟨p, hp, hpr⟩ := (mem_parens_iff hord).mpr ⟨r, hr, Or.inr rfl⟩
  have := List.find?_eq_none.mp h p hp
  simp only [decide_eq_true_eq, hpr] at this
  exact this hhi.le

theorem left_iff_mem_coverage {p : ParenKey K} (h : seekEnd (parens rs) key = some p)
    (heq : p.key = key) : p.left = true ↔ key ∈ coverage rs := by
  obtain ⟨hp, _, _⟩ := seekEnd_least (ascending_parens hord) h
  rw [(encodes_foldl_emitRange hord).left p (by simpa [parens] using hp), heq]
  constructor
  · intro hr
    obtain ⟨r, hr, rfl⟩ := hr
    exact mem_coverage.mpr ⟨r, hr, le_rfl, hord.nonempty r hr⟩
  · intro hcov
    obtain ⟨r, hr, hlo, hhi⟩ := mem_coverage.mp hcov
    obtain ⟨s, hs, hend⟩ := (mem_parens_iff hord).mp ⟨p, hp, heq⟩
    cases hend with
    | inl hend => exact ⟨s, hs, hend⟩
    | inr hend =>
      -- an end inside another range would overlap it, so the other range starts there
      refine ⟨r, hr, hlo.antisymm ?_⟩
      by_contra hlt
      rw [not_le] at hlt
      exact hord.not_end_inside hr hs (hend ▸ hlt) (hend ▸ hhi)

theorem right_iff_mem_coverage {p : ParenKey K} (h : seekEnd (parens rs) key = some p)
    (hne : p.key ≠ key) : p.right = true ↔ key ∈ coverage rs := by
  obtain ⟨hp, hle, hleast⟩ := seekEnd_least (ascending_parens hord) h
  have hlt : key < p.key := lt_of_le_of_ne hle hne.symm
  rw [(encodes_foldl_emitRange hord).right p (by simpa [parens] using hp)]
  constructor
  · intro hr
    obtain ⟨r, hr, hend⟩ := hr
    refine mem_coverage.mpr ⟨r, hr, ?_, hend ▸ hlt⟩
    by_contra hstart
    obtain ⟨q, hq, hqr⟩ := (mem_parens_iff hord).mpr ⟨r, hr, Or.inl rfl⟩
    have := hleast q hq (hqr ▸ (not_le.mp hstart).le)
    rw [hqr, ← hend] at this
    exact absurd (hord.nonempty r hr) (not_lt.mpr this)
  · intro hcov
    obtain ⟨r, hr, hlo, hhi⟩ := mem_coverage.mp hcov
    refine ⟨r, hr, ?_⟩
    obtain ⟨q, hq, hqr⟩ := (mem_parens_iff hord).mpr ⟨r, hr, Or.inr rfl⟩
    have hpr : p.key ≤ r.2 := hqr ▸ hleast q hq (hqr ▸ hhi.le)
    obtain ⟨s, hs, hend⟩ := (mem_parens_iff hord).mp ⟨p, hp, rfl⟩
    by_contra hne'
    have hinside : p.key < r.2 := lt_of_le_of_ne hpr (Ne.symm hne')
    cases hend with
    | inl hend => exact hord.not_start_inside hr hs (hend ▸ hlo.trans_lt hlt) (hend ▸ hinside)
    | inr hend => exact hord.not_end_inside hr hs (hend ▸ hlo.trans_lt hlt) (hend ▸ hinside)

end Seek

end HalfOpen
