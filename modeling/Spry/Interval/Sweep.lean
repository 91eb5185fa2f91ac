import Mathlib.Data.List.Sort
import Mathlib.Data.Prod.Lex
import Spry.Interval.Skyline

/-!
# The sweep that computes a skyline

The segments come in the order of their starts. The open ones are kept in a queue with the
heaviest in front, and one that has ended is only taken out when it comes to the front. What is
emitted for a stretch is the weight in front.
-/

namespace Skyline

variable {K S : Type*} [LinearOrder K] [LinearOrder S]

section Queue

/-- Open segments as pairs of weight and stop, the heaviest in front and among equal ones the one
with the latest stop. -/
def Queue (pq : List (S × K)) : Prop := pq.Pairwise fun a b => toLex b ≤ toLex a

def push (p : S × K) (pq : List (S × K)) : List (S × K) :=
  pq.orderedInsert (fun a b => toLex b ≤ toLex a) p

def openWeights (pq : List (S × K)) (k : K) : Set S := {s | ∃ p ∈ pq, k < p.2 ∧ p.1 = s}

theorem push_perm (p : S × K) (pq : List (S × K)) : (push p pq).Perm (p :: pq) :=
  List.perm_orderedInsert _ p pq

theorem Queue.push {pq : List (S × K)} (h : Queue pq) (p : S × K) : Queue (push p pq) := by
  have htotal : Std.Total fun a b : S × K => toLex b ≤ toLex a := ⟨fun a b => le_total _ _⟩
  have htrans : IsTrans (S × K) fun a b => toLex b ≤ toLex a := ⟨fun _ _ _ h h' => h'.trans h⟩
  exact List.Pairwise.orderedInsert p pq h

theorem Queue.le_head {p : S × K} {pq : List (S × K)} (h : Queue (p :: pq)) :
    ∀ q ∈ p :: pq, q.1 ≤ p.1 := by
  intro q hq
  cases List.mem_cons.mp hq with
  | inl heq => rw [heq]
  | inr hq =>
    have hle := (List.pairwise_cons.mp h).1 q hq
    rw [Prod.Lex.toLex_le_toLex] at hle
    cases hle with
    | inl hlt => exact hlt.le
    | inr heq => exact heq.1.le

omit [LinearOrder S] in
theorem openWeights_cons_of_le {p : S × K} (pq : List (S × K)) {k : K} (h : p.2 ≤ k) :
    openWeights (p :: pq) k = openWeights pq k := by
  ext s
  simp [openWeights, not_lt.mpr h]

theorem isGreatest_openWeights_head {p : S × K} {pq : List (S × K)} (h : Queue (p :: pq)) {k : K}
    (hk : k < p.2) : IsGreatest (openWeights (p :: pq) k) p.1 := by
  refine ⟨⟨p, List.mem_cons_self, hk, rfl⟩, ?_⟩
  rintro s ⟨q, hq, _, rfl⟩
  exact h.le_head q hq

/-- Segments are taken from the queue as long as the one in front is due, and each that reaches
beyond the current key is emitted from there on. -/
def popWhile (due : K → Bool) : K → List (S × K) → List (Seg K S) × K × List (S × K)
  | cur, [] => ([], cur, [])
  | cur, p :: pq =>
    if due p.2 then
      if p.2 ≤ cur then popWhile due cur pq
      else
        let later := popWhile due p.2 pq
        (⟨cur, p.2, p.1⟩ :: later.1, later.2)
    else ([], cur, p :: pq)

structure Pops (due : K → Bool) (cur : K) (pq : List (S × K)) (out : List (Seg K S)) (last : K)
    (rest : List (S × K)) : Prop where
  chain : Chain out
  between : Between cur last out
  le_last : cur ≤ last
  suffix : rest <:+ pq
  due_last : last = cur ∨ due last = true
  head : ∀ p ∈ rest.head?, due p.2 = false
  skyline : ∀ k, cur ≤ k → k < last → SkylineAt out k (openWeights pq k)
  openWeights_eq : ∀ k, last ≤ k → openWeights pq k = openWeights rest k

theorem pops_popWhile (due : K → Bool) (cur : K) {pq : List (S × K)} (hpq : Queue pq) :
    Pops due cur pq (popWhile due cur pq).1 (popWhile due cur pq).2.1
      (popWhile due cur pq).2.2 := by
  induction pq generalizing cur with
  | nil =>
    exact ⟨Chain.nil, by simp [Between, popWhile], le_rfl, List.suffix_rfl, Or.inl rfl,
      by simp [popWhile], fun k h h' => absurd h' (not_lt.mpr h), fun _ _ => rfl⟩
  | cons p pq ih =>
    have hrest : Queue pq := (List.pairwise_cons.mp hpq).2
    rw [popWhile]
    by_cases hdue : due p.2 = true
    · rw [if_pos hdue]
      by_cases hpast : p.2 ≤ cur
      · rw [if_pos hpast]
        have hpops := ih cur hrest
        refine ⟨hpops.chain, hpops.between, hpops.le_last,
          hpops.suffix.trans (List.suffix_cons p pq), hpops.due_last, hpops.head,
          fun k hk hlast => ?_, fun k hk => ?_⟩
        · rw [openWeights_cons_of_le pq (hpast.trans hk)]
          exact hpops.skyline k hk hlast
        · rw [openWeights_cons_of_le pq (hpast.trans (hpops.le_last.trans hk))]
          exact hpops.openWeights_eq k hk
      · rw [if_neg hpast]
        have hpops := ih p.2 hrest
        generalize popWhile due p.2 pq = later at hpops ⊢
        obtain ⟨out, last, rest⟩ := later
        have hlt : cur < p.2 := not_le.mp hpast
        refine ⟨hpops.chain.cons hlt.le fun b hb => (hpops.between b hb).1,
          List.forall_mem_cons.mpr ⟨⟨le_rfl, hpops.le_last⟩, fun a ha => ?_⟩,
          hlt.le.trans hpops.le_last, hpops.suffix.trans (List.suffix_cons p pq), ?_,
          hpops.head, fun k hk hlast => ?_, fun k hk => ?_⟩
        · exact ⟨hlt.le.trans (hpops.between a ha).1, (hpops.between a ha).2⟩
        · cases hpops.due_last with
          | inl heq => exact Or.inr (heq ▸ hdue)
          | inr hlast => exact Or.inr hlast
        · by_cases hkp : k < p.2
          · -- the segment in front is the heaviest one and reaches beyond the key
            have hfront := skylineAt_singleton (a := ⟨cur, p.2, p.1⟩) ⟨hk, hkp⟩
              (isGreatest_openWeights_head hpq hkp)
            exact hfront.append_right fun b hb hbk =>
              absurd ((hpops.between b hb).1.trans hbk.1) (not_le.mpr hkp)
          · rw [openWeights_cons_of_le pq (not_lt.mp hkp)]
            change SkylineAt ([⟨cur, p.2, p.1⟩] ++ out) k (openWeights pq k)
            apply SkylineAt.append_left (hpops.skyline k (not_lt.mp hkp) hlast)
            intro a ha hak
            rw [List.mem_singleton.mp ha] at hak
            exact hkp hak.2
        · rw [openWeights_cons_of_le pq (hpops.le_last.trans hk)]
          exact hpops.openWeights_eq k hk
    · rw [if_neg hdue]
      exact ⟨Chain.nil, by simp [Between], le_rfl, List.suffix_rfl, Or.inl rfl,
        by simpa using hdue, fun k h h' => absurd h' (not_lt.mpr h), fun _ _ => rfl⟩

theorem Pops.last_le {cur last start : K} {pq rest : List (S × K)} {out : List (Seg K S)}
    (h : Pops (fun stop => stop ≤ start) cur pq out last rest) (hcur : cur ≤ start) :
    last ≤ start := by
  cases h.due_last with
  | inl heq => rwa [heq]
  | inr hdue => simpa using hdue

end Queue

section Sweep

def front (last start : K) (pq : List (S × K)) : List (Seg K S) :=
  (pq.head?.map fun p => ⟨last, start, p.1⟩).toList

omit [LinearOrder K] [LinearOrder S] in
theorem mem_front {last start : K} {pq : List (S × K)} {a : Seg K S} :
    a ∈ front last start pq ↔ ∃ p ∈ pq.head?, a = ⟨last, start, p.1⟩ := by
  simp [front, eq_comm]

def sweep : K → List (S × K) → List (Seg K S) → List (Seg K S)
  | cur, pq, [] => (popWhile (fun _ => true) cur pq).1
  | cur, pq, x :: xs =>
    let popped := popWhile (fun stop => stop ≤ x.start) cur pq
    popped.1 ++ front popped.2.1 x.start popped.2.2 ++
      sweep x.start (push (x.seq, x.stop) popped.2.2) xs

theorem openWeights_push {x : Seg K S} {pq : List (S × K)} {k : K} (h : x.start ≤ k) :
    openWeights (push (x.seq, x.stop) pq) k = openWeights pq k ∪ weights [x] k := by
  ext s
  simp only [openWeights, weights, (push_perm (x.seq, x.stop) pq).mem_iff, Seg.Contains,
    List.mem_cons, List.not_mem_nil, or_false, Set.mem_union, Set.mem_ofPred_eq]
  constructor
  · rintro ⟨p, rfl | hp, hk, rfl⟩
    · exact Or.inr ⟨x, rfl, ⟨h, hk⟩, rfl⟩
    · exact Or.inl ⟨p, hp, hk, rfl⟩
  · rintro (⟨p, hp, hk, rfl⟩ | ⟨y, rfl, hk, rfl⟩)
    · exact ⟨p, Or.inr hp, hk, rfl⟩
    · exact ⟨_, Or.inl rfl, hk.2, rfl⟩

structure Sweeps (cur : K) (pq : List (S × K)) (xs out : List (Seg K S)) : Prop where
  chain : Chain out
  le_start : ∀ a ∈ out, cur ≤ a.start
  skyline : ∀ k, cur ≤ k → SkylineAt out k (openWeights pq k ∪ weights xs k)

theorem sweeps_nil {cur : K} {pq : List (S × K)} (hpq : Queue pq) :
    Sweeps cur pq [] (sweep cur pq []) := by
  have hpops := pops_popWhile (fun _ => true) cur hpq
  rw [sweep]
  generalize popWhile (fun _ => true) cur pq = popped at hpops ⊢
  obtain ⟨out, last, rest⟩ := popped
  have hrest : rest = [] := by
    cases rest with
    | nil => rfl
    | cons p rest => simpa using hpops.head p rfl
  refine ⟨hpops.chain, fun a ha => (hpops.between a ha).1, fun k hk => ?_⟩
  rw [weights_nil, Set.union_empty]
  by_cases hlast : k < last
  · exact hpops.skyline k hk hlast
  · rw [hpops.openWeights_eq k (not_lt.mp hlast), hrest]
    have hnone : openWeights ([] : List (S × K)) k = ∅ := by simp [openWeights]
    rw [hnone]
    apply skylineAt_empty
    intro a ha hak
    exact hlast (hak.2.trans_le (hpops.between a ha).2)

theorem front_spec {last start : K} {pq : List (S × K)} (hle : last ≤ start) (hpq : Queue pq)
    (hhead : ∀ p ∈ pq.head?, start < p.2) :
    Chain (front last start pq) ∧ Between last start (front last start pq) ∧
      ∀ k, last ≤ k → k < start → SkylineAt (front last start pq) k (openWeights pq k) := by
  cases pq with
  | nil =>
    refine ⟨Chain.nil, by simp [Between, front], fun k _ _ => ?_⟩
    have hnone : openWeights ([] : List (S × K)) k = ∅ := by simp [openWeights]
    rw [hnone]
    exact skylineAt_empty (by simp [front])
  | cons p pq =>
    refine ⟨Chain.nil.cons hle (by simp), by simp [Between, front], fun k hk hk' => ?_⟩
    exact skylineAt_singleton (a := ⟨last, start, p.1⟩) ⟨hk, hk'⟩
      (isGreatest_openWeights_head hpq (hk'.trans (hhead p rfl)))

/-- One segment of the sweep: what is due before its start, the stretch up to it, and the rest. -/
theorem Sweeps.cons {cur last : K} {pq rest : List (S × K)} {x : Seg K S}
    {xs out tail : List (Seg K S)} (hpq : Queue pq) (hcur : cur ≤ x.start)
    (hxs : ∀ y ∈ xs, x.start ≤ y.start)
    (hpops : Pops (fun stop => stop ≤ x.start) cur pq out last rest)
    (htail : Sweeps x.start (push (x.seq, x.stop) rest) xs tail) :
    Sweeps cur pq (x :: xs) (out ++ front last x.start rest ++ tail) := by
  have hlast : last ≤ x.start := hpops.last_le hcur
  have hstart : ∀ y ∈ x :: xs, x.start ≤ y.start := List.forall_mem_cons.mpr ⟨le_rfl, hxs⟩
  have hhead : ∀ p ∈ rest.head?, x.start < p.2 := fun p hp => by simpa using hpops.head p hp
  obtain ⟨hchain, hbetween, hskyline⟩ :=
    front_spec hlast (hpq.sublist hpops.suffix.sublist) hhead
  refine ⟨(hpops.chain.append hchain ?_).append htail.chain ?_, fun a ha => ?_, fun k hk => ?_⟩
  · intro a ha b hb
    exact (hpops.between a ha).2.trans (hbetween b hb).1
  · intro a ha b hb
    apply le_trans _ (htail.le_start b hb)
    cases List.mem_append.mp ha with
    | inl ha => exact (hpops.between a ha).2.trans hlast
    | inr ha => exact (hbetween a ha).2
  · rcases List.mem_append.mp ha with ha | ha
    · cases List.mem_append.mp ha with
      | inl ha => exact (hpops.between a ha).1
      | inr ha => exact hpops.le_last.trans (hbetween a ha).1
    · exact hcur.trans (htail.le_start a ha)
  · have hout : last ≤ k → ∀ a ∈ out, ¬ a.Contains k := fun hk a ha hak =>
      absurd (hak.2.trans_le (hpops.between a ha).2) (not_lt.mpr hk)
    by_cases hk₁ : k < x.start
    · -- no later segment contains the key
      have htailk : ∀ a ∈ tail, ¬ a.Contains k := fun a ha hak =>
        absurd ((htail.le_start a ha).trans hak.1) (not_le.mpr hk₁)
      rw [weights_eq_empty_of_lt fun y hy => hk₁.trans_le (hstart y hy), Set.union_empty]
      apply SkylineAt.append_right _ htailk
      by_cases hk₂ : k < last
      · apply (hpops.skyline k hk hk₂).append_right
        intro a ha hak
        exact absurd ((hbetween a ha).1.trans hak.1) (not_le.mpr hk₂)
      · rw [hpops.openWeights_eq k (not_lt.mp hk₂)]
        exact (hskyline k (not_lt.mp hk₂) hk₁).append_left (hout (not_lt.mp hk₂))
    · have hk₁ := not_lt.mp hk₁
      have hlive := htail.skyline k hk₁
      rw [openWeights_push hk₁, Set.union_assoc, ← weights_cons,
        ← hpops.openWeights_eq k (hlast.trans hk₁)] at hlive
      apply hlive.append_left
      intro a ha hak
      cases List.mem_append.mp ha with
      | inl ha => exact hout (hlast.trans hk₁) a ha hak
      | inr ha => exact absurd (hak.2.trans_le (hbetween a ha).2) (not_lt.mpr hk₁)

theorem sweeps_sweep {cur : K} {pq : List (S × K)} {xs : List (Seg K S)} (hpq : Queue pq)
    (hxs : xs.Pairwise fun a b => a.start ≤ b.start) (hcur : ∀ x ∈ xs, cur ≤ x.start) :
    Sweeps cur pq xs (sweep cur pq xs) := by
  induction xs generalizing cur pq with
  | nil => exact sweeps_nil hpq
  | cons x xs ih =>
    obtain ⟨hle, hxs⟩ := List.pairwise_cons.mp hxs
    have hpops := pops_popWhile (fun stop => stop ≤ x.start) cur hpq
    have hrest := Queue.push (hpq.sublist hpops.suffix.sublist) (x.seq, x.stop)
    exact Sweeps.cons hpq (hcur x List.mem_cons_self) hle hpops (ih hrest hxs hle)

theorem skylineAt_sweep {cur : K} {xs : List (Seg K S)}
    (hxs : xs.Pairwise fun a b => a.start ≤ b.start) (hcur : ∀ x ∈ xs, cur ≤ x.start) (k : K) :
    SkylineAt (sweep cur [] xs) k (weights xs k) := by
  have hsweep := sweeps_sweep (List.Pairwise.nil : Queue []) hxs hcur
  by_cases hk : cur ≤ k
  · simpa [openWeights] using hsweep.skyline k hk
  · have hlt := not_le.mp hk
    rw [weights_eq_empty_of_lt fun x hx => hlt.trans_le (hcur x hx)]
    exact skylineAt_empty fun a ha hak =>
      absurd ((hsweep.le_start a ha).trans hak.1) hk

end Sweep

end Skyline
