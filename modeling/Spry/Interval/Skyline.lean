import Mathlib.Data.Set.Finite.Lemmas
import Mathlib.Data.Set.Finite.List
import Mathlib.Order.Bounds.Basic
import Mathlib.Order.Defs.LinearOrder

/-!
# The skyline of a list of weighted half-open segments

At a key, a list of segments has the weights of the segments that contain it. The skyline of a
list has at every key exactly the greatest of its weights there. A skyline is held as a chain of
segments: neighbours of equal weight may be glued together, and the weight at a key is found by
one search.
-/

namespace Skyline

variable {K S : Type*}

/-- The half-open segment from `start` to `stop` with a weight. -/
structure Seg (K S : Type*) where
  start : K
  stop : K
  seq : S
  deriving DecidableEq, Repr

variable [LinearOrder K]

def Seg.Contains (a : Seg K S) (k : K) : Prop := a.start ≤ k ∧ k < a.stop

instance (a : Seg K S) (k : K) : Decidable (a.Contains k) := inferInstanceAs (Decidable (_ ∧ _))

def weights (as : List (Seg K S)) (k : K) : Set S := {s | ∃ a ∈ as, a.Contains k ∧ a.seq = s}

theorem weights_nil (k : K) : weights ([] : List (Seg K S)) k = ∅ := by simp [weights]

theorem weights_append (as bs : List (Seg K S)) (k : K) :
    weights (as ++ bs) k = weights as k ∪ weights bs k := by
  ext s
  simp [weights, or_and_right, exists_or]

theorem weights_cons (a : Seg K S) (as : List (Seg K S)) (k : K) :
    weights (a :: as) k = weights [a] k ∪ weights as k := weights_append [a] as k

theorem weights_perm {as bs : List (Seg K S)} (h : as.Perm bs) (k : K) :
    weights as k = weights bs k := by
  ext s
  simp [weights, h.mem_iff]

structure Chain (as : List (Seg K S)) : Prop where
  valid : ∀ a ∈ as, a.start ≤ a.stop
  apart : as.Pairwise fun a b => a.stop ≤ b.start

def Between (lo hi : K) (as : List (Seg K S)) : Prop := ∀ a ∈ as, lo ≤ a.start ∧ a.stop ≤ hi

theorem Chain.nil : Chain ([] : List (Seg K S)) := ⟨by simp, List.Pairwise.nil⟩

theorem Chain.append {as bs : List (Seg K S)} (ha : Chain as) (hb : Chain bs)
    (h : ∀ a ∈ as, ∀ b ∈ bs, a.stop ≤ b.start) : Chain (as ++ bs) := by
  refine ⟨fun a hab => ?_, List.pairwise_append.mpr ⟨ha.apart, hb.apart, h⟩⟩
  cases List.mem_append.mp hab with
  | inl haa => exact ha.valid a haa
  | inr hbb => exact hb.valid a hbb

theorem Chain.cons {a : Seg K S} {as : List (Seg K S)} (hvalid : a.start ≤ a.stop)
    (has : Chain as) (h : ∀ b ∈ as, a.stop ≤ b.start) : Chain (a :: as) :=
  ⟨List.forall_mem_cons.mpr ⟨hvalid, has.valid⟩, List.pairwise_cons.mpr ⟨h, has.apart⟩⟩

theorem weights_eq_empty {as : List (Seg K S)} {k : K} (h : ∀ a ∈ as, ¬ a.Contains k) :
    weights as k = ∅ := by
  apply Set.eq_empty_of_forall_notMem
  rintro s ⟨a, ha, hk, _⟩
  exact h a ha hk

theorem weights_eq_empty_of_lt {as : List (Seg K S)} {k : K} (h : ∀ a ∈ as, k < a.start) :
    weights as k = ∅ :=
  weights_eq_empty fun a ha hk => absurd hk.1 (not_le.mpr (h a ha))

variable [LinearOrder S]

def SkylineAt (out : List (Seg K S)) (k : K) (live : Set S) : Prop :=
  ∀ s, s ∈ weights out k ↔ IsGreatest live s

theorem skylineAt_empty {out : List (Seg K S)} {k : K} (h : ∀ a ∈ out, ¬ a.Contains k) :
    SkylineAt out k ∅ := by
  intro s
  rw [weights_eq_empty h]
  exact iff_of_false (Set.notMem_empty s) fun hs => hs.1

theorem skylineAt_singleton {a : Seg K S} {k : K} {live : Set S} (hk : a.Contains k)
    (h : IsGreatest live a.seq) : SkylineAt [a] k live := by
  intro s
  constructor
  · rintro ⟨b, hb, _, rfl⟩
    rwa [List.mem_singleton.mp hb]
  · intro hs
    exact ⟨a, List.mem_singleton_self a, hk, h.unique hs⟩

theorem exists_isGreatest_weights {as : List (Seg K S)} {k : K} (h : (weights as k).Nonempty) :
    ∃ s, IsGreatest (weights as k) s := by
  have hfin : (weights as k).Finite := by
    apply (as.map Seg.seq).finite_toSet.subset
    rintro s ⟨a, ha, _, rfl⟩
    exact List.mem_map_of_mem ha
  obtain ⟨s, hs, hmax⟩ := Set.exists_max_image (weights as k) id hfin h
  exact ⟨s, hs, hmax⟩

theorem SkylineAt.append_left {as bs : List (Seg K S)} {k : K} {live : Set S}
    (h : SkylineAt bs k live) (has : ∀ a ∈ as, ¬ a.Contains k) : SkylineAt (as ++ bs) k live := by
  intro s
  rw [weights_append, weights_eq_empty has, Set.empty_union]
  exact h s

theorem SkylineAt.append_right {as bs : List (Seg K S)} {k : K} {live : Set S}
    (h : SkylineAt as k live) (hbs : ∀ b ∈ bs, ¬ b.Contains k) : SkylineAt (as ++ bs) k live := by
  intro s
  rw [weights_append, weights_eq_empty hbs, Set.union_empty]
  exact h s

section Glue

def glue : Seg K S → List (Seg K S) → List (Seg K S)
  | cur, [] => [cur]
  | cur, x :: xs =>
    if cur.stop = x.start ∧ cur.seq = x.seq then glue ⟨cur.start, x.stop, cur.seq⟩ xs
    else cur :: glue x xs

omit [LinearOrder S] in
theorem Chain.tail {a : Seg K S} {as : List (Seg K S)} (h : Chain (a :: as)) : Chain as :=
  ⟨fun b hb => h.valid b (List.mem_cons_of_mem _ hb), (List.pairwise_cons.mp h.apart).2⟩

omit [LinearOrder S] in
theorem Chain.join {a b : Seg K S} {as : List (Seg K S)} (h : Chain (a :: b :: as))
    (hstop : a.stop = b.start) (s : S) : Chain (⟨a.start, b.stop, s⟩ :: as) := by
  refine Chain.cons ?_ h.tail.tail (List.pairwise_cons.mp h.tail.apart).1
  calc a.start ≤ a.stop := h.valid a (by simp)
    _ = b.start := hstop
    _ ≤ b.stop := h.valid b (by simp)

omit [LinearOrder S] in
theorem weights_glue_pair {a b : Seg K S} (hstop : a.stop = b.start) (hseq : a.seq = b.seq)
    (ha : a.start ≤ a.stop) (hb : b.start ≤ b.stop) (k : K) :
    weights [⟨a.start, b.stop, a.seq⟩] k = weights [a, b] k := by
  ext s
  simp only [weights, Seg.Contains, List.mem_cons, List.not_mem_nil, or_false,
    Set.mem_ofPred_eq, exists_eq_left, exists_eq_or_imp, ← hseq, ← hstop, ← or_and_right]
  apply and_congr_left
  intro _
  constructor
  · rintro ⟨hlo, hhi⟩
    rcases lt_or_ge k a.stop with h | h
    · exact Or.inl ⟨hlo, h⟩
    · exact Or.inr ⟨h, hhi⟩
  · rintro (⟨hlo, hhi⟩ | ⟨hlo, hhi⟩)
    · exact ⟨hlo, hhi.trans_le (hstop.le.trans hb)⟩
    · exact ⟨ha.trans hlo, hhi⟩

theorem glue_spec {cur : Seg K S} {xs : List (Seg K S)} (h : Chain (cur :: xs)) :
    Chain (glue cur xs) ∧ (∀ a ∈ glue cur xs, cur.start ≤ a.start) ∧
      ∀ k, weights (glue cur xs) k = weights (cur :: xs) k := by
  induction xs generalizing cur with
  | nil => exact ⟨h, by simp [glue], fun _ => rfl⟩
  | cons x xs ih =>
    have hle := (List.pairwise_cons.mp h.apart).1
    have hcur := h.valid cur List.mem_cons_self
    have hx := h.valid x (by simp)
    rw [glue]
    split_ifs with hjoin
    · obtain ⟨hchain, hstart, hweights⟩ := ih (h.join hjoin.1 cur.seq)
      refine ⟨hchain, hstart, fun k => ?_⟩
      rw [hweights k, weights_cons, weights_glue_pair hjoin.1 hjoin.2 hcur hx,
        ← weights_append]
      rfl
    · obtain ⟨hchain, hstart, hweights⟩ := ih h.tail
      refine ⟨hchain.cons hcur fun b hb => (hle x List.mem_cons_self).trans (hstart b hb),
        List.forall_mem_cons.mpr ⟨le_rfl, fun a ha => ?_⟩, fun k => ?_⟩
      · exact (hcur.trans (hle x List.mem_cons_self)).trans (hstart a ha)
      · rw [weights_cons, hweights k, ← weights_cons]

end Glue

def find (as : List (Seg K S)) (k : K) : Option S :=
  match as.dropWhile (fun a => a.stop ≤ k) with
  | [] => none
  | a :: _ => if a.start ≤ k ∧ k < a.stop then some a.seq else none

omit [LinearOrder S] in
theorem Chain.find_eq_some_iff {as : List (Seg K S)} (h : Chain as) {k : K} {s : S} :
    find as k = some s ↔ s ∈ weights as k := by
  induction as with
  | nil => simp [find, weights]
  | cons a as ih =>
    have hle := (List.pairwise_cons.mp h.apart).1
    by_cases hpast : a.stop ≤ k
    · have hfind : find (a :: as) k = find as k := by simp [find, hpast]
      have hnot : weights [a] k = ∅ := weights_eq_empty fun b hb hbk => by
        rw [List.mem_singleton.mp hb] at hbk
        exact absurd hbk.2 (not_lt.mpr hpast)
      rw [hfind, weights_cons, hnot, Set.empty_union, ih h.tail]
    · have hfind : find (a :: as) k =
          if a.start ≤ k ∧ k < a.stop then some a.seq else none := by simp [find, hpast]
      have hnot : weights as k = ∅ := weights_eq_empty_of_lt fun b hb =>
        (not_le.mp hpast).trans_le (hle b hb)
      rw [hfind, weights_cons, hnot, Set.union_empty, Option.ite_none_right_eq_some]
      simp [weights, Seg.Contains]

end Skyline
