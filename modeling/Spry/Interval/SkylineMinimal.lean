import Spry.Interval.HalfOpen
import Spry.Interval.Sweep

/-!
# Minimal skylines

A chain without empty segments and without touching segments of one weight is the shortest list
with its weights. Gluing gives such a chain exactly if every empty segment touches another one of
its weight. A sweep emits empty segments only up to the start of a segment, with the greatest
weight that is open there at that time.
-/

namespace Skyline

open HalfOpen (eq_or_rel_of_pairwise)

variable {K S : Type*} [LinearOrder K]

/-- Segments one after the other, none of them empty and no two of one weight that touch. -/
structure Minimal (as : List (Seg K S)) : Prop where
  nonempty : ∀ a ∈ as, a.start < a.stop
  apart : as.Pairwise fun a b => a.stop ≤ b.start
  separate : as.Pairwise fun a b => a.stop = b.start → a.seq ≠ b.seq

namespace Minimal

variable {as bs : List (Seg K S)}

theorem nil : Minimal ([] : List (Seg K S)) := ⟨by simp, List.Pairwise.nil, List.Pairwise.nil⟩

theorem seq_notMem_weights_stop (h : Minimal as) {a : Seg K S} (ha : a ∈ as) :
    a.seq ∉ weights as a.stop := by
  rintro ⟨b, hb, ⟨hlo, hhi⟩, hseq⟩
  have hne := h.nonempty a ha
  rcases eq_or_rel_of_pairwise (h.apart.and h.separate) ha hb with rfl | hab | hba
  · exact lt_irrefl _ hhi
  · exact hab.2 (le_antisymm hab.1 hlo) hseq.symm
  · have := hba.1
    order

/-- Every other list with the weights has a segment over each start, and no two starts have the
same one: it would reach over the end of the first segment. -/
theorem length_le (h : Minimal as) (hweights : ∀ k, weights bs k = weights as k) :
    as.length ≤ bs.length := by
  have hcover : ∀ a, ∃ b, a ∈ as → b ∈ bs ∧ b.Contains a.start ∧ b.seq = a.seq := by
    intro a
    by_cases ha : a ∈ as
    · have hseq : a.seq ∈ weights bs a.start := by
        rw [hweights]
        exact ⟨a, ha, ⟨le_rfl, h.nonempty a ha⟩, rfl⟩
      obtain ⟨b, hb⟩ := hseq
      exact ⟨b, fun _ => hb⟩
    · exact ⟨a, fun ha' => absurd ha' ha⟩
  choose cover hcover using hcover
  have hnodup : (as.map cover).Nodup := by
    refine List.pairwise_map.mpr (h.apart.imp_of_mem ?_)
    intro a b ha hb hab heq
    obtain ⟨hmem, hstart, hseq⟩ := hcover a ha
    have hstart' := (hcover b hb).2.1
    rw [← heq] at hstart'
    have hne := h.nonempty a ha
    apply h.seq_notMem_weights_stop ha
    rw [← hweights]
    exact ⟨cover a, hmem, ⟨hstart.1.trans hne.le, hab.trans_lt hstart'.2⟩, hseq⟩
  have hsub : as.map cover ⊆ bs := by
    intro b hb
    obtain ⟨a, ha, rfl⟩ := List.mem_map.mp hb
    exact (hcover a ha).1
  have hlength := (List.subperm_of_subset hnodup hsub).length_le
  rwa [List.length_map] at hlength

end Minimal

section Glue

variable {cur : Seg K S} {xs : List (Seg K S)}

def Anchored (as : List (Seg K S)) : Prop :=
  ∀ a ∈ as, a.start = a.stop →
    ∃ b ∈ as, b.start < b.stop ∧ b.seq = a.seq ∧ (b.stop = a.start ∨ b.start = a.stop)

def Rising [LE S] (as : List (Seg K S)) : Prop :=
  as.Pairwise fun a b => a.start = a.stop → b.start = a.stop → a.seq ≤ b.seq

theorem stop_eq_of_anchor {a b : Seg K S} (hlt : b.start < b.stop) (hempty : a.start = a.stop)
    (hle : b.stop ≤ a.start) (htouch : b.stop = a.start ∨ b.start = a.stop) :
    b.stop = a.start := by
  rcases htouch with h | h
  · exact h
  · order

section Join

variable {a b : Seg K S}

theorem Anchored.of_join (h : Chain (a :: b :: xs)) (hstop : a.stop = b.start)
    (hseq : a.seq = b.seq) (hanchored : Anchored (⟨a.start, b.stop, a.seq⟩ :: xs)) :
    Anchored (a :: b :: xs) := by
  have ha := h.valid a (by simp)
  have hb := h.valid b (by simp)
  -- if both are empty, the joined segment has its anchor among the others
  have hboth : a.start = b.stop → ∃ c ∈ xs, c.start < c.stop ∧ c.seq = a.seq ∧
      (c.stop = a.start ∨ c.start = b.stop) := by
    intro hempty
    obtain ⟨c, hc, hlt, hanchor⟩ := hanchored ⟨a.start, b.stop, a.seq⟩ (by simp) hempty
    rcases List.mem_cons.mp hc with rfl | hc
    · exact absurd hempty hlt.ne
    · exact ⟨c, hc, hlt, hanchor⟩
  intro c hc hempty
  rcases List.mem_cons.mp hc with rfl | hc
  · rcases hb.lt_or_eq with hlt | heq
    · exact ⟨b, by simp, hlt, hseq.symm, Or.inr hstop.symm⟩
    · obtain ⟨d, hd, hlt, hds, htouch⟩ := hboth (by order)
      exact ⟨d, by simp [hd], hlt, hds, htouch.imp_right fun h => by order⟩
  rcases List.mem_cons.mp hc with rfl | hc
  · rcases ha.lt_or_eq with hlt | heq
    · exact ⟨a, by simp, hlt, hseq, Or.inl hstop⟩
    · obtain ⟨d, hd, hlt, hds, htouch⟩ := hboth (by order)
      exact ⟨d, by simp [hd], hlt, hds.trans hseq, htouch.imp_left fun h => by order⟩
  obtain ⟨d, hd, hlt, hds, htouch⟩ := hanchored c (by simp [hc]) hempty
  rcases List.mem_cons.mp hd with rfl | hd
  · have hend := stop_eq_of_anchor hlt hempty ((List.pairwise_cons.mp h.tail.apart).1 c hc) htouch
    simp only at hlt hend
    rcases hb.lt_or_eq with hlt' | heq
    · exact ⟨b, by simp, hlt', hseq.symm.trans hds, Or.inl hend⟩
    · exact ⟨a, by simp, by order, hds, Or.inl (by order)⟩
  · exact ⟨d, by simp [hd], hlt, hds, htouch⟩

theorem Anchored.join (h : Chain (a :: b :: xs)) (hstop : a.stop = b.start)
    (hseq : a.seq = b.seq) (hanchored : Anchored (a :: b :: xs)) :
    Anchored (⟨a.start, b.stop, a.seq⟩ :: xs) := by
  have ha := h.valid a (by simp)
  have hb := h.valid b (by simp)
  intro c hc hempty
  rcases List.mem_cons.mp hc with rfl | hc
  · simp only at hempty
    obtain ⟨d, hd, hlt, hds, htouch⟩ := hanchored a (by simp) (by order)
    rcases List.mem_cons.mp hd with rfl | hd
    · order
    rcases List.mem_cons.mp hd with rfl | hd
    · order
    · exact ⟨d, by simp [hd], hlt, hds, htouch.imp_right fun h => by simp only; order⟩
  have hbc : b.stop ≤ c.start := (List.pairwise_cons.mp h.tail.apart).1 c hc
  obtain ⟨d, hd, hlt, hds, htouch⟩ := hanchored c (by simp [hc]) hempty
  rcases List.mem_cons.mp hd with rfl | hd
  · have hend := stop_eq_of_anchor hlt hempty (by order) htouch
    exact ⟨⟨d.start, b.stop, d.seq⟩, by simp, by simp only; order, hds,
      Or.inl (by simp only; order)⟩
  rcases List.mem_cons.mp hd with rfl | hd
  · have hend := stop_eq_of_anchor hlt hempty hbc htouch
    exact ⟨⟨a.start, d.stop, a.seq⟩, by simp, by simp only; order, hseq.trans hds, Or.inl hend⟩
  · exact ⟨d, by simp [hd], hlt, hds, htouch⟩

end Join

variable [LinearOrder S]

theorem glue_eq_cons (cur : Seg K S) (xs : List (Seg K S)) :
    ∃ t ts, glue cur xs = ⟨cur.start, t, cur.seq⟩ :: ts := by
  induction xs generalizing cur with
  | nil => exact ⟨cur.stop, [], rfl⟩
  | cons x xs ih =>
    rw [glue]
    split_ifs with hjoin
    · exact ih ⟨cur.start, x.stop, cur.seq⟩
    · exact ⟨cur.stop, glue x xs, rfl⟩

theorem pairwise_glue (h : Chain (cur :: xs)) (hne : ∀ a ∈ glue cur xs, a.start < a.stop) :
    (glue cur xs).Pairwise fun a b => a.stop = b.start → a.seq ≠ b.seq := by
  induction xs generalizing cur with
  | nil => exact List.pairwise_singleton _ _
  | cons x xs ih =>
    rw [glue] at hne ⊢
    split_ifs at hne ⊢ with hjoin
    · exact ih (h.join hjoin.1 cur.seq) hne
    obtain ⟨_, hne⟩ := List.forall_mem_cons.mp hne
    refine List.pairwise_cons.mpr ⟨fun b hb hstop hseq => ?_, ih h.tail hne⟩
    have hle : cur.stop ≤ x.start := (List.pairwise_cons.mp h.apart).1 x (by simp)
    obtain ⟨t, ts, hglue⟩ := glue_eq_cons x xs
    have hchain := (glue_spec h.tail).1
    rw [hglue] at hb hchain hne
    rcases List.mem_cons.mp hb with rfl | hb
    · exact hjoin ⟨hstop, hseq⟩
    · -- the segment that starts with `x` lies in between
      have hlt : x.start < t := hne ⟨x.start, t, x.seq⟩ (by simp)
      have hts : t ≤ b.start := (List.pairwise_cons.mp hchain.apart).1 b hb
      order

theorem anchored_of_glue (h : Chain (cur :: xs)) (hne : ∀ a ∈ glue cur xs, a.start < a.stop) :
    Anchored (cur :: xs) := by
  induction xs generalizing cur with
  | nil =>
    intro a ha hempty
    rw [List.mem_singleton.mp ha] at hempty
    exact absurd hempty (hne cur (by simp [glue])).ne
  | cons x xs ih =>
    rw [glue] at hne
    split_ifs at hne with hjoin
    · exact Anchored.of_join h hjoin.1 hjoin.2 (ih (h.join hjoin.1 cur.seq) hne)
    · obtain ⟨hcur, hne⟩ := List.forall_mem_cons.mp hne
      intro a ha hempty
      rcases List.mem_cons.mp ha with rfl | ha
      · exact absurd hempty hcur.ne
      · obtain ⟨b, hb, hanchor⟩ := ih h.tail hne a ha hempty
        exact ⟨b, List.mem_cons_of_mem _ hb, hanchor⟩

theorem Rising.join {a b : Seg K S} (hchain : Chain (a :: b :: xs)) (h : Rising (a :: b :: xs))
    (hstop : a.stop = b.start) : Rising (⟨a.start, b.stop, a.seq⟩ :: xs) := by
  have ha := hchain.valid a (by simp)
  have hb := hchain.valid b (by simp)
  obtain ⟨hfirst, hrest⟩ := List.pairwise_cons.mp h
  refine List.pairwise_cons.mpr ⟨fun c hc hempty hstart => ?_, (List.pairwise_cons.mp hrest).2⟩
  simp only at hempty hstart
  exact hfirst c (by simp [hc]) (by order) (by order)

theorem eq_of_anchor {a b c : Seg K S} (hchain : Chain (a :: b :: xs))
    (hrising : Rising (a :: b :: xs)) (hempty : a.start = a.stop) (hc : c ∈ b :: xs)
    (hstart : c.start = a.stop) (hseq : c.seq = a.seq) : a.stop = b.start ∧ a.seq = b.seq := by
  have hb := hchain.valid b (by simp)
  have hab : a.stop ≤ b.start := (List.pairwise_cons.mp hchain.apart).1 b (by simp)
  obtain ⟨hfirst, hrest⟩ := List.pairwise_cons.mp hrising
  rcases List.mem_cons.mp hc with rfl | hc
  · exact ⟨hstart.symm, hseq.symm⟩
  · have hbc : b.stop ≤ c.start := (List.pairwise_cons.mp hchain.tail.apart).1 c hc
    have hlow : a.seq ≤ b.seq := hfirst b (by simp) hempty (by order)
    have hhigh : b.seq ≤ c.seq := (List.pairwise_cons.mp hrest).1 c hc (by order) (by order)
    exact ⟨by order, by order⟩

theorem Anchored.tail {a b : Seg K S} (hchain : Chain (a :: b :: xs))
    (hrising : Rising (a :: b :: xs)) (h : Anchored (a :: b :: xs))
    (hjoin : ¬ (a.stop = b.start ∧ a.seq = b.seq)) : Anchored (b :: xs) := by
  have hab : a.stop ≤ b.start := (List.pairwise_cons.mp hchain.apart).1 b (by simp)
  intro c hc hempty
  obtain ⟨d, hd, hlt, hseq, htouch⟩ := h c (by simp [hc]) hempty
  rcases List.mem_cons.mp hd with rfl | hd
  swap
  · exact ⟨d, hd, hlt, hseq, htouch⟩
  -- `c` would be anchored by the first segment alone, with `b` in between
  have hend : d.stop = c.start :=
    stop_eq_of_anchor hlt hempty ((List.pairwise_cons.mp hchain.apart).1 c hc) htouch
  rcases List.mem_cons.mp hc with rfl | hc
  · exact absurd ⟨hend, hseq⟩ hjoin
  have hb := hchain.valid b (by simp)
  have hbc : b.stop ≤ c.start := (List.pairwise_cons.mp hchain.tail.apart).1 c hc
  have hbempty : b.start = b.stop := by order
  have hlow : b.seq ≤ c.seq :=
    (List.pairwise_cons.mp (List.pairwise_cons.mp hrising).2).1 c hc hbempty (by order)
  obtain ⟨e, he, helt, heseq, hetouch⟩ := h b (by simp) hbempty
  rcases List.mem_cons.mp he with rfl | he
  · exact absurd ⟨by order, heseq⟩ hjoin
  rcases List.mem_cons.mp he with rfl | he
  · exact absurd hbempty helt.ne
  have hbe : b.stop ≤ e.start := (List.pairwise_cons.mp hchain.tail.apart).1 e he
  have hestart : e.start = c.stop := by
    rcases hetouch with h | h
    · order
    · order
  -- the anchor of `b` lies behind `c`, so `c` has its weight
  rcases eq_or_rel_of_pairwise (hchain.tail.tail.apart.and
      (List.pairwise_cons.mp (List.pairwise_cons.mp hrising).2).2) hc he with rfl | hce | hec
  · exact absurd hempty helt.ne
  · have := hce.2 hempty hestart
    exact ⟨e, by simp [he], helt, by order, Or.inr hestart⟩
  · have := hec.1
    order

theorem glue_nonempty (hchain : Chain (cur :: xs)) (hrising : Rising (cur :: xs))
    (h : Anchored (cur :: xs)) : ∀ a ∈ glue cur xs, a.start < a.stop := by
  induction xs generalizing cur with
  | nil =>
    intro a ha
    rw [List.mem_singleton.mp ha]
    refine (hchain.valid cur (by simp)).lt_of_ne fun hempty => ?_
    obtain ⟨b, hb, hlt, _⟩ := h cur (by simp) hempty
    rw [List.mem_singleton.mp hb] at hlt
    exact hlt.ne hempty
  | cons x xs ih =>
    rw [glue]
    split_ifs with hjoin
    · exact ih (hchain.join hjoin.1 cur.seq) (hrising.join hchain hjoin.1)
        (h.join hchain hjoin.1 hjoin.2)
    · have htail := ih hchain.tail (List.pairwise_cons.mp hrising).2
        (h.tail hchain hrising hjoin)
      refine List.forall_mem_cons.mpr ⟨?_, htail⟩
      refine (hchain.valid cur (by simp)).lt_of_ne fun hempty => hjoin ?_
      obtain ⟨b, hb, hlt, hseq, htouch⟩ := h cur (by simp) hempty
      rcases List.mem_cons.mp hb with rfl | hb
      · exact absurd hempty hlt.ne
      have hle : cur.stop ≤ b.start := (List.pairwise_cons.mp hchain.apart).1 b hb
      refine eq_of_anchor hchain hrising hempty hb ?_ hseq
      rcases htouch with h | h
      · order
      · exact h

theorem minimal_glue_iff (hchain : Chain (cur :: xs)) (hrising : Rising (cur :: xs)) :
    Minimal (glue cur xs) ↔ Anchored (cur :: xs) := by
  constructor
  · intro h
    exact anchored_of_glue hchain h.nonempty
  · intro h
    have hne := glue_nonempty hchain hrising h
    exact ⟨hne, (glue_spec hchain).1.apart, pairwise_glue hchain hne⟩

end Glue

section Sweep

variable [LinearOrder S] {cur : K} {pq : List (S × K)} {xs : List (Seg K S)}

omit [LinearOrder S] in
theorem popWhile_nonempty (due : K → Bool) (cur : K) (pq : List (S × K)) :
    ∀ a ∈ (popWhile due cur pq).1, a.start < a.stop := by
  induction pq generalizing cur with
  | nil => simp [popWhile]
  | cons p pq ih =>
    rw [popWhile]
    split_ifs with hdue hpast
    · exact ih cur
    · exact List.forall_mem_cons.mpr ⟨not_le.mp hpast, ih p.2⟩
    · simp

theorem isGreatest_front {start last : K} {rest : List (S × K)} {out : List (Seg K S)}
    (hpq : Queue pq) (hcur : cur ≤ start)
    (hpops : Pops (fun stop => stop ≤ start) cur pq out last rest) {p : S × K}
    (hp : p ∈ rest.head?) : IsGreatest (openWeights pq start) p.1 := by
  obtain ⟨tail, rfl⟩ := List.head?_eq_some_iff.mp hp
  have hreach : start < p.2 := by simpa using hpops.head p hp
  rw [hpops.openWeights_eq start (hpops.last_le hcur)]
  exact isGreatest_openWeights_head (hpq.sublist hpops.suffix.sublist) hreach

theorem openWeights_step {x : Seg K S} {last : K} {rest : List (S × K)} {out : List (Seg K S)}
    (before : List (Seg K S)) {k : K} (hcur : cur ≤ x.start) (hk : x.start ≤ k)
    (hpops : Pops (fun stop => stop ≤ x.start) cur pq out last rest) :
    openWeights (push (x.seq, x.stop) rest) k ∪ weights before k =
      openWeights pq k ∪ weights (x :: before) k := by
  rw [openWeights_push hk, hpops.openWeights_eq k ((hpops.last_le hcur).trans hk),
    weights_cons x before, Set.union_assoc]

/-- An empty segment of a sweep ends at the start of a segment, and has the greatest weight of the
segments before that one that are open there. -/
theorem sweep_empty {b : Seg K S} (hpq : Queue pq)
    (hxs : xs.Pairwise fun a b => a.start ≤ b.start) (hcur : ∀ x ∈ xs, cur ≤ x.start)
    (hb : b ∈ sweep cur pq xs) (hempty : b.start = b.stop) :
    ∃ before x after, xs = before ++ x :: after ∧ b.stop = x.start ∧
      IsGreatest (openWeights pq x.start ∪ weights before x.start) b.seq := by
  induction xs generalizing cur pq with
  | nil => exact absurd hempty (popWhile_nonempty _ _ _ b hb).ne
  | cons x xs ih =>
    obtain ⟨hle, hxs⟩ := List.pairwise_cons.mp hxs
    have hx := hcur x (by simp)
    have hpops := pops_popWhile (fun stop => decide (stop ≤ x.start)) cur hpq
    rcases List.mem_append.mp hb with hb | hb
    · rcases List.mem_append.mp hb with hb | hb
      · exact absurd hempty (popWhile_nonempty _ _ _ b hb).ne
      · obtain ⟨p, hp, rfl⟩ := mem_front.mp hb
        refine ⟨[], x, xs, rfl, rfl, ?_⟩
        rw [weights_nil, Set.union_empty]
        exact isGreatest_front hpq hx hpops hp
    · have hqueue := Queue.push (hpq.sublist hpops.suffix.sublist) (x.seq, x.stop)
      obtain ⟨before, y, after, rfl, hstop, hgreatest⟩ := ih hqueue hxs hle hb
      rw [openWeights_step before hx (hle y (by simp)) hpops] at hgreatest
      exact ⟨x :: before, y, after, rfl, hstop, hgreatest⟩

theorem exists_sweep_stop {before after : List (Seg K S)} {x : Seg K S} {e : S} (hpq : Queue pq)
    (hxs : (before ++ x :: after).Pairwise fun a b => a.start ≤ b.start)
    (hcur : ∀ y ∈ before ++ x :: after, cur ≤ y.start)
    (he : IsGreatest (openWeights pq x.start ∪ weights before x.start) e) :
    ∃ b ∈ sweep cur pq (before ++ x :: after), b.stop = x.start ∧ b.seq = e := by
  induction before generalizing cur pq with
  | nil =>
    have hx := hcur x (by simp)
    have hpops := pops_popWhile (fun stop => decide (stop ≤ x.start)) cur hpq
    rw [weights_nil, Set.union_empty] at he
    -- something is open at the start, so the queue is not empty
    have hopen := he.1
    rw [hpops.openWeights_eq x.start (hpops.last_le hx)] at hopen
    obtain ⟨q, hq, _⟩ := hopen
    obtain ⟨p, tail, hrest⟩ := List.exists_cons_of_ne_nil (List.ne_nil_of_mem hq)
    have hp : p ∈ (popWhile (fun stop => decide (stop ≤ x.start)) cur pq).2.2.head? := by
      simp [hrest]
    refine ⟨_, List.mem_append_left _ (List.mem_append_right _ (mem_front.mpr ⟨p, hp, rfl⟩)), rfl,
      (isGreatest_front hpq hx hpops hp).unique he⟩
  | cons y before ih =>
    obtain ⟨hle, hxs⟩ := List.pairwise_cons.mp hxs
    have hy := hcur y (by simp)
    have hpops := pops_popWhile (fun stop => decide (stop ≤ y.start)) cur hpq
    have hqueue := Queue.push (hpq.sublist hpops.suffix.sublist) (y.seq, y.stop)
    rw [← openWeights_step before hy (hle x (by simp)) hpops] at he
    obtain ⟨b, hb, hstop⟩ := ih hqueue hxs hle he
    exact ⟨b, List.mem_append_right _ hb, hstop⟩

theorem le_seq_of_start_eq {b : Seg K S} (hpq : Queue pq)
    (hxs : xs.Pairwise fun a b => a.start ≤ b.start) (hcur : ∀ x ∈ xs, cur ≤ x.start)
    (hb : b ∈ sweep cur pq xs) (hstart : b.start = cur) {s : S} (hs : s ∈ openWeights pq cur) :
    s ≤ b.seq := by
  have hsweep := sweeps_sweep hpq hxs hcur
  rcases (hsweep.chain.valid b hb).lt_or_eq with hlt | hempty
  · have hseq : b.seq ∈ weights (sweep cur pq xs) cur := ⟨b, hb, ⟨hstart.le, hstart ▸ hlt⟩, rfl⟩
    exact ((hsweep.skyline cur le_rfl b.seq).mp hseq).2 (Or.inl hs)
  · obtain ⟨before, x, after, _, hstop, hgreatest⟩ := sweep_empty hpq hxs hcur hb hempty
    rw [← hstop, ← hempty, hstart] at hgreatest
    exact hgreatest.2 (Or.inl hs)

theorem rising_sweep (hpq : Queue pq) (hxs : xs.Pairwise fun a b => a.start ≤ b.start)
    (hcur : ∀ x ∈ xs, cur ≤ x.start) : Rising (sweep cur pq xs) := by
  have hpopped : ∀ (due : K → Bool) (cur : K) (pq : List (S × K)),
      Rising (popWhile due cur pq).1 := fun due cur pq =>
    List.pairwise_of_forall_mem_list fun a ha b _ hempty =>
      absurd hempty (popWhile_nonempty due cur pq a ha).ne
  induction xs generalizing cur pq with
  | nil => exact hpopped _ _ _
  | cons x xs ih =>
    obtain ⟨hle, hxs⟩ := List.pairwise_cons.mp hxs
    have hx := hcur x (by simp)
    have hpops := pops_popWhile (fun stop => decide (stop ≤ x.start)) cur hpq
    have hqueue := Queue.push (hpq.sublist hpops.suffix.sublist) (x.seq, x.stop)
    refine List.pairwise_append.mpr ⟨List.pairwise_append.mpr ⟨hpopped _ _ _, ?_, ?_⟩,
      ih hqueue hxs hle, ?_⟩
    · rw [front]
      cases (popWhile (fun stop => decide (stop ≤ x.start)) cur pq).2.2.head? with
      | none => exact List.Pairwise.nil
      | some p => exact List.pairwise_singleton _ _
    · intro a ha b _ hempty
      exact absurd hempty (popWhile_nonempty _ _ _ a ha).ne
    · intro a ha b hb hempty hstart
      rcases List.mem_append.mp ha with ha | ha
      · exact absurd hempty (popWhile_nonempty _ _ _ a ha).ne
      · -- what is in front stays open when the next segment is pushed
        obtain ⟨p, hp, rfl⟩ := mem_front.mp ha
        refine le_seq_of_start_eq hqueue hxs hle hb hstart ?_
        rw [openWeights_push le_rfl,
          ← hpops.openWeights_eq x.start (hpops.last_le hx)]
        exact Or.inl (isGreatest_front hpq hx hpops hp).1

end Sweep

end Skyline
