import Spry.Interval.SkylineMinimal
import Spry.SkyLineRDF

/-!
# When the skyline filter is minimal

The sweep of `addRangeTombstones` skips an empty segment when it takes a range from the queue, but
not when it closes the stretch in front of the next start. Such a segment goes into the list
unless the coalescing pass joins it with a neighbour, which happens exactly if its sequence
number is the greatest one at the start or at the key before it.
-/

namespace Spry.SkyLineRDF

open Skyline

/-- Wherever a segment starts under others that come before it, the greatest sequence number of
those is the greatest one of all at this key or at the key before. -/
def Settled (xs : List T3ll) : Prop :=
  ∀ before x after e, xs = before ++ x :: after → IsGreatest (weights before x.start) e →
    IsGreatest (weights xs x.start) e ∨ IsGreatest (weights xs (x.start - 1)) e

theorem anchored_sweep_iff {cur : ℤ} {xs : List T3ll}
    (hxs : xs.Pairwise fun a b => a.start ≤ b.start) (hcur : ∀ x ∈ xs, cur ≤ x.start) :
    Anchored (sweep cur [] xs) ↔ Settled xs := by
  have hsweep := sweeps_sweep (List.Pairwise.nil : Queue []) hxs hcur
  have hskyline := skylineAt_sweep hxs hcur
  have hopen : ∀ k as, openWeights ([] : List (ℤ × ℤ)) k ∪ weights as k = weights as k :=
    fun k as => by simp [openWeights]
  constructor
  · intro hanchored before x after e hsplit he
    rw [← hopen] at he
    rw [hsplit] at hxs hcur
    obtain ⟨b, hb, hstop, rfl⟩ := exists_sweep_stop (List.Pairwise.nil : Queue []) hxs hcur he
    rw [← hsplit] at hb
    -- a segment that is not empty and ends or starts at `x.start` decides the weight there
    have hends : ∀ c ∈ sweep cur [] xs, c.start < c.stop → c.stop = x.start →
        IsGreatest (weights xs (x.start - 1)) c.seq := fun c hc hlt hstop =>
      (hskyline _ _).mp ⟨c, hc, ⟨by omega, by omega⟩, rfl⟩
    rcases (hsweep.chain.valid b hb).lt_or_eq with hlt | hempty
    · exact Or.inr (hends b hb hlt hstop)
    · obtain ⟨c, hc, hlt, hseq, htouch⟩ := hanchored b hb hempty
      rw [← hseq]
      rcases htouch with h | h
      · exact Or.inr (hends c hc hlt (by omega))
      · exact Or.inl ((hskyline _ _).mp ⟨c, hc, ⟨by omega, by omega⟩, rfl⟩)
  · intro hsettled b hb hempty
    obtain ⟨before, x, after, hsplit, hstop, he⟩ :=
      sweep_empty (List.Pairwise.nil : Queue []) hxs hcur hb hempty
    rw [hopen] at he
    have hapart : ∀ c ∈ sweep cur [] xs, b = c ∨ b.stop ≤ c.start ∨ c.stop ≤ b.start :=
      fun c hc => HalfOpen.eq_or_rel_of_pairwise hsweep.chain.apart hb hc
    rcases hsettled before x after b.seq hsplit he with h | h
    · obtain ⟨c, hc, ⟨hlo, hhi⟩, hseq⟩ := (hskyline _ _).mpr h
      refine ⟨c, hc, by omega, hseq, Or.inr ?_⟩
      rcases hapart c hc with rfl | h | h
      · omega
      · omega
      · omega
    · obtain ⟨c, hc, ⟨hlo, hhi⟩, hseq⟩ := (hskyline _ _).mpr h
      refine ⟨c, hc, by omega, hseq, Or.inl ?_⟩
      rcases hapart c hc with rfl | h | h
      · omega
      · omega
      · omega

theorem minimal_iff_settled {f g : SkyLineRDF} {range : List T3ll} (hne : range ≠ [])
    (h : f.addRangeTombstones range = some g) :
    Minimal g.rdList ↔ Settled (sortT3ll (range ++ f.rdList)) := by
  have hsorted := sorted_sortT3ll (range ++ f.rdList)
  rw [addRangeTombstones, if_neg hne] at h
  cases hsort : sortT3ll (range ++ f.rdList) with
  | nil => simp [hsort] at h
  | cons x xs =>
    rw [hsort] at hsorted
    have hle : ∀ y ∈ x :: xs, x.start ≤ y.start :=
      List.forall_mem_cons.mpr ⟨le_rfl, (List.pairwise_cons.mp hsorted).1⟩
    have hchain := (sweeps_sweep (List.Pairwise.nil : Queue []) hsorted hle).chain
    have hrising := rising_sweep (List.Pairwise.nil : Queue []) hsorted hle
    rw [← anchored_sweep_iff hsorted hle]
    cases hout : sweep x.start [] (x :: xs) with
    | nil => simp [hsort, hout] at h
    | cons r rs =>
      rw [hout] at hchain hrising
      simp only [hsort, hout, Option.some.injEq] at h
      rw [← h]
      exact minimal_glue_iff hchain hrising

section Run

variable {batches : List (List T3ll)}

theorem foldlM_addRangeTombstones_concat {before : List (List T3ll)} {range : List T3ll}
    {f g : SkyLineRDF} (h : before.foldlM addRangeTombstones empty = some f) :
    (before ++ [range]).foldlM addRangeTombstones empty = some g ↔
      f.addRangeTombstones range = some g := by
  simp [List.foldlM_append, h]

/-- Along a run of calls the list is minimal, and no list of ranges with the same sequence numbers
over all keys is shorter, exactly if every call finds settled ranges. -/
theorem minimal_run_iff (hbatches : ∀ range ∈ batches, ∀ t ∈ range, t.start < t.stop) :
    (∀ before, before <+: batches → ∃ f, before.foldlM addRangeTombstones empty = some f ∧
        Minimal f.rdList ∧
        ∀ bs, (∀ k, weights bs k = weights f.rdList k) → f.rdList.length ≤ bs.length) ↔
      ∀ before range f, before ++ [range] <+: batches → range ≠ [] →
        before.foldlM addRangeTombstones empty = some f →
          Settled (sortT3ll (range ++ f.rdList)) := by
  have hrun : ∀ before, before <+: batches → ∃ f,
      before.foldlM addRangeTombstones empty = some f := fun before hinit => by
    obtain ⟨f, hf, _⟩ := foldlM_addRangeTombstones_spec represents_empty
      fun range hr => hbatches range (hinit.subset hr)
    exact ⟨f, hf⟩
  constructor
  · intro hall before range f hinit hne hf
    obtain ⟨g, hg, hminimal, _⟩ := hall _ hinit
    exact (minimal_iff_settled hne ((foldlM_addRangeTombstones_concat hf).mp hg)).mp hminimal
  · intro hall before hinit
    obtain ⟨f, hf⟩ := hrun before hinit
    suffices hminimal : Minimal f.rdList from
      ⟨f, hf, hminimal, fun bs hbs => hminimal.length_le hbs⟩
    induction before using List.reverseRecOn generalizing f with
    | nil =>
      obtain rfl := Option.some.inj hf
      exact Minimal.nil
    | append_singleton before range ih =>
      have hbefore : before <+: batches := (List.prefix_append before [range]).trans hinit
      obtain ⟨g, hg⟩ := hrun before hbefore
      have hstep := (foldlM_addRangeTombstones_concat hg).mp hf
      by_cases hne : range = []
      · rw [addRangeTombstones, if_pos hne] at hstep
        obtain rfl := Option.some.inj hstep
        exact ih hbefore g hg
      · exact (minimal_iff_settled hne hstep).mpr (hall before range g hinit hne hg)

theorem settled_sample : Settled [⟨1, 5, 3⟩, ⟨3, 9, 4⟩] := by
  intro before x after e hsplit he
  cases before with
  | nil =>
    rw [weights_nil] at he
    exact absurd he.1 (Set.notMem_empty e)
  | cons y before =>
    cases before with
    | nil =>
      obtain ⟨rfl, rfl, rfl⟩ : ⟨1, 5, 3⟩ = y ∧ ⟨3, 9, 4⟩ = x ∧ [] = after := by
        simpa using hsplit
      have he' : e = 3 := by
        obtain ⟨a, ha, _, rfl⟩ := he.1
        rw [List.mem_singleton.mp ha]
      refine Or.inr ⟨⟨⟨1, 5, 3⟩, by simp, ⟨by decide, by decide⟩, he'.symm⟩, ?_⟩
      rintro s ⟨a, ha, hk, rfl⟩
      rcases List.mem_pair.mp ha with rfl | rfl
      · exact he'.ge
      · exact absurd hk.1 (by decide)
    | cons z before => simp at hsplit

theorem minimal_run_iff_sample :
    ∃ f, [[⟨1, 5, 3⟩, ⟨3, 9, 4⟩]].foldlM addRangeTombstones empty = some f ∧
      Minimal f.rdList := by
  have hrun := (@minimal_run_iff [[⟨1, 5, 3⟩, ⟨3, 9, 4⟩]] (by decide)).mpr ?_
  · obtain ⟨f, hf, hminimal, _⟩ := hrun _ (List.prefix_refl _)
    exact ⟨f, hf, hminimal⟩
  · intro before range f hinit _ hf
    obtain ⟨rfl, rfl⟩ : before = [] ∧ range = [⟨1, 5, 3⟩, ⟨3, 9, 4⟩] := by
      cases before with
      | nil => simpa using hinit
      | cons b before => simp at hinit
    obtain rfl := Option.some.inj hf
    exact settled_sample

/-- Two tombstones that start at one key: the stretch of the first one up to the start of the
second is empty and stays in the list. -/
theorem addRangeTombstones_keeps_empty_segment :
    ∃ f, [[⟨1, 5, 3⟩, ⟨1, 7, 4⟩]].foldlM addRangeTombstones empty = some f ∧
      f.rdList = [⟨1, 1, 3⟩, ⟨1, 7, 4⟩] ∧ ¬ Minimal f.rdList := by
  refine ⟨⟨[⟨1, 1, 3⟩, ⟨1, 7, 4⟩]⟩, rfl, rfl, fun h => ?_⟩
  exact absurd (h.nonempty ⟨1, 1, 3⟩ (by simp)) (by decide)

end Run

end Spry.SkyLineRDF
