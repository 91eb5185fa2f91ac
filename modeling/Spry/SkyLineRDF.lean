import Spry.Interval.Sweep

/-!
# The skyline filter

`SkyLineRDF` keeps one list of disjoint ranges with sequence numbers for the whole database. New
range tombstones are swept together with the list, and a lookup returns the greatest sequence
number of a tombstone over the key.
-/

namespace Spry

open Skyline

/-- A range tombstone: start, end and sequence number. -/
abbrev T3ll := Seg ℤ ℤ

def sortT3ll (ts : List T3ll) : List T3ll :=
  ts.insertionSort fun a b =>
    toLex (a.start, toLex (a.stop, a.seq)) ≤ toLex (b.start, toLex (b.stop, b.seq))

structure SkyLineRDF where
  rdList : List T3ll

namespace SkyLineRDF

def empty : SkyLineRDF := ⟨[]⟩

/-- The first elements of the sorted and of the emitted list are read without a check. -/
def addRangeTombstones (f : SkyLineRDF) (range : List T3ll) : Option SkyLineRDF :=
  if range = [] then some f
  else
    match sortT3ll (range ++ f.rdList) with
    | [] => none
    | x :: xs =>
      match sweep x.start [] (x :: xs) with
      | [] => none
      | r :: rs => some ⟨glue r rs⟩

def getMaxSeq (f : SkyLineRDF) (key : ℤ) : ℤ := (find f.rdList key).getD 0

def isEntryAlive (f : SkyLineRDF) (key seq : ℤ) : Bool := f.getMaxSeq key ≤ seq

theorem sortT3ll_perm (ts : List T3ll) : (sortT3ll ts).Perm ts := List.perm_insertionSort _ ts

theorem sorted_sortT3ll (ts : List T3ll) :
    (sortT3ll ts).Pairwise fun a b => a.start ≤ b.start := by
  let r : T3ll → T3ll → Prop := fun a b =>
    toLex (a.start, toLex (a.stop, a.seq)) ≤ toLex (b.start, toLex (b.stop, b.seq))
  have htotal : Std.Total r := ⟨fun a b => le_total _ _⟩
  have htrans : IsTrans T3ll r := ⟨fun _ _ _ => le_trans⟩
  have hsorted : (sortT3ll ts).Pairwise r := List.pairwise_insertionSort r ts
  apply hsorted.imp
  intro a b hab
  cases Prod.Lex.toLex_le_toLex.mp hab with
  | inl hlt => exact hlt.le
  | inr heq => exact heq.1.le

structure Represents (f : SkyLineRDF) (added : List T3ll) : Prop where
  chain : Chain f.rdList
  skyline : ∀ k, SkylineAt f.rdList k (weights added k)

theorem represents_empty : Represents empty [] :=
  ⟨Chain.nil, fun k => by
    rw [weights_nil]
    exact skylineAt_empty (by simp [empty])⟩

/-- Merging a skyline into other segments has the same effect as merging what it was made of. -/
theorem isGreatest_union_iff {held added : List T3ll} {k : ℤ} {live : Set ℤ}
    (h : SkylineAt held k (weights added k)) {s : ℤ} :
    IsGreatest (live ∪ weights held k) s ↔ IsGreatest (live ∪ weights added k) s := by
  have hsub : weights held k ⊆ weights added k := fun t ht => ((h t).mp ht).1
  have hbound : ∀ t ∈ weights added k, ∃ u ∈ weights held k, t ≤ u := by
    intro t ht
    obtain ⟨u, hu⟩ := exists_isGreatest_weights ⟨t, ht⟩
    exact ⟨u, (h u).mpr hu, hu.2 ht⟩
  constructor
  · rintro ⟨hmem, hle⟩
    refine ⟨Set.union_subset_union_right live hsub hmem, fun t ht => ?_⟩
    cases ht with
    | inl ht => exact hle (Or.inl ht)
    | inr ht =>
      obtain ⟨u, hu, htu⟩ := hbound t ht
      exact htu.trans (hle (Or.inr hu))
  · rintro ⟨hmem, hle⟩
    refine ⟨?_, fun t ht => hle (Set.union_subset_union_right live hsub ht)⟩
    cases hmem with
    | inl hmem => exact Or.inl hmem
    | inr hmem =>
      obtain ⟨u, hu, hsu⟩ := hbound s hmem
      rw [le_antisymm hsu (hle (Or.inr (hsub hu)))]
      exact Or.inr hu

/-- One batch: nothing is read out of bounds, and the filter represents the batch as well. -/
theorem addRangeTombstones_spec {f : SkyLineRDF} {added range : List T3ll} (hf : f.Represents added)
    (hrange : ∀ t ∈ range, t.start < t.stop) :
    ∃ g, f.addRangeTombstones range = some g ∧ g.Represents (range ++ added) := by
  by_cases hempty : range = []
  · subst hempty
    exact ⟨f, by simp [addRangeTombstones], hf⟩
  obtain ⟨t, ht⟩ := List.exists_mem_of_ne_nil range hempty
  have hperm := sortT3ll_perm (range ++ f.rdList)
  have hsorted := sorted_sortT3ll (range ++ f.rdList)
  rw [addRangeTombstones, if_neg hempty]
  cases hsort : sortT3ll (range ++ f.rdList) with
  | nil =>
    rw [hsort] at hperm
    have hmem : t ∈ ([] : List T3ll) := hperm.mem_iff.mpr (by simp [ht])
    cases hmem
  | cons x xs =>
    rw [hsort] at hperm hsorted
    have hle : ∀ y ∈ x :: xs, x.start ≤ y.start :=
      List.forall_mem_cons.mpr ⟨le_rfl, (List.pairwise_cons.mp hsorted).1⟩
    have hsweep := sweeps_sweep (List.Pairwise.nil : Queue []) hsorted hle
    have hskyline : ∀ k, SkylineAt (sweep x.start [] (x :: xs)) k
        (weights (range ++ added) k) := by
      intro k s
      rw [weights_append, ← isGreatest_union_iff (hf.skyline k), ← weights_append,
        ← weights_perm hperm]
      exact skylineAt_sweep hsorted hle k s
    cases hout : sweep x.start [] (x :: xs) with
    | nil =>
      have hcovered : (weights (range ++ added) t.start).Nonempty :=
        ⟨t.seq, t, by simp [ht], ⟨le_rfl, hrange t ht⟩, rfl⟩
      obtain ⟨s, hs⟩ := exists_isGreatest_weights hcovered
      have hmem := (hskyline t.start s).mpr hs
      rw [hout] at hmem
      obtain ⟨a, ha, _⟩ := hmem
      cases ha
    | cons r rs =>
      rw [hout] at hsweep hskyline
      obtain ⟨hchain, _, hweights⟩ := glue_spec hsweep.chain
      refine ⟨⟨glue r rs⟩, by simp only [hout], hchain, fun k s => ?_⟩
      rw [hweights k]
      exact hskyline k s

theorem foldlM_addRangeTombstones_spec {f : SkyLineRDF} {added : List T3ll}
    {batches : List (List T3ll)} (hf : f.Represents added)
    (hbatches : ∀ range ∈ batches, ∀ t ∈ range, t.start < t.stop) :
    ∃ g, batches.foldlM addRangeTombstones f = some g ∧
      ∃ all, all.Perm (batches.flatten ++ added) ∧ g.Represents all := by
  induction batches generalizing f added with
  | nil => exact ⟨f, rfl, added, List.Perm.refl _, hf⟩
  | cons range batches ih =>
    obtain ⟨mid, hmid, hrep⟩ := addRangeTombstones_spec hf (hbatches range List.mem_cons_self)
    obtain ⟨g, hg, all, hperm, hall⟩ :=
      ih hrep fun range' hr => hbatches range' (List.mem_cons_of_mem range hr)
    refine ⟨g, by simp [List.foldlM_cons, hmid, hg], all, hperm.trans ?_, hall⟩
    rw [List.flatten_cons, ← List.append_assoc]
    exact List.perm_append_comm.append_right added

def IsMaxSeq (added : List T3ll) (key m : ℤ) : Prop :=
  (∃ t ∈ added, t.start ≤ key ∧ key < t.stop ∧ t.seq = m ∧
    ∀ u ∈ added, u.start ≤ key → key < u.stop → u.seq ≤ m) ∨
  (m = 0 ∧ ∀ t ∈ added, ¬ (t.start ≤ key ∧ key < t.stop))

theorem Represents.isMaxSeq {f : SkyLineRDF} {added : List T3ll} (hf : f.Represents added)
    (key : ℤ) : IsMaxSeq added key (f.getMaxSeq key) := by
  have hfind : ∀ s, find f.rdList key = some s ↔ IsGreatest (weights added key) s := fun s =>
    hf.chain.find_eq_some_iff.trans (hf.skyline key s)
  rw [getMaxSeq]
  cases hres : find f.rdList key with
  | some m =>
    obtain ⟨⟨t, ht, hkey, hseq⟩, hmax⟩ := (hfind m).mp hres
    exact Or.inl ⟨t, ht, hkey.1, hkey.2, hseq, fun u hu hlo hhi => hmax ⟨u, hu, ⟨hlo, hhi⟩, rfl⟩⟩
  | none =>
    refine Or.inr ⟨rfl, fun t ht hkey => ?_⟩
    obtain ⟨s, hs⟩ := exists_isGreatest_weights ⟨t.seq, t, ht, hkey, rfl⟩
    cases hres.symm.trans ((hfind s).mpr hs)

theorem IsMaxSeq.perm {as bs : List T3ll} {key m : ℤ} (hperm : as.Perm bs)
    (h : IsMaxSeq as key m) : IsMaxSeq bs key m := by
  simpa only [IsMaxSeq, hperm.mem_iff] using h

theorem IsMaxSeq.unique {as : List T3ll} {key m m' : ℤ} (h : IsMaxSeq as key m)
    (h' : IsMaxSeq as key m') : m = m' := by
  rcases h with ⟨t, ht, hlo, hhi, rfl, hmax⟩ | ⟨rfl, hnone⟩
  · rcases h' with ⟨t', ht', hlo', hhi', rfl, hmax'⟩ | ⟨_, hnone'⟩
    · exact le_antisymm (hmax' t ht hlo hhi) (hmax t' ht' hlo' hhi')
    · exact absurd ⟨hlo, hhi⟩ (hnone' t ht)
  · rcases h' with ⟨t', ht', hlo', hhi', _, _⟩ | ⟨rfl, _⟩
    · exact absurd ⟨hlo', hhi'⟩ (hnone t' ht')
    · rfl

/-- Any sequence of calls ends, and afterwards a lookup returns the greatest sequence number over
the key of all tombstones ever added. Two sequences of calls with the same tombstones answer
alike, whatever their order and grouping. -/
theorem getMaxSeq_foldlM_addRangeTombstones (batches : List (List T3ll))
    (hbatches : ∀ range ∈ batches, ∀ t ∈ range, t.start < t.stop ∧ 0 < t.seq) :
    ∃ f, batches.foldlM addRangeTombstones empty = some f ∧
      (∀ key, IsMaxSeq batches.flatten key (f.getMaxSeq key)) ∧
      ∀ batches' : List (List T3ll), batches'.flatten.Perm batches.flatten →
        ∃ f', batches'.foldlM addRangeTombstones empty = some f' ∧
          ∀ key, f'.getMaxSeq key = f.getMaxSeq key := by
  have hrun : ∀ batches : List (List T3ll), (∀ t ∈ batches.flatten, t.start < t.stop) →
      ∃ f, batches.foldlM addRangeTombstones empty = some f ∧
        ∀ key, IsMaxSeq batches.flatten key (f.getMaxSeq key) := by
    intro batches h
    obtain ⟨f, hf, all, hperm, hall⟩ := foldlM_addRangeTombstones_spec represents_empty
      (fun range hr t ht => h t (List.mem_flatten.mpr ⟨range, hr, ht⟩))
    rw [List.append_nil] at hperm
    exact ⟨f, hf, fun key => (hall.isMaxSeq key).perm hperm⟩
  have hvalid : ∀ t ∈ batches.flatten, t.start < t.stop := by
    intro t ht
    obtain ⟨range, hr, ht⟩ := List.mem_flatten.mp ht
    exact (hbatches range hr t ht).1
  obtain ⟨f, hf, hmax⟩ := hrun batches hvalid
  refine ⟨f, hf, hmax, fun batches' hperm => ?_⟩
  obtain ⟨f', hf', hmax'⟩ := hrun batches' fun t ht => hvalid t (hperm.mem_iff.mp ht)
  exact ⟨f', hf', fun key => ((hmax' key).perm hperm).unique (hmax key)⟩

theorem getMaxSeq_foldlM_addRangeTombstones_sample :
    ∃ f, [[⟨1, 9, 3⟩, ⟨4, 6, 5⟩], [⟨5, 12, 4⟩]].foldlM addRangeTombstones empty = some f ∧
      IsMaxSeq [⟨1, 9, 3⟩, ⟨4, 6, 5⟩, ⟨5, 12, 4⟩] 7 (f.getMaxSeq 7) := by
  obtain ⟨f, hf, hmax, _⟩ := getMaxSeq_foldlM_addRangeTombstones
    [[⟨1, 9, 3⟩, ⟨4, 6, 5⟩], [⟨5, 12, 4⟩]] (by decide)
  exact ⟨f, hf, hmax 7⟩

end SkyLineRDF

end Spry
