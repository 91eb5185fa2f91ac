import Spry.SuRFDecode

/-!
# One trie per level

In `PER_LEVEL` mode the filter has one trie for each level. An insertion into level 0 decodes the
trie that is there, merges its ranges with the new ones and stores how many there are, but builds
the next trie from the new ranges alone. The trie covers all ranges inserted so far exactly if the
last list that was not empty does.
-/

namespace Spry

open HalfOpen Machine

/-- For each level the number of its ranges and its trie; a trie that was moved leaves none. -/
structure PerLevelRDF where
  levelSurfRdf : List (ℤ × Option (SuRF Bytes))

namespace PerLevelRDF

def pairLe (a b : Bytes × Bytes) : Bool := a.1 < b.1 ∨ (a.1 = b.1 ∧ a.2 ≤ b.2)

/-- Two ascending lists are walked through together; a range joins the last one unless it lies
behind it. -/
def mergeRanges (ranges1 ranges2 : List (Bytes × Bytes)) (allowBoundaryOverlapNotMerged : Bool) :
    List (Bytes × Bytes) :=
  if ranges1 = [] then ranges2
  else if ranges2 = [] then ranges1
  else
    match ranges1.merge ranges2 pairLe with
    | [] => []
    | r :: rs =>
      coalesceBy (fun stop start =>
        !(stop < start || (stop = start && allowBoundaryOverlapNotMerged))) r rs

/-- The trie of level 0 is not checked for being there before it is decoded. -/
def insertRangeDeleteToLevel0 (env : SuRFEnv Bytes) (f : PerLevelRDF)
    (rangeDeleteListIn : List (Bytes × Bytes)) : Option PerLevelRDF :=
  if rangeDeleteListIn = [] then some f
  else
    match f.levelSurfRdf with
    | [] =>
      some ⟨[(toInt32 rangeDeleteListIn.length, some (SuRF.rangesToSurf env rangeDeleteListIn))]⟩
    | (_, none) :: _ => none
    | (_, some surf) :: rest =>
      let rangeList := mergeRanges surf.surfToRanges rangeDeleteListIn false
      let surfNext := SuRF.rangesToSurf env rangeDeleteListIn
      some ⟨(toInt32 rangeList.length, some surfNext) :: rest⟩

def insertAll (env : SuRFEnv Bytes) (f : PerLevelRDF) (calls : List (List (Bytes × Bytes))) :
    Option PerLevelRDF :=
  calls.foldlM (insertRangeDeleteToLevel0 env) f

def coversAtLevel0 (env : SuRFEnv Bytes) (f : PerLevelRDF) (key : Bytes) : Bool :=
  match f.levelSurfRdf with
  | (_, some surf) :: _ => !surf.isEntryAlive (env.cut key) false
  | _ => false

def Live (f : PerLevelRDF) : Prop := ∀ entry ∈ f.levelSurfRdf.head?, entry.2 ≠ none

theorem pairLe_trans (a b c : Bytes × Bytes) (hab : pairLe a b = true) (hbc : pairLe b c = true) :
    pairLe a c = true := by
  simp only [pairLe, decide_eq_true_eq] at hab hbc ⊢
  exact isTrans_pairs.trans a b c hab hbc

theorem pairLe_total (a b : Bytes × Bytes) : (pairLe a b || pairLe b a) = true := by
  simpa [pairLe] using total_pairs.total a b

theorem coverage_mergeRanges {ranges1 ranges2 : List (Bytes × Bytes)}
    (h₁ : ranges1.Pairwise fun a b => pairLe a b) (h₂ : ranges2.Pairwise fun a b => pairLe a b)
    (allow : Bool) :
    coverage (mergeRanges ranges1 ranges2 allow) = coverage ranges1 ∪ coverage ranges2 := by
  unfold mergeRanges
  split_ifs with hnil₁ hnil₂
  · rw [hnil₁, coverage_nil, Set.empty_union]
  · rw [hnil₂, coverage_nil, Set.union_empty]
  · have hsorted : StartSorted (ranges1.merge ranges2 pairLe) := by
      have hmerge := List.pairwise_merge pairLe_trans pairLe_total ranges1 ranges2 h₁ h₂
      exact startSorted_of_pairs (hmerge.imp fun hab => by simpa [pairLe] using hab)
    rw [← coverage_append, ← coverage_perm (List.merge_perm_append pairLe)]
    generalize ranges1.merge ranges2 pairLe = merged at hsorted ⊢
    cases merged with
    | nil => rfl
    | cons r rs =>
      apply coverage_coalesceBy _ r rs hsorted
      intro stop start hjoins
      simp only [Bool.not_eq_true', Bool.or_eq_false_iff, decide_eq_false_iff_not] at hjoins
      exact not_lt.mp hjoins.1

/-! ### Runs of insertions -/

section Run

variable {env : SuRFEnv Bytes} (hcut : ∀ x, env.cut x = x)

theorem insertRangeDeleteToLevel0_nil (f : PerLevelRDF) :
    f.insertRangeDeleteToLevel0 env [] = some f := rfl

include hcut in
theorem exists_insertRangeDeleteToLevel0 {f : PerLevelRDF} (hf : f.Live)
    {ranges : List (Bytes × Bytes)} (hnil : ranges ≠ []) (hne : ∀ r ∈ ranges, r.1 < r.2) :
    ∃ g, f.insertRangeDeleteToLevel0 env ranges = some g ∧ g.Live ∧
      ∀ key, g.coversAtLevel0 env key = true ↔ key ∈ coverage ranges := by
  have htrie : ∀ key, (!(SuRF.rangesToSurf env ranges).isEntryAlive (env.cut key) false) = true ↔
      key ∈ coverage ranges := by
    intro key
    have hexact := SuRF.isEntryAlive_rangesToSurf env hcut hne key false
    simp only [Bool.false_eq_true, false_and, or_false] at hexact
    rw [hcut, Bool.not_eq_true', ← Bool.not_eq_true, hexact, not_not]
  obtain ⟨levels⟩ := f
  rw [insertRangeDeleteToLevel0, if_neg hnil]
  match levels, hf with
  | [], _ => exact ⟨_, rfl, by simp [Live], htrie⟩
  | (_, none) :: _, hf => exact absurd rfl (hf _ rfl)
  | (_, some surf) :: rest, _ => exact ⟨_, rfl, by simp [Live], htrie⟩

def lastInserted (calls : List (List (Bytes × Bytes))) : Option (List (Bytes × Bytes)) :=
  (calls.filter (· ≠ [])).getLast?

theorem lastInserted_append_nil (calls : List (List (Bytes × Bytes))) :
    lastInserted (calls ++ [[]]) = lastInserted calls := by
  simp [lastInserted]

theorem lastInserted_append {ranges : List (Bytes × Bytes)} (hnil : ranges ≠ [])
    (calls : List (List (Bytes × Bytes))) :
    lastInserted (calls ++ [ranges]) = some ranges := by
  simp [lastInserted, hnil]

theorem flatten_of_lastInserted_eq_none {calls : List (List (Bytes × Bytes))}
    (h : lastInserted calls = none) : calls.flatten = [] := by
  simpa [lastInserted] using h

include hcut in
theorem exists_insertAll {f : PerLevelRDF} (hf : f.Live) {calls : List (List (Bytes × Bytes))}
    (hne : ∀ ranges ∈ calls, ∀ r ∈ ranges, r.1 < r.2) :
    ∃ g, f.insertAll env calls = some g ∧ g.Live ∧
      ∀ last ∈ lastInserted calls, ∀ key,
        g.coversAtLevel0 env key = true ↔ key ∈ coverage last := by
  induction calls using List.reverseRecOn with
  | nil => exact ⟨f, rfl, hf, by simp [lastInserted]⟩
  | append_singleton calls ranges ih =>
    obtain ⟨g, hg, hlive, hcovers⟩ := ih fun rs hrs => hne rs (List.mem_append_left _ hrs)
    have hstep : f.insertAll env (calls ++ [ranges]) =
        g.insertRangeDeleteToLevel0 env ranges := by
      rw [insertAll, List.foldlM_append]
      change (f.insertAll env calls >>= _) = _
      rw [hg]
      simp
    rw [hstep]
    by_cases hnil : ranges = []
    · rw [hnil, insertRangeDeleteToLevel0_nil, lastInserted_append_nil]
      exact ⟨g, rfl, hlive, hcovers⟩
    · obtain ⟨g', hg', hlive', hcovers'⟩ := exists_insertRangeDeleteToLevel0 hcut hlive hnil
        (hne ranges (by simp))
      refine ⟨g', hg', hlive', ?_⟩
      rw [lastInserted_append hnil]
      intro last hlast
      rw [← Option.some.inj hlast]
      exact hcovers'

/-- The trie of level 0 covers everything inserted so far exactly if the last list that was not
empty does. -/
theorem level0_covers_iff {f : PerLevelRDF} (hcut : ∀ x, env.cut x = x) (hf : f.Live)
    {calls : List (List (Bytes × Bytes))} (hne : ∀ ranges ∈ calls, ∀ r ∈ ranges, r.1 < r.2) :
    ∃ g, f.insertAll env calls = some g ∧
      ((∀ key ∈ coverage calls.flatten, g.coversAtLevel0 env key = true) ↔
        ∀ last ∈ lastInserted calls, coverage calls.flatten ⊆ coverage last) := by
  obtain ⟨g, hg, _, hcovers⟩ := exists_insertAll hcut hf hne
  refine ⟨g, hg, ?_⟩
  cases hlast : lastInserted calls with
  | none =>
    rw [flatten_of_lastInserted_eq_none hlast]
    simp
  | some last =>
    have hcovers := hcovers last (by rw [hlast]; rfl)
    constructor
    · intro h last' hlast' key hkey
      rw [← Option.some.inj hlast']
      exact (hcovers key).mp (h key hkey)
    · intro h key hkey
      exact (hcovers key).mpr (h last rfl hkey)

end Run

theorem level0_covers_iff_growing :
    ∃ g, insertAll ⟨false, false, id, id⟩ ⟨[]⟩ [[([3], [5])], [], [([1], [9])]] = some g ∧
      ∀ key ∈ coverage [[(([3] : Bytes), ([5] : Bytes))], [], [([1], [9])]].flatten,
        g.coversAtLevel0 ⟨false, false, id, id⟩ key = true := by
  have hcut : ∀ x, (⟨false, false, id, id⟩ : SuRFEnv Bytes).cut x = x := fun _ => rfl
  have hempty : Live ⟨[]⟩ := by simp [Live]
  have hne : ∀ ranges ∈ [[(([3] : Bytes), ([5] : Bytes))], [], [([1], [9])]],
      ∀ r ∈ ranges, r.1 < r.2 := by decide
  obtain ⟨g, hg, hiff⟩ := level0_covers_iff hcut hempty hne
  refine ⟨g, hg, hiff.mpr ?_⟩
  intro last hlast
  obtain rfl : [([1], [9])] = last := Option.some.inj hlast
  have hinside : ∀ r ∈ [[(([3] : Bytes), ([5] : Bytes))], [], [([1], [9])]].flatten,
      [1] ≤ r.1 ∧ r.2 ≤ [9] := by decide
  rintro key ⟨r, hr, hlo, hhi⟩
  exact ⟨([1], [9]), List.mem_singleton_self _, (hinside r hr).1.trans hlo,
    hhi.trans_le (hinside r hr).2⟩

/-- The second insertion drops the range of the first one. -/
theorem level0_forgets :
    (insertAll ⟨false, false, id, id⟩ ⟨[]⟩ [[([1], [3])], [([5], [7])]]).map
        (fun g => (g.coversAtLevel0 ⟨false, false, id, id⟩ [1],
          g.coversAtLevel0 ⟨false, false, id, id⟩ [5])) = some (false, true) ∧
      ([1] : Bytes) ∈ coverage [(([1], [3]) : Bytes × Bytes)] :=
  ⟨by decide, by decide⟩

end PerLevelRDF

end Spry
