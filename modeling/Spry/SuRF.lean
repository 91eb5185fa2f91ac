import Spry.Interval.Coalesce
import Spry.Interval.Parens
import Spry.LevelMap

/-!
# The per-file filter on tries

For every level and file a trie stores the end points of the file's ranges with their
parentheses. The trie itself is represented by its ascending list of stored keys, and its seek by
the first stored key that is not less than the query. Keys are cut to the stored length by `cut`
and may be rewritten to condensed digit keys by `condense`, which is the identity when that is off.
-/

namespace Spry

open HalfOpen

structure SuRFEnv (K : Type) where
  bypassIfSameKey : Bool
  allowRangeBoundaryOverlapped : Bool
  cut : K → K
  condense : K → K

abbrev SuRF (K : Type) := List (ParenKey K)

namespace SuRF

variable {K : Type} [LinearOrder K]

def shallBeMerged (allowOverlapped : Bool) (stop start : K) : Bool :=
  if allowOverlapped then start < stop else start ≤ stop

def flagMerge (allowOverlapped : Bool) : List (K × K) → Bool
  | [] => false
  | [_] => false
  | r :: s :: rs => shallBeMerged allowOverlapped r.2 s.1 || flagMerge allowOverlapped (s :: rs)

def mergedRanges (allowOverlapped : Bool) (ranges : List (K × K)) : List (K × K) :=
  let sorted := sortPairs ranges
  if flagMerge allowOverlapped sorted then
    match sorted with
    | [] => []
    | r :: rs => coalesceBy (shallBeMerged allowOverlapped) r rs
  else sorted

def rangesToSurf (env : SuRFEnv K) (ranges : List (K × K)) : SuRF K :=
  parens ((mergedRanges env.allowRangeBoundaryOverlapped ranges).map
    fun r => (env.cut r.1, env.cut r.2))

/-- The verdict of one trie. Without the bypass a query that hits a stored key is decided by the
two parentheses of that key. -/
def isEntryAlive (surf : SuRF K) (key : K) (bypassIfSameKey : Bool) : Bool :=
  match seekEnd surf key with
  | none => true
  | some found =>
    if found.key = key then
      if bypassIfSameKey then true
      else
        match found.left, found.right with
        | true, true => false
        | false, true => true
        | false, false => true
        | true, false => false
    else if bypassIfSameKey then !found.right
    else if found.left ∧ found.right then false
    else !found.right

theorem isEntryAlive_of_hit {surf : SuRF K} {key : K} {found : ParenKey K} (bypass : Bool)
    (h : seekEnd surf key = some found) (heq : found.key = key) :
    isEntryAlive surf key bypass = (bypass || !found.left) := by
  obtain ⟨_, left, right⟩ := found
  simp only at heq
  simp only [isEntryAlive, h, heq, if_true]
  cases bypass <;> cases left <;> cases right <;> rfl

theorem isEntryAlive_of_miss {surf : SuRF K} {key : K} {found : ParenKey K} (bypass : Bool)
    (h : seekEnd surf key = some found) (hne : found.key ≠ key) :
    isEntryAlive surf key bypass = !found.right := by
  obtain ⟨_, left, right⟩ := found
  simp only at hne
  simp only [isEntryAlive, h, hne, if_false]
  cases bypass <;> cases left <;> cases right <;> rfl

theorem le_of_shallBeMerged (allowOverlapped : Bool) (stop start : K)
    (h : shallBeMerged allowOverlapped stop start = true) : start ≤ stop := by
  cases allowOverlapped with
  | true => exact (by simpa [shallBeMerged] using h : start < stop).le
  | false => simpa [shallBeMerged] using h

theorem le_of_not_shallBeMerged (allowOverlapped : Bool) (stop start : K)
    (h : ¬ shallBeMerged allowOverlapped stop start = true) : stop ≤ start := by
  cases allowOverlapped with
  | true => simpa [shallBeMerged] using h
  | false => exact (by simpa [shallBeMerged] using h : stop < start).le

theorem pairwise_of_flagMerge_eq_false {allowOverlapped : Bool} {rs : List (K × K)}
    (apart : K → K → Prop)
    (hapart : ∀ stop start, ¬ shallBeMerged allowOverlapped stop start = true → apart stop start)
    (hmono : ∀ stop start start', apart stop start → start ≤ start' → apart stop start')
    (hsorted : StartSorted rs) (h : flagMerge allowOverlapped rs = false) :
    rs.Pairwise (fun a b => apart a.2 b.1) := by
  induction rs with
  | nil => exact List.Pairwise.nil
  | cons r rs ih =>
    cases rs with
    | nil => exact List.pairwise_singleton _ _
    | cons s rs =>
      simp only [flagMerge, Bool.or_eq_false_iff] at h
      obtain ⟨_, hs⟩ := List.pairwise_cons.mp hsorted
      have hrs : apart r.2 s.1 := hapart _ _ (by simp [h.1])
      refine List.pairwise_cons.mpr ⟨?_, ih hs h.2⟩
      intro a ha
      cases List.mem_cons.mp ha with
      | inl ha => rw [ha]; exact hrs
      | inr ha => exact hmono _ _ _ hrs ((List.pairwise_cons.mp hs).1 a ha)

section Merged

variable (allowOverlapped : Bool) {ranges : List (K × K)}

theorem mergedRanges_cases (ranges : List (K × K)) :
    (flagMerge allowOverlapped (sortPairs ranges) = false ∧
        mergedRanges allowOverlapped ranges = sortPairs ranges) ∨
      ∃ r rs, sortPairs ranges = r :: rs ∧
        mergedRanges allowOverlapped ranges =
          coalesceBy (shallBeMerged allowOverlapped) r rs := by
  unfold mergedRanges
  by_cases hflag : flagMerge allowOverlapped (sortPairs ranges) = true
  · simp only [hflag, if_true]
    cases hlist : sortPairs ranges with
    | nil => simp [hlist, flagMerge] at hflag
    | cons r rs => exact Or.inr ⟨r, rs, rfl, rfl⟩
  · simp only [hflag]
    exact Or.inl ⟨by simp, by simp⟩

theorem coverage_mergedRanges (ranges : List (K × K)) :
    coverage (mergedRanges allowOverlapped ranges) = coverage ranges := by
  have hsorted := startSorted_sortPairs ranges
  rw [← coverage_perm (sortPairs_perm ranges)]
  rcases mergedRanges_cases allowOverlapped ranges with ⟨_, heq⟩ | ⟨r, rs, hlist, heq⟩
  · rw [heq]
  · rw [heq, hlist]
    exact coverage_coalesceBy (le_of_shallBeMerged allowOverlapped) r rs (hlist ▸ hsorted)

theorem pairwise_mergedRanges (apart : K → K → Prop)
    (hapart : ∀ stop start, ¬ shallBeMerged allowOverlapped stop start = true → apart stop start)
    (hmono : ∀ stop start start', apart stop start → start ≤ start' → apart stop start')
    (ranges : List (K × K)) :
    (mergedRanges allowOverlapped ranges).Pairwise (fun a b => apart a.2 b.1) := by
  have hsorted := startSorted_sortPairs ranges
  rcases mergedRanges_cases allowOverlapped ranges with ⟨hflag, heq⟩ | ⟨r, rs, hlist, heq⟩
  · rw [heq]
    exact pairwise_of_flagMerge_eq_false apart hapart hmono hsorted hflag
  · rw [heq]
    exact pairwise_coalesceBy apart hapart hmono r rs (hlist ▸ hsorted)

theorem mergedRanges_ne_nil {ranges : List (K × K)} (hranges : ranges ≠ []) :
    mergedRanges allowOverlapped ranges ≠ [] := by
  rcases mergedRanges_cases allowOverlapped ranges with ⟨_, heq⟩ | ⟨r, rs, _, heq⟩
  · rw [heq]
    intro hnil
    exact hranges (List.Perm.eq_nil (hnil ▸ (sortPairs_perm ranges).symm))
  · rw [heq]
    exact coalesceBy_ne_nil r rs

theorem of_mem_mergedRanges (ok : K → K → Prop) (hgrow : ∀ a b c, ok a b → ok a (max b c))
    (hok : ∀ r ∈ ranges, ok r.1 r.2) :
    ∀ r ∈ mergedRanges allowOverlapped ranges, ok r.1 r.2 := by
  have hsort : ∀ r ∈ sortPairs ranges, ok r.1 r.2 := fun r hr =>
    hok r ((sortPairs_perm ranges).mem_iff.mp hr)
  rcases mergedRanges_cases allowOverlapped ranges with ⟨_, heq⟩ | ⟨r, rs, hlist, heq⟩
  · exact heq ▸ hsort
  · rw [heq]
    exact of_mem_coalesceBy ok hgrow r rs (hlist ▸ hsort)

theorem ends_of_mem_mergedRanges (P : K → Prop) (hends : ∀ r ∈ ranges, P r.1 ∧ P r.2) :
    ∀ r ∈ mergedRanges allowOverlapped ranges, P r.1 ∧ P r.2 := by
  have hsort : ∀ r ∈ sortPairs ranges, P r.1 ∧ P r.2 := fun r hr =>
    hends r ((sortPairs_perm ranges).mem_iff.mp hr)
  rcases mergedRanges_cases allowOverlapped ranges with ⟨_, heq⟩ | ⟨r, rs, hlist, heq⟩
  · exact heq ▸ hsort
  · rw [heq]
    exact ends_of_mem_coalesceBy P r rs (hlist ▸ hsort)

theorem weaklyOrdered_mergedRanges (hle : ∀ r ∈ ranges, r.1 ≤ r.2) :
    WeaklyOrdered (mergedRanges allowOverlapped ranges) :=
  ⟨of_mem_mergedRanges allowOverlapped (fun a b => a ≤ b)
      (fun _ _ _ h => le_max_of_le_left h) hle,
    pairwise_mergedRanges allowOverlapped (fun a b => a ≤ b)
      (le_of_not_shallBeMerged allowOverlapped) (fun _ _ _ => le_trans) ranges⟩

theorem gapped_mergedRanges (ranges : List (K × K)) : Gapped (mergedRanges false ranges) :=
  pairwise_mergedRanges false (fun a b => a < b) (by simp [shallBeMerged])
    (fun _ _ _ => lt_of_lt_of_le) ranges

theorem mergedRanges_spec (hne : ∀ r ∈ ranges, r.1 < r.2) :
    Ordered (mergedRanges allowOverlapped ranges) ∧
      coverage (mergedRanges allowOverlapped ranges) = coverage ranges :=
  ⟨⟨of_mem_mergedRanges allowOverlapped (fun a b => a < b)
        (fun _ _ _ h => lt_max_of_lt_left h) hne,
      (weaklyOrdered_mergedRanges allowOverlapped fun r hr => (hne r hr).le).disjoint⟩,
    coverage_mergedRanges allowOverlapped ranges⟩

theorem mergedRanges_of_ordered (h : Ordered ranges)
    (hgap : allowOverlapped = false → Gapped ranges) :
    mergedRanges allowOverlapped ranges = ranges := by
  have hapart : ranges.Pairwise fun a b => shallBeMerged allowOverlapped a.2 b.1 = false := by
    cases allowOverlapped with
    | true => exact h.disjoint.imp fun hab => by simpa [shallBeMerged] using hab
    | false => exact (hgap rfl).imp fun hab => by simpa [shallBeMerged] using hab
  have hflag : flagMerge allowOverlapped ranges = false := by
    clear hgap h
    induction ranges with
    | nil => rfl
    | cons r rs ih =>
      cases rs with
      | nil => rfl
      | cons s rs =>
        obtain ⟨hr, hrest⟩ := List.pairwise_cons.mp hapart
        rw [flagMerge, hr s List.mem_cons_self, ih hrest]
        rfl
  rw [mergedRanges, h.sortPairs_eq]
  simp [hflag]

end Merged

/-- With uncut keys a trie is exact: it spares the keys outside the ranges and, with the bypass,
the end points it stores. -/
theorem isEntryAlive_rangesToSurf (env : SuRFEnv K) (hcut : ∀ x, env.cut x = x)
    {ranges : List (K × K)} (hne : ∀ r ∈ ranges, r.1 < r.2) (key : K) (bypass : Bool) :
    isEntryAlive (rangesToSurf env ranges) key bypass = true ↔
      key ∉ coverage ranges ∨ (bypass = true ∧
        ∃ r ∈ mergedRanges env.allowRangeBoundaryOverlapped ranges, r.1 = key ∨ r.2 = key) := by
  obtain ⟨hord, hcov⟩ := mergedRanges_spec env.allowRangeBoundaryOverlapped hne
  have hsurf : rangesToSurf env ranges =
      parens (mergedRanges env.allowRangeBoundaryOverlapped ranges) := by
    simp [rangesToSurf, hcut]
  rw [hsurf, ← hcov, ← mem_parens_iff hord]
  cases hseek : seekEnd (parens (mergedRanges env.allowRangeBoundaryOverlapped ranges)) key with
  | none => simp [isEntryAlive, hseek, notMem_coverage_of_seekEnd_none hord hseek]
  | some found =>
    obtain ⟨hmem, hle, hleast⟩ := seekEnd_least (ascending_parens hord) hseek
    by_cases heq : found.key = key
    · have hstored : ∃ p ∈ parens (mergedRanges env.allowRangeBoundaryOverlapped ranges),
          p.key = key := ⟨found, hmem, heq⟩
      rw [isEntryAlive_of_hit bypass hseek heq, ← left_iff_mem_coverage hord hseek heq]
      simp [hstored, or_comm]
    · have hstored : ¬ ∃ p ∈ parens (mergedRanges env.allowRangeBoundaryOverlapped ranges),
          p.key = key := by
        intro hp
        obtain ⟨p, hp, hpk⟩ := hp
        exact heq (le_antisymm (hpk ▸ hleast p hp hpk.ge) hle)
      rw [isEntryAlive_of_miss bypass hseek heq, ← right_iff_mem_coverage hord hseek heq]
      simp [hstored]

end SuRF

structure SuRFRDF (K : Type) where
  levelFileSurfRdf : List (AList (fun _ : ℕ => SuRF K))

structure SuRFFlushToLevel0Info (K : Type) where
  dstFd : ℕ
  rdList : List (K × K)

namespace SuRFRDF

variable {K : Type} [LinearOrder K]

def empty : SuRFRDF K := ⟨[]⟩

def atLevel (f : SuRFRDF K) (level : ℕ) : AList (fun _ : ℕ => SuRF K) :=
  f.levelFileSurfRdf.getD level ∅

def processRanges : Option (K × K) → List (K × K) → List (K × K)
  | _, [] => []
  | last, r :: rs =>
    if r.1 = r.2 ∧ last = some r then processRanges last rs
    else r :: processRanges (some r) rs

def insertRangesAtLevelOfFd (env : SuRFEnv K) (f : SuRFRDF K) (level fd : ℕ)
    (ranges : List (K × K)) : SuRFRDF K :=
  let grown := f.levelFileSurfRdf ++
    List.replicate (level + 1 - f.levelFileSurfRdf.length) ∅
  ⟨grown.set level ((grown.getD level ∅).insert fd
    (SuRF.rangesToSurf env (processRanges none ranges)))⟩

/-- A file number that is at level 0 already is only reported. -/
def insertRangeDeleteToLevel0 (env : SuRFEnv K) (f : SuRFRDF K) (fileNum : ℕ)
    (ranges : List (K × K)) : SuRFRDF K :=
  if ranges = [] then f
  else if fileNum ∈ f.atLevel 0 then f
  else f.insertRangesAtLevelOfFd env 0 fileNum ranges

def isEntryAliveAtLevelOfFd (env : SuRFEnv K) (f : SuRFRDF K) (level fd : ℕ) (key : K) : Bool :=
  match (f.atLevel level).lookup fd with
  | none => true
  | some surf => surf.isEntryAlive (env.cut key) env.bypassIfSameKey

def applyFlush (env : SuRFEnv K) (f : Option (SuRFRDF K))
    (info : Option (SuRFFlushToLevel0Info K)) : Option (SuRFRDF K) :=
  match info with
  | none => f
  | some info =>
    let rdList := info.rdList.map fun r => (env.condense r.1, env.condense r.2)
    some ((f.getD empty).insertRangeDeleteToLevel0 env info.dstFd rdList)

theorem processRanges_of_nonempty (last : Option (K × K)) {ranges : List (K × K)}
    (hne : ∀ r ∈ ranges, r.1 < r.2) : processRanges last ranges = ranges := by
  induction ranges generalizing last with
  | nil => rfl
  | cons r rs ih =>
    have hr : r.1 ≠ r.2 := (hne r List.mem_cons_self).ne
    rw [processRanges, if_neg (fun h => hr h.1),
      ih (some r) (fun s hs => hne s (List.mem_cons_of_mem r hs))]

theorem levelFileSurfRdf_insertRangesAtLevelOfFd (env : SuRFEnv K) (f : SuRFRDF K)
    (level fd : ℕ) (ranges : List (K × K)) :
    (f.insertRangesAtLevelOfFd env level fd ranges).levelFileSurfRdf =
      LevelMap.insertAt f.levelFileSurfRdf level fd
        (SuRF.rangesToSurf env (processRanges none ranges)) := rfl

theorem lookup_insertRangesAtLevelOfFd (env : SuRFEnv K) (f : SuRFRDF K) (level fd : ℕ)
    (ranges : List (K × K)) :
    ((f.insertRangesAtLevelOfFd env level fd ranges).atLevel level).lookup fd =
      some (SuRF.rangesToSurf env (processRanges none ranges)) := by
  have hstored := LevelMap.lookupAt_insertAt (m := f.levelFileSurfRdf) level fd
    (SuRF.rangesToSurf env (processRanges none ranges)) level fd
  rw [if_pos ⟨rfl, rfl⟩] at hstored
  exact hstored

/-- After a flush of a new file, the filter spares exactly the keys outside the flushed ranges
and, with the bypass, the end points it stores for the file. -/
theorem isEntryAliveAtLevelOfFd_insertRangeDeleteToLevel0 (env : SuRFEnv K)
    (hcut : ∀ x, env.cut x = x) (f : SuRFRDF K) (fd : ℕ) (hfresh : fd ∉ f.atLevel 0)
    {ranges : List (K × K)} (hne : ∀ r ∈ ranges, r.1 < r.2) (key : K) :
    (f.insertRangeDeleteToLevel0 env fd ranges).isEntryAliveAtLevelOfFd env 0 fd key = true ↔
      key ∉ coverage ranges ∨ (env.bypassIfSameKey = true ∧
        ∃ r ∈ SuRF.mergedRanges env.allowRangeBoundaryOverlapped ranges,
          r.1 = key ∨ r.2 = key) := by
  by_cases hempty : ranges = []
  · subst hempty
    have hlookup : (f.atLevel 0).lookup fd = none := AList.lookup_eq_none.mpr hfresh
    simp [insertRangeDeleteToLevel0, isEntryAliveAtLevelOfFd, hlookup]
  · rw [insertRangeDeleteToLevel0, if_neg hempty, if_neg hfresh, isEntryAliveAtLevelOfFd,
      lookup_insertRangesAtLevelOfFd, processRanges_of_nonempty none hne]
    simp only [hcut]
    exact SuRF.isEntryAlive_rangesToSurf env hcut hne key env.bypassIfSameKey

end SuRFRDF

end Spry
