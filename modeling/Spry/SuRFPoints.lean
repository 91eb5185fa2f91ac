import Spry.SuRF
import Spry.Interval.Keys

/-!
# Tries with split points

A compaction can store point keys of a file together with its ranges: a point key inside a range
is an end point of its own, so that the keys around it stay deleted and the key itself is spared.
Ranges and point keys are scanned together. Everything that is stored is cut to the key length,
so that starts, ends and point keys may meet at one stored key, which then has the parentheses
of all of them.
-/

namespace Spry

open HalfOpen

/-- The scan over ranges and point keys. The stored end points are newest first, and the cursor
stands between the last point key it passed and the ones ahead. -/
structure PointScan (K : Type) where
  keys : List (ParenKey K)
  passed : Option K
  ahead : List K
  splitCount : ℕ

namespace SuRF

variable {K : Type} [LinearOrder K]

def bypassKeys (start : K) (passed : Option K) : List K → Option K × List K
  | [] => (passed, [])
  | p :: ps => if p < start then bypassKeys start (some p) ps else (passed, p :: ps)

/-- A point key at the start of a range: the start is not deleted. Where ranges may share a
boundary, an end that is also a start keeps its parentheses. -/
def punctureStart (allowOverlapped : Bool) : List (ParenKey K) → List (ParenKey K)
  | [] => []
  | p :: ps =>
    if allowOverlapped ∧ p.left ∧ p.right then p :: ps
    else { p with left := false, right := false } :: ps

/-- The loop over the point keys inside a range with the given cut boundary. A point key that is
cut to the same key as the one before it is skipped. -/
def splitRange (env : SuRFEnv K) (start stop : K) (keys : List (ParenKey K)) (passed : Option K)
    (splitCount : ℕ) : List K → PointScan K
  | [] => ⟨keys, passed, [], splitCount⟩
  | p :: ps =>
    if stop ≤ env.cut p then ⟨keys, passed, p :: ps, splitCount⟩
    else if passed.map env.cut = some (env.cut p) then
      splitRange env start stop keys (some p) splitCount ps
    else if env.cut p = start then
      splitRange env start stop (punctureStart env.allowRangeBoundaryOverlapped keys) (some p)
        splitCount ps
    else splitRange env start stop (⟨env.cut p, false, true⟩ :: keys) (some p) (splitCount + 1) ps

def emitRangeWithPointKeys (env : SuRFEnv K) (s : PointScan K) (r : K × K) : PointScan K :=
  let cursor := bypassKeys r.1 s.passed s.ahead
  let keys := pushStart s.keys (env.cut r.1)
  if env.cut r.1 = env.cut r.2 then ⟨keys, cursor.1, cursor.2, s.splitCount⟩
  else
    let inner := splitRange env (env.cut r.1) (env.cut r.2) keys cursor.1 s.splitCount cursor.2
    { inner with keys := ⟨env.cut r.2, false, true⟩ :: inner.keys }

def scanPointKeys (env : SuRFEnv K) (rs : List (K × K)) (pointKeys : List K) : PointScan K :=
  rs.foldl (emitRangeWithPointKeys env) ⟨[], none, pointKeys, 0⟩

def rangesWithPointKeysToSurf (env : SuRFEnv K) (ranges : List (K × K)) (pointKeys : List K) :
    SuRF K × ℕ :=
  let s := scanPointKeys env (mergedRanges env.allowRangeBoundaryOverlapped ranges) pointKeys
  (s.keys.reverse, s.splitCount)

def flagKeyMayDeleted (surf : SuRF K) (key : K) (bypassIfSameKey : Bool) : Bool :=
  match seekEnd surf key with
  | none => false
  | some found => found.key = key ∧ bypassIfSameKey

theorem foldl_emitRangeWithPointKeys_nil (env : SuRFEnv K) (rs : List (K × K))
    (ks : List (ParenKey K)) (splitCount : ℕ) :
    rs.foldl (emitRangeWithPointKeys env) ⟨ks, none, [], splitCount⟩ =
      ⟨(rs.map fun r => (env.cut r.1, env.cut r.2)).foldl emitRange ks, none, [], splitCount⟩ := by
  induction rs generalizing ks with
  | nil => rfl
  | cons r rs ih =>
    rw [List.foldl_cons, List.map_cons, List.foldl_cons, ← ih]
    congr 1
    by_cases heq : env.cut r.1 = env.cut r.2
    · simp [emitRangeWithPointKeys, emitRange, bypassKeys, heq]
    · simp [emitRangeWithPointKeys, emitRange, bypassKeys, splitRange, heq]

theorem rangesWithPointKeysToSurf_nil (env : SuRFEnv K) (ranges : List (K × K)) :
    rangesWithPointKeysToSurf env ranges [] = (rangesToSurf env ranges, 0) := by
  rw [rangesWithPointKeysToSurf, scanPointKeys, foldl_emitRangeWithPointKeys_nil]
  rfl

end SuRF

namespace SuRFRDF

variable {K : Type} [LinearOrder K]

def processRangesWithPointKeys : Option (K × K) → List (K × K) → List (K × K)
  | _, [] => []
  | last, r :: rs =>
    if last = some r then processRangesWithPointKeys last rs
    else r :: processRangesWithPointKeys (some r) rs

def insertRangesWithPointKeysAtLevelOfFd (env : SuRFEnv K) (f : SuRFRDF K) (level fd : ℕ)
    (ranges : List (K × K)) (pointKeys : List K) : SuRFRDF K :=
  let grown := f.levelFileSurfRdf ++
    List.replicate (level + 1 - f.levelFileSurfRdf.length) ∅
  ⟨grown.set level ((grown.getD level ∅).insert fd
    (SuRF.rangesWithPointKeysToSurf env (processRangesWithPointKeys none ranges) pointKeys).1)⟩

def flagKeyMayDeletedAtLevelOfFd (env : SuRFEnv K) (f : SuRFRDF K) (level fd : ℕ) (key : K) :
    Bool :=
  match (f.atLevel level).lookup fd with
  | none => false
  | some surf => surf.flagKeyMayDeleted (env.cut key) env.bypassIfSameKey

end SuRFRDF

namespace SuRF

variable {K : Type} [LinearOrder K]

def Ends (env : SuRFEnv K) (pointKeys : List K) (r : K × K) (x : K) : Prop :=
  env.cut r.1 < env.cut r.2 ∧
    (x = env.cut r.2 ∨ (x ∈ pointKeys.map env.cut ∧ env.cut r.1 < x ∧ x < env.cut r.2))

/-- The start of a range gives way to a point key. A point key in front of the range with the
same cut key hides the others. -/
structure Punctured (env : SuRFEnv K) (pointKeys : List K) (r : K × K) : Prop where
  lt : env.cut r.1 < env.cut r.2
  point : ∃ p ∈ pointKeys, r.1 ≤ p ∧ env.cut p = env.cut r.1
  fresh : ∀ p ∈ pointKeys, p < r.1 → env.cut p ≠ env.cut r.1

section Scan

variable {env : SuRFEnv K}

def freshCuts (cut : K → K) (passed : Option K) : List K → List K
  | [] => []
  | p :: ps =>
    if passed.map cut = some (cut p) then freshCuts cut (some p) ps
    else cut p :: freshCuts cut (some p) ps

def splitStep (env : SuRFEnv K) (start : K) (keys : List (ParenKey K)) (x : K) :
    List (ParenKey K) :=
  if x = start then punctureStart env.allowRangeBoundaryOverlapped keys
  else ⟨x, false, true⟩ :: keys

theorem splitRange_keys (start stop : K) (keys : List (ParenKey K)) (passed : Option K)
    (splitCount : ℕ) (ps : List K) :
    (splitRange env start stop keys passed splitCount ps).keys =
      (freshCuts env.cut passed (ps.takeWhile (fun p => env.cut p < stop))).foldl
        (splitStep env start) keys := by
  induction ps generalizing keys passed splitCount with
  | nil => rfl
  | cons p ps ih =>
    rw [splitRange]
    by_cases hstop : stop ≤ env.cut p
    · simp [hstop, freshCuts]
    · rw [if_neg hstop]
      have hcons : (p :: ps).takeWhile (fun p => decide (env.cut p < stop)) =
          p :: ps.takeWhile (fun p => decide (env.cut p < stop)) := by
        simp [not_le.mp hstop]
      rw [hcons, freshCuts]
      by_cases hseen : passed.map env.cut = some (env.cut p)
      · rw [if_pos hseen, if_pos hseen, ih]
      · rw [if_neg hseen, if_neg hseen, List.foldl_cons, splitStep]
        by_cases hstart : env.cut p = start
        · rw [if_pos hstart, if_pos hstart, ih]
        · rw [if_neg hstart, if_neg hstart, ih]

theorem freshCuts_spec {cut : K → K} (hcut : Monotone cut) {passed : Option K} {ps : List K}
    (hps : ps.Pairwise (· ≤ ·)) (hpassed : ∀ a ∈ passed, ∀ p ∈ ps, a ≤ p) :
    (freshCuts cut passed ps).Pairwise (· < ·) ∧
      ∀ x, x ∈ freshCuts cut passed ps ↔ x ∈ ps.map cut ∧ passed.map cut ≠ some x := by
  induction ps generalizing passed with
  | nil => exact ⟨List.Pairwise.nil, by simp [freshCuts]⟩
  | cons p ps ih =>
    obtain ⟨hp, hps⟩ := List.pairwise_cons.mp hps
    have hhere : ∀ a ∈ some p, ∀ q ∈ ps, a ≤ q := by simpa using hp
    obtain ⟨hlt, hmem⟩ := ih hps hhere
    have hle : ∀ x ∈ ps.map cut, cut p ≤ x := by
      intro x hx
      obtain ⟨q, hq, rfl⟩ := List.mem_map.mp hx
      exact hcut (hp q hq)
    rw [freshCuts]
    by_cases hseen : passed.map cut = some (cut p)
    · rw [if_pos hseen]
      refine ⟨hlt, fun x => ?_⟩
      rw [hmem x, hseen, List.map_cons, List.mem_cons, Option.map_some]
      simp only [ne_eq, Option.some.injEq]
      grind
    · rw [if_neg hseen]
      refine ⟨List.pairwise_cons.mpr ⟨fun x hx => ?_, hlt⟩, fun x => ?_⟩
      · obtain ⟨hx, hne⟩ := (hmem x).mp hx
        exact lt_of_le_of_ne (hle x hx) (by simpa using hne)
      · rw [List.mem_cons, hmem x, List.map_cons, List.mem_cons, Option.map_some]
        constructor
        · rintro (rfl | ⟨hx, hne⟩)
          · exact ⟨Or.inl rfl, hseen⟩
          · refine ⟨Or.inr hx, fun hpre => hne ?_⟩
            obtain ⟨a, ha, rfl⟩ := Option.map_eq_some_iff.mp hpre
            have hap : cut a ≤ cut p := hcut (hpassed a ha p List.mem_cons_self)
            rw [le_antisymm (hle _ hx) hap]
        · rintro ⟨rfl | hx, hne⟩
          · exact Or.inl rfl
          · by_cases heq : x = cut p
            · exact Or.inl heq
            · exact Or.inr ⟨hx, by simpa using Ne.symm heq⟩

def endKey (x : K) : ParenKey K := ⟨x, false, true⟩

theorem foldl_splitStep_of_lt {start : K} {xs : List K} (hxs : ∀ x ∈ xs, start < x)
    (keys : List (ParenKey K)) :
    xs.foldl (splitStep env start) keys = (xs.map endKey).reverse ++ keys := by
  induction xs generalizing keys with
  | nil => rfl
  | cons x xs ih =>
    rw [List.foldl_cons, ih fun y hy => hxs y (List.mem_cons_of_mem x hy), splitStep,
      if_neg (hxs x List.mem_cons_self).ne', List.map_cons, List.reverse_cons,
      List.append_assoc]
    rfl

theorem foldl_splitStep {start : K} {xs : List K} (hxs : xs.Pairwise (· < ·))
    (hle : ∀ x ∈ xs, start ≤ x) (keys : List (ParenKey K)) :
    xs.foldl (splitStep env start) keys =
      ((xs.filter (start < ·)).map endKey).reverse ++
        if start ∈ xs then punctureStart env.allowRangeBoundaryOverlapped keys else keys := by
  cases xs with
  | nil => simp
  | cons x xs =>
    obtain ⟨hx, _⟩ := List.pairwise_cons.mp hxs
    have hrest : ∀ y ∈ xs, start < y := fun y hy =>
      (hle x List.mem_cons_self).trans_lt (hx y hy)
    have hfilter : xs.filter (start < ·) = xs := List.filter_eq_self.mpr (by simpa using hrest)
    have hnot : start ∉ xs := fun h => (hrest start h).false
    rw [List.foldl_cons, foldl_splitStep_of_lt hrest, splitStep]
    by_cases heq : x = start
    · simp [heq, hfilter]
    · have hlt : start < x := lt_of_le_of_ne (hle x List.mem_cons_self) (Ne.symm heq)
      simp [heq, Ne.symm heq, hfilter, hlt, hnot, endKey]

structure Cursor (pointKeys done : List K) (passed : Option K) (ahead : List K) : Prop where
  points : pointKeys = done ++ ahead
  last : passed = done.getLast?

variable {pointKeys done ahead : List K} {passed : Option K}

omit [LinearOrder K] in
theorem Cursor.next {p : K} (h : Cursor pointKeys done passed (p :: ahead)) :
    Cursor pointKeys (done ++ [p]) (some p) ahead :=
  ⟨by rw [h.points, List.append_assoc, List.singleton_append], by simp⟩

theorem Cursor.bypassKeys {start : K} (h : Cursor pointKeys done passed ahead)
    (hdone : ∀ p ∈ done, p < start) :
    ∃ done', Cursor pointKeys done' (bypassKeys start passed ahead).1
        (bypassKeys start passed ahead).2 ∧
      (∀ p ∈ done', p < start) ∧ ∀ p ∈ (SuRF.bypassKeys start passed ahead).2.head?, start ≤ p := by
  induction ahead generalizing done passed with
  | nil => exact ⟨done, h, hdone, by simp [SuRF.bypassKeys]⟩
  | cons p ps ih =>
    rw [SuRF.bypassKeys]
    by_cases hlt : p < start
    · rw [if_pos hlt]
      apply ih h.next
      simpa [or_imp, forall_and] using ⟨hdone, hlt⟩
    · rw [if_neg hlt]
      exact ⟨done, h, hdone, by simpa using hlt⟩

theorem Cursor.splitRange {start stop : K} (h : Cursor pointKeys done passed ahead)
    (keys : List (ParenKey K)) (splitCount : ℕ) :
    ∃ done', Cursor pointKeys done' (splitRange env start stop keys passed splitCount ahead).passed
        (splitRange env start stop keys passed splitCount ahead).ahead ∧
      ∀ p ∈ done', p ∈ done ∨ env.cut p < stop := by
  induction ahead generalizing done passed keys splitCount with
  | nil => exact ⟨done, h, fun p hp => Or.inl hp⟩
  | cons p ps ih =>
    have hnext : ∀ {done' : List K}, env.cut p < stop →
        (∀ q ∈ done', q ∈ done ++ [p] ∨ env.cut q < stop) →
        ∀ q ∈ done', q ∈ done ∨ env.cut q < stop := by
      intro done' hlt hdone' q hq
      rcases hdone' q hq with hq | hq
      · rcases List.mem_append.mp hq with hq | hq
        · exact Or.inl hq
        · exact Or.inr (List.mem_singleton.mp hq ▸ hlt)
      · exact Or.inr hq
    rw [SuRF.splitRange]
    by_cases hstop : stop ≤ env.cut p
    · rw [if_pos hstop]
      exact ⟨done, h, fun p hp => Or.inl hp⟩
    · rw [if_neg hstop]
      split_ifs with hseen hstart
      · obtain ⟨done', hcursor, hdone'⟩ := ih h.next keys splitCount
        exact ⟨done', hcursor, hnext (not_le.mp hstop) hdone'⟩
      · obtain ⟨done', hcursor, hdone'⟩ := ih h.next
          (punctureStart env.allowRangeBoundaryOverlapped keys) splitCount
        exact ⟨done', hcursor, hnext (not_le.mp hstop) hdone'⟩
      · obtain ⟨done', hcursor, hdone'⟩ := ih h.next
          (⟨env.cut p, false, true⟩ :: keys) (splitCount + 1)
        exact ⟨done', hcursor, hnext (not_le.mp hstop) hdone'⟩

structure SplitCuts (env : SuRFEnv K) (pointKeys : List K) (r : K × K) (xs : List K) : Prop where
  sorted : xs.Pairwise (· < ·)
  start_le : ∀ x ∈ xs, env.cut r.1 ≤ x
  start_mem : env.cut r.1 ∈ xs ↔ Punctured env pointKeys r
  mem_inner : ∀ x, x ∈ xs.filter (env.cut r.1 < ·) ↔
    x ∈ pointKeys.map env.cut ∧ env.cut r.1 < x ∧ x < env.cut r.2

section Sorted

variable (hcut : Monotone env.cut) (hpoints : pointKeys.Pairwise (· ≤ ·)) {r : K × K}
  (hcursor : Cursor pointKeys done passed ahead) (hdone : ∀ p ∈ done, p < r.1)
include hcut hpoints hcursor hdone

theorem passed_ne_start_iff (hahead : ∀ p ∈ ahead, r.1 ≤ p) :
    passed.map env.cut ≠ some (env.cut r.1) ↔
      ∀ p ∈ pointKeys, p < r.1 → env.cut p ≠ env.cut r.1 := by
  have hsorted : done.Pairwise (· ≤ ·) :=
    (List.pairwise_append.mp (hcursor.points ▸ hpoints)).1
  constructor
  · intro hne p hp hpr heq
    have hp : p ∈ done := by
      rcases List.mem_append.mp (hcursor.points ▸ hp) with hp | hp
      · exact hp
      · exact absurd hpr (not_lt.mpr (hahead p hp))
    have hnil : done ≠ [] := List.ne_nil_of_mem hp
    have hlast := hdone _ (List.getLast_mem hnil)
    apply hne
    rw [hcursor.last, List.getLast?_eq_some_getLast hnil, Option.map_some]
    exact congrArg some (le_antisymm (hcut hlast.le) (heq ▸ hcut (hsorted.rel_getLast hp)))
  · intro hne hsome
    obtain ⟨a, ha, heq⟩ := Option.map_eq_some_iff.mp hsome
    have ha : a ∈ done := List.mem_of_getLast? (hcursor.last ▸ ha)
    exact hne a (hcursor.points ▸ List.mem_append_left ahead ha) (hdone a ha) heq

theorem mem_taken_iff (hahead : ∀ p ∈ ahead, r.1 ≤ p) {p : K} :
    p ∈ ahead.takeWhile (fun p => env.cut p < env.cut r.2) ↔
      p ∈ pointKeys ∧ r.1 ≤ p ∧ env.cut p < env.cut r.2 := by
  have hsorted : ahead.Pairwise (· ≤ ·) :=
    (List.pairwise_append.mp (hcursor.points ▸ hpoints)).2.1
  have hscan : ahead.Pairwise fun a b =>
      decide (env.cut b < env.cut r.2) → decide (env.cut a < env.cut r.2) :=
    hsorted.imp fun hab hb => by simpa using (hcut hab).trans_lt (by simpa using hb)
  rw [mem_takeWhile_iff hscan, hcursor.points, List.mem_append, decide_eq_true_iff]
  constructor
  · rintro ⟨hp, hlt⟩
    exact ⟨Or.inr hp, hahead p hp, hlt⟩
  · rintro ⟨hp | hp, hle, hlt⟩
    · exact absurd (hdone p hp) (not_lt.mpr hle)
    · exact ⟨hp, hlt⟩

theorem splitCuts_taken (hahead : ∀ p ∈ ahead, r.1 ≤ p) (hlt : env.cut r.1 < env.cut r.2) :
    SplitCuts env pointKeys r (freshCuts env.cut passed
      (ahead.takeWhile fun p => decide (env.cut p < env.cut r.2))) := by
  have htaken := @mem_taken_iff K _ env pointKeys done ahead passed hcut hpoints r hcursor hdone
    hahead
  have hsorted : ahead.Pairwise (· ≤ ·) :=
    (List.pairwise_append.mp (hcursor.points ▸ hpoints)).2.1
  have hpassed : ∀ a ∈ passed, a < r.1 := fun a ha =>
    hdone a (List.mem_of_getLast? (hcursor.last ▸ ha))
  obtain ⟨hxs, hmem⟩ := freshCuts_spec hcut
    (hsorted.sublist (List.takeWhile_sublist fun p => decide (env.cut p < env.cut r.2)))
    fun a ha p hp => (hpassed a ha).le.trans (htaken.mp hp).2.1
  refine ⟨hxs, fun x hx => ?_, ?_, fun x => ?_⟩
  · obtain ⟨p, hp, rfl⟩ := List.mem_map.mp ((hmem x).mp hx).1
    exact hcut (htaken.mp hp).2.1
  · rw [hmem, passed_ne_start_iff hcut hpoints hcursor hdone hahead]
    constructor
    · rintro ⟨hx, hfresh⟩
      obtain ⟨p, hp, heq⟩ := List.mem_map.mp hx
      exact ⟨hlt, ⟨p, (htaken.mp hp).1, (htaken.mp hp).2.1, heq⟩, hfresh⟩
    · rintro ⟨_, ⟨p, hp, hrp, heq⟩, hfresh⟩
      exact ⟨List.mem_map.mpr ⟨p, htaken.mpr ⟨hp, hrp, heq ▸ hlt⟩, heq⟩, hfresh⟩
  · rw [List.mem_filter, decide_eq_true_iff]
    constructor
    · rintro ⟨hx, hgt⟩
      obtain ⟨p, hp, rfl⟩ := List.mem_map.mp ((hmem x).mp hx).1
      exact ⟨List.mem_map_of_mem (htaken.mp hp).1, hgt, (htaken.mp hp).2.2⟩
    · rintro ⟨hx, hgt, hstop⟩
      obtain ⟨p, hp, rfl⟩ := List.mem_map.mp hx
      have hrp : r.1 ≤ p := (hcut.reflect_lt hgt).le
      refine ⟨(hmem _).mpr ⟨List.mem_map_of_mem (htaken.mpr ⟨hp, hrp, hstop⟩), ?_⟩, hgt⟩
      intro hsome
      obtain ⟨a, ha, heq⟩ := Option.map_eq_some_iff.mp hsome
      exact absurd (heq ▸ hgt) (not_lt.mpr (hcut (hpassed a ha).le))

/-- What the loop over the point keys of a range does to the stored keys, once the cursor has
passed the point keys in front of the range. -/
theorem exists_ends_splitRange (hahead : ∀ p ∈ ahead, r.1 ≤ p)
    (hlt : env.cut r.1 < env.cut r.2) (keys : List (ParenKey K)) (splitCount : ℕ) :
    ∃ ends : List K, ∃ base, ends.Pairwise (· < ·) ∧ (∀ x, x ∈ ends ↔ Ends env pointKeys r x) ∧
      (Punctured env pointKeys r → base = punctureStart env.allowRangeBoundaryOverlapped keys) ∧
      (¬ Punctured env pointKeys r → base = keys) ∧
      endKey (env.cut r.2) ::
          (splitRange env (env.cut r.1) (env.cut r.2) keys passed splitCount ahead).keys =
        (ends.map endKey).reverse ++ base := by
  have hcuts := splitCuts_taken hcut hpoints hcursor hdone hahead hlt
  rw [splitRange_keys]
  generalize freshCuts env.cut passed
    (ahead.takeWhile fun p => decide (env.cut p < env.cut r.2)) = xs at hcuts
  refine ⟨xs.filter (env.cut r.1 < ·) ++ [env.cut r.2],
    if env.cut r.1 ∈ xs then punctureStart env.allowRangeBoundaryOverlapped keys else keys,
    ?_, ?_, fun h => ?_, fun h => ?_, ?_⟩
  · apply List.pairwise_append.mpr
    refine ⟨hcuts.sorted.sublist List.filter_sublist, List.pairwise_singleton _ _, ?_⟩
    intro x hx y hy
    rw [List.mem_singleton.mp hy]
    exact ((hcuts.mem_inner x).mp hx).2.2
  · intro x
    rw [List.mem_append, hcuts.mem_inner x, List.mem_singleton, Ends]
    tauto
  · exact if_pos (hcuts.start_mem.mpr h)
  · exact if_neg (mt hcuts.start_mem.mp h)
  · rw [foldl_splitStep hcuts.sorted hcuts.start_le]
    simp

end Sorted

structure Punctures (env : SuRFEnv K) (pointKeys : List K) (rs : List (K × K))
    (ks : List (ParenKey K)) : Prop where
  descending : ks.Pairwise (fun a b => b.key < a.key)
  keys : ∀ x, (∃ p ∈ ks, p.key = x) ↔ ∃ r ∈ rs, env.cut r.1 = x ∨ Ends env pointKeys r x
  left_of : ∀ p ∈ ks, p.left = true → ∃ r ∈ rs, env.cut r.1 = p.key ∧
    (env.allowRangeBoundaryOverlapped = true ∨ ¬ Punctured env pointKeys r)
  left : ∀ p ∈ ks, (∃ r ∈ rs, env.cut r.1 = p.key) →
    (∀ r ∈ rs, env.cut r.1 = p.key → ¬ Punctured env pointKeys r) → p.left = true
  right : ∀ p ∈ ks, p.right = true ↔ (∃ r ∈ rs, Ends env pointKeys r p.key) ∧
    (env.allowRangeBoundaryOverlapped = true ∨
      ∀ r ∈ rs, env.cut r.1 = p.key → ¬ Punctured env pointKeys r)

theorem Ends.lt {r : K × K} {x : K} (h : Ends env pointKeys r x) : env.cut r.1 < x := by
  rcases h with ⟨hlt, rfl | ⟨_, hx, _⟩⟩
  · exact hlt
  · exact hx

theorem Ends.le {r : K × K} {x : K} (h : Ends env pointKeys r x) : x ≤ env.cut r.2 := by
  rcases h with ⟨_, rfl | ⟨_, _, hx⟩⟩
  · exact le_rfl
  · exact hx.le

/-- The start of the newest range, with its parentheses after the loop over the point keys. -/
structure NewestStart (env : SuRFEnv K) (pointKeys : List K) (r : K × K)
    (top first : ParenKey K) : Prop where
  key : first.key = top.key
  left : ¬ Punctured env pointKeys r → first.left = true
  left_of : first.left = true →
    env.allowRangeBoundaryOverlapped = true ∨ ¬ Punctured env pointKeys r
  right : first.right = true ↔ top.right = true ∧
    (env.allowRangeBoundaryOverlapped = true ∨ ¬ Punctured env pointKeys r)

theorem exists_newestStart {r : K × K} {top : ParenKey K} {below base : List (ParenKey K)}
    (hleft : top.left = true)
    (hpunct : Punctured env pointKeys r →
      base = punctureStart env.allowRangeBoundaryOverlapped (top :: below))
    (hkeep : ¬ Punctured env pointKeys r → base = top :: below) :
    ∃ first, base = first :: below ∧ NewestStart env pointKeys r top first := by
  by_cases h : Punctured env pointKeys r
  · rw [hpunct h, punctureStart]
    by_cases hboth : env.allowRangeBoundaryOverlapped = true ∧ top.left ∧ top.right
    · exact ⟨top, by rw [if_pos hboth], rfl, fun _ => hleft, fun _ => Or.inl hboth.1, by
        simp [hboth.1]⟩
    · refine ⟨{ top with left := false, right := false }, by rw [if_neg hboth], rfl,
        fun hnot => absurd h hnot, by simp, ?_⟩
      simp only [Bool.false_eq_true, false_iff]
      rintro ⟨hright, hallow⟩
      exact hboth ⟨hallow.resolve_right (not_not.mpr h), hleft, hright⟩
  · exact ⟨top, hkeep h, rfl, fun _ => hleft, fun _ => Or.inr h, by simp [h]⟩

section Snoc

variable {rs : List (K × K)} {ks below : List (ParenKey K)} {r : K × K} {top first : ParenKey K}
  {ends : List K} (h : Punctures env pointKeys rs ks)
  (hbefore : ∀ s ∈ rs, env.cut s.1 ≤ env.cut r.1 ∧
    ∀ x, Ends env pointKeys s x → x ≤ env.cut r.1)
  (hpushed : Pushed ks (env.cut r.1) top below) (hfirst : NewestStart env pointKeys r top first)
  (hmem : ∀ x, x ∈ ends ↔ Ends env pointKeys r x)

include hmem in
theorem mem_newest_iff {p : ParenKey K} : p ∈ (ends.map endKey).reverse ++ first :: below ↔
    (∃ x, Ends env pointKeys r x ∧ endKey x = p) ∨ p = first ∨ p ∈ below := by
  simp only [List.mem_append, List.mem_reverse, List.mem_map, List.mem_cons, hmem]

include hmem in
theorem exists_key_newest_iff (x : K) :
    (∃ p ∈ (ends.map endKey).reverse ++ first :: below, p.key = x) ↔
      Ends env pointKeys r x ∨ first.key = x ∨ ∃ p ∈ below, p.key = x := by
  simp only [mem_newest_iff hmem]
  constructor
  · rintro ⟨p, ⟨y, hy, rfl⟩ | rfl | hp, rfl⟩
    · exact Or.inl hy
    · exact Or.inr (Or.inl rfl)
    · exact Or.inr (Or.inr ⟨p, hp, rfl⟩)
  · rintro (hx | heq | ⟨p, hp, heq⟩)
    · exact ⟨endKey x, Or.inl ⟨x, hx, rfl⟩, rfl⟩
    · exact ⟨first, Or.inr (Or.inl rfl), heq⟩
    · exact ⟨p, Or.inr (Or.inr hp), heq⟩

include hpushed hfirst hmem in
theorem descending_newest (hends : ends.Pairwise (· < ·)) :
    ((ends.map endKey).reverse ++ first :: below).Pairwise (fun a b => b.key < a.key) := by
  have hkey : first.key = env.cut r.1 := hfirst.key.trans hpushed.key
  have hgt : ∀ x ∈ ends, env.cut r.1 < x := fun x hx => ((hmem x).mp hx).lt
  apply List.pairwise_append.mpr
  refine ⟨?_, List.pairwise_cons.mpr ⟨fun q hq => hkey ▸ (hpushed.below q hq).2,
    hpushed.descending⟩, ?_⟩
  · rw [List.pairwise_reverse, List.pairwise_map]
    exact hends
  · intro p hp q hq
    obtain ⟨x, hx, rfl⟩ := List.mem_map.mp (List.mem_reverse.mp hp)
    cases List.mem_cons.mp hq with
    | inl heq => exact heq ▸ hkey ▸ hgt x hx
    | inr hq => exact (hpushed.below q hq).2.trans (hgt x hx)

include h hpushed hfirst hmem in
theorem left_of_newest {p : ParenKey K}
    (hp : p ∈ (ends.map endKey).reverse ++ first :: below) (hleft : p.left = true) :
    (∃ s ∈ rs, env.cut s.1 = p.key ∧
        (env.allowRangeBoundaryOverlapped = true ∨ ¬ Punctured env pointKeys s)) ∨
      env.cut r.1 = p.key ∧
        (env.allowRangeBoundaryOverlapped = true ∨ ¬ Punctured env pointKeys r) := by
  rcases (mem_newest_iff hmem).mp hp with ⟨x, _, rfl⟩ | rfl | hp
  · exact absurd hleft (by simp [endKey])
  · exact Or.inr ⟨(hfirst.key.trans hpushed.key).symm, hfirst.left_of hleft⟩
  · exact Or.inl (h.left_of p (hpushed.below p hp).1 hleft)

include h hbefore hpushed hfirst hmem in
theorem left_newest {p : ParenKey K}
    (hp : p ∈ (ends.map endKey).reverse ++ first :: below)
    (hstart : (∃ s ∈ rs, env.cut s.1 = p.key) ∨ env.cut r.1 = p.key)
    (hold : ∀ s ∈ rs, env.cut s.1 = p.key → ¬ Punctured env pointKeys s)
    (hnew : env.cut r.1 = p.key → ¬ Punctured env pointKeys r) : p.left = true := by
  rcases (mem_newest_iff hmem).mp hp with ⟨x, hend, rfl⟩ | rfl | hp
  · -- no range starts at a new end
    rcases hstart with ⟨s, hs, heq⟩ | heq
    · exact absurd heq ((hbefore s hs).1.trans_lt hend.lt).ne
    · exact absurd heq hend.lt.ne
  · exact hfirst.left (hnew (hfirst.key.trans hpushed.key).symm)
  · obtain ⟨hpks, hlt⟩ := hpushed.below p hp
    exact h.left p hpks (hstart.resolve_right hlt.ne') hold

include h hpushed in
theorem right_top_iff : top.right = true ↔
    (∃ s ∈ rs, Ends env pointKeys s (env.cut r.1)) ∧
      (env.allowRangeBoundaryOverlapped = true ∨
        ∀ s ∈ rs, env.cut s.1 = env.cut r.1 → ¬ Punctured env pointKeys s) := by
  constructor
  · intro htr
    obtain ⟨q, hq, hkey, hqr⟩ := hpushed.right htr
    exact hkey ▸ (h.right q hq).mp hqr
  · rintro ⟨⟨s, hs, hend⟩, hallow⟩
    obtain ⟨q, hq, hkey⟩ := (h.keys (env.cut r.1)).mpr ⟨s, hs, Or.inr hend⟩
    have hqr : q.right = true := (h.right q hq).mpr (hkey ▸ ⟨⟨s, hs, hend⟩, hallow⟩)
    rcases hpushed.kept q hq with hbelow | heq
    · exact absurd hkey (hpushed.below q hbelow).2.ne
    · exact heq.2 ▸ hqr

include h hbefore hpushed hfirst hmem in
theorem right_newest_iff {p : ParenKey K}
    (hp : p ∈ (ends.map endKey).reverse ++ first :: below) : p.right = true ↔
    ((∃ s ∈ rs, Ends env pointKeys s p.key) ∨ Ends env pointKeys r p.key) ∧
      (env.allowRangeBoundaryOverlapped = true ∨
        (∀ s ∈ rs, env.cut s.1 = p.key → ¬ Punctured env pointKeys s) ∧
          (env.cut r.1 = p.key → ¬ Punctured env pointKeys r)) := by
  rcases (mem_newest_iff hmem).mp hp with ⟨x, hend, rfl⟩ | rfl | hp
  · have hno : ∀ s ∈ rs, env.cut s.1 ≠ x := fun s hs =>
      ((hbefore s hs).1.trans_lt hend.lt).ne
    simp only [endKey, true_iff]
    exact ⟨Or.inr hend, Or.inr ⟨fun s hs heq => absurd heq (hno s hs),
      fun heq => absurd heq hend.lt.ne⟩⟩
  · have hself : ¬ Ends env pointKeys r (env.cut r.1) := fun hend => hend.lt.false
    rw [hfirst.right, right_top_iff h hpushed, hfirst.key, hpushed.key, or_iff_left hself,
      and_assoc]
    apply and_congr_right'
    rw [← or_and_left]
    simp only [forall_const]
  · obtain ⟨hpks, hlt⟩ := hpushed.below p hp
    have hself : ¬ Ends env pointKeys r p.key := fun hend => hend.lt.not_gt hlt
    rw [h.right p hpks, or_iff_left hself]
    simp [hlt.ne']

end Snoc

theorem Punctures.snoc {rs : List (K × K)} {ks : List (ParenKey K)}
    (hcut : Monotone env.cut) (h : Punctures env pointKeys rs ks) {r : K × K}
    (hrs : WeaklyOrdered (rs ++ [r])) {ends : List K} {base : List (ParenKey K)}
    (hends : ends.Pairwise (· < ·)) (hmem : ∀ x, x ∈ ends ↔ Ends env pointKeys r x)
    (hpunct : Punctured env pointKeys r →
      base = punctureStart env.allowRangeBoundaryOverlapped (pushStart ks (env.cut r.1)))
    (hkeep : ¬ Punctured env pointKeys r → base = pushStart ks (env.cut r.1)) :
    Punctures env pointKeys (rs ++ [r]) ((ends.map endKey).reverse ++ base) := by
  -- nothing stored for the earlier ranges lies behind the start
  have hbefore : ∀ s ∈ rs, env.cut s.1 ≤ env.cut r.1 ∧
      ∀ x, Ends env pointKeys s x → x ≤ env.cut r.1 := by
    intro s hs
    have hle : s.2 ≤ r.1 := (List.pairwise_append.mp hrs.disjoint).2.2 s hs r (by simp)
    have hself : s.1 ≤ s.2 := hrs.le s (by simp [hs])
    exact ⟨hcut (hself.trans hle), fun x hx => hx.le.trans (hcut hle)⟩
  have hstart : ∀ p ∈ ks, p.key ≤ env.cut r.1 := by
    intro p hp
    obtain ⟨s, hs, heq | hend⟩ := (h.keys p.key).mp ⟨p, hp, rfl⟩
    · exact heq ▸ (hbefore s hs).1
    · exact (hbefore s hs).2 _ hend
  obtain ⟨top, below, hpush, hpushed⟩ := exists_pushed h.descending hstart
  rw [hpush] at hpunct hkeep
  obtain ⟨first, rfl, hfirst⟩ := exists_newestStart hpushed.left hpunct hkeep
  have hnew : ∀ {P : K × K → Prop}, (∃ s ∈ rs ++ [r], P s) ↔ (∃ s ∈ rs, P s) ∨ P r := by
    intro P
    simp [or_and_right, exists_or]
  have hall : ∀ {P : K × K → Prop}, (∀ s ∈ rs ++ [r], P s) ↔ (∀ s ∈ rs, P s) ∧ P r := by
    intro P
    simp [or_imp, forall_and]
  refine ⟨descending_newest hpushed hfirst hmem hends, fun x => ?_, fun p hp hleft => ?_,
    fun p hp hs hnp => ?_, fun p hp => ?_⟩
  · rw [hnew, exists_key_newest_iff hmem, hfirst.key, hpushed.key, hpushed.exists_key_iff x,
      h.keys x]
    constructor
    · rintro (hend | heq | hold)
      · exact Or.inr (Or.inr hend)
      · exact Or.inr (Or.inl heq)
      · exact Or.inl hold
    · rintro (hold | heq | hend)
      · exact Or.inr (Or.inr hold)
      · exact Or.inr (Or.inl heq)
      · exact Or.inl hend
  · rw [hnew]
    exact left_of_newest h hpushed hfirst hmem hp hleft
  · obtain ⟨hnp, hnpr⟩ := hall.mp hnp
    exact left_newest h hbefore hpushed hfirst hmem hp (hnew.mp hs) hnp hnpr
  · rw [hnew, hall]
    exact right_newest_iff h hbefore hpushed hfirst hmem hp

theorem punctures_nil : Punctures env pointKeys [] [] :=
  ⟨List.Pairwise.nil, by simp, by simp, by simp, by simp⟩

theorem not_ends_of_eq {r : K × K} (heq : env.cut r.1 = env.cut r.2) (x : K) :
    ¬ Ends env pointKeys r x := fun h => h.1.ne heq

structure Scanned (env : SuRFEnv K) (pointKeys : List K) (rs : List (K × K))
    (s : PointScan K) : Prop where
  punctures : Punctures env pointKeys rs s.keys
  cursor : ∃ done, Cursor pointKeys done s.passed s.ahead ∧
    ∀ p ∈ done, ∀ x, (∀ r ∈ rs, r.2 ≤ x) → p < x

theorem Scanned.emitRangeWithPointKeys {rs : List (K × K)} {s : PointScan K} {r : K × K}
    (hcut : Monotone env.cut) (hpoints : pointKeys.Pairwise (· ≤ ·))
    (h : Scanned env pointKeys rs s) (hrs : WeaklyOrdered (rs ++ [r])) :
    Scanned env pointKeys (rs ++ [r]) (emitRangeWithPointKeys env s r) := by
  obtain ⟨done, hcursor, hdone⟩ := h.cursor
  have hr : r.1 ≤ r.2 := hrs.le r (by simp)
  have hbefore : ∀ s ∈ rs, s.2 ≤ r.1 := fun s hs =>
    (List.pairwise_append.mp hrs.disjoint).2.2 s hs r (by simp)
  obtain ⟨front, hfront, hlt, hhead⟩ := hcursor.bypassKeys fun p hp => hdone p hp r.1 hbefore
  rw [SuRF.emitRangeWithPointKeys]
  generalize bypassKeys r.1 s.passed s.ahead = cursor at hfront hhead
  have hahead : ∀ p ∈ cursor.2, r.1 ≤ p := by
    have hsorted : cursor.2.Pairwise (· ≤ ·) :=
      (List.pairwise_append.mp (hfront.points ▸ hpoints)).2.1
    intro p hp
    cases hlist : cursor.2 with
    | nil => exact absurd hp (by simp [hlist])
    | cons a as =>
      rw [hlist] at hp hsorted hhead
      have ha : r.1 ≤ a := hhead a rfl
      cases List.mem_cons.mp hp with
      | inl heq => exact heq ▸ ha
      | inr hp => exact ha.trans ((List.pairwise_cons.mp hsorted).1 p hp)
  by_cases heq : env.cut r.1 = env.cut r.2
  · rw [if_pos heq]
    refine ⟨?_, front, hfront, fun p hp x hx => ?_⟩
    · exact h.punctures.snoc hcut hrs List.Pairwise.nil (by simp [not_ends_of_eq heq])
        (fun hp => absurd heq hp.lt.ne) (fun _ => rfl)
    · exact (hlt p hp).trans_le (hr.trans (hx r (by simp)))
  · rw [if_neg heq]
    have hcutlt : env.cut r.1 < env.cut r.2 := lt_of_le_of_ne (hcut hr) heq
    obtain ⟨ends, base, hends, hmem, hpunct, hkeep, hkeys⟩ := exists_ends_splitRange hcut hpoints
      hfront hlt hahead hcutlt (pushStart s.keys (env.cut r.1)) s.splitCount
    refine ⟨?_, ?_⟩
    · change Punctures env pointKeys (rs ++ [r]) (endKey (env.cut r.2) :: _)
      rw [hkeys]
      exact h.punctures.snoc hcut hrs hends hmem hpunct hkeep
    · obtain ⟨done', hcursor', hdone'⟩ := hfront.splitRange
        (pushStart s.keys (env.cut r.1)) s.splitCount
      refine ⟨done', hcursor', fun p hp x hx => ?_⟩
      have hrx : r.2 ≤ x := hx r (by simp)
      cases hdone' p hp with
      | inl hp => exact (hlt p hp).trans_le (hr.trans hrx)
      | inr hstop => exact (hcut.reflect_lt hstop).trans_le hrx

theorem scanned_scanPointKeys {rs : List (K × K)} (hcut : Monotone env.cut)
    (hpoints : pointKeys.Pairwise (· ≤ ·)) (hrs : WeaklyOrdered rs) :
    Scanned env pointKeys rs (scanPointKeys env rs pointKeys) := by
  induction rs using List.reverseRecOn with
  | nil => exact ⟨punctures_nil, [], ⟨rfl, rfl⟩, by simp⟩
  | append_singleton rs r ih =>
    rw [scanPointKeys, List.foldl_append]
    exact (ih (hrs.sublist (List.sublist_append_left rs [r]))).emitRangeWithPointKeys
      hcut hpoints hrs

end Scan

end SuRF

end Spry
