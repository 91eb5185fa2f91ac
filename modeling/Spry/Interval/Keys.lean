import Spry.Interval.Clip

/-!
# Ascending key lists next to ordered range lists

Three passes that walk keys and ranges together: `retainKeys` keeps the keys inside the ranges,
`purgeKeys` the ones outside, and `collectKeys` selects from a list of candidates, without
repeating one. `unionKeys` merges two ascending key lists.
-/

namespace HalfOpen

variable {K : Type*} [LinearOrder K]

def retainKeys : List K → List (K × K) → List K
  | [], _ => []
  | k :: ks, rs =>
    match rs.dropWhile (fun r => r.1 ≤ k ∧ r.2 ≤ k) with
    | [] => []
    | r :: rs' => if k < r.1 then retainKeys ks (r :: rs') else k :: retainKeys ks (r :: rs')

def purgeKeys : List K → List (K × K) → List K
  | ks, [] => ks
  | ks, r :: rs =>
    ks.takeWhile (fun k => k < r.1) ++
      purgeKeys ((ks.dropWhile (fun k => k < r.1)).dropWhile (fun k => k < r.2)) rs

def unionKeys : List K → List K → List K
  | [], ks => ks
  | s :: ss, ks =>
    let hi := ks.dropWhile (fun k => k < s)
    ks.takeWhile (fun k => k < s) ++ s :: unionKeys ss (if hi.head? = some s then hi.tail else hi)

def collectKeys : List K → List (K × K) → Option K → List K
  | [], _, _ => []
  | c :: cs, rs, last =>
    match rs.dropWhile (fun r => r.2 ≤ c) with
    | [] => []
    | r :: rs' =>
      if c < r.1 then collectKeys cs (r :: rs') last
      else if last = some c then collectKeys cs (r :: rs') last
      else c :: collectKeys cs (r :: rs') (some c)

/-- On an ordered list whose ranges all end after `k`, the first range decides whether `k` is
covered. -/
theorem mem_coverage_iff_head {r : K × K} {rs : List (K × K)} (h : WeaklyOrdered (r :: rs))
    {k : K} (hk : k < r.2) : k ∈ coverage (r :: rs) ↔ r.1 ≤ k := by
  have hlt := (List.pairwise_cons.mp h.disjoint).1
  have hnot : k ∉ coverage rs := notMem_coverage_of_lt fun s hs => hk.trans_le (hlt s hs)
  simp [hnot, hk]

/-- A non-empty range that ends at or before `k` also starts before it. -/
theorem dropWhile_past_eq {rs : List (K × K)} (hne : ∀ r ∈ rs, r.1 < r.2) (k : K) :
    rs.dropWhile (fun r => r.1 ≤ k ∧ r.2 ≤ k) = rs.dropWhile (fun r => r.2 ≤ k) := by
  induction rs with
  | nil => rfl
  | cons r rs ih =>
    have hrs := ih fun s hs => hne s (by simp [hs])
    by_cases hr : r.2 ≤ k
    · have hr' : r.1 ≤ k := (hne r (by simp)).le.trans hr
      simpa [hr, hr'] using hrs
    · simp [hr]

theorem WeaklyOrdered.mem_coverage_rest {c : K} {cs : List K} {rs : List (K × K)}
    (hrs : WeaklyOrdered rs) (hc : ∀ k ∈ cs, c ≤ k) :
    ∀ k ∈ c :: cs, (k ∈ coverage (rs.dropWhile (fun r => r.2 ≤ c)) ↔ k ∈ coverage rs) := by
  intro k hk
  apply hrs.mem_coverage_dropWhile_end
  rcases List.mem_cons.mp hk with rfl | hk
  · exact le_rfl
  · exact hc k hk

theorem retainKeys_eq_filter {ks : List K} {rs : List (K × K)} (hks : ks.Pairwise (· ≤ ·))
    (hrs : Ordered rs) : retainKeys ks rs = ks.filter (fun k => k ∈ coverage rs) := by
  induction ks generalizing rs with
  | nil => rfl
  | cons k ks ih =>
    obtain ⟨hk, hks⟩ := List.pairwise_cons.mp hks
    have hrest : Ordered (rs.dropWhile (fun r => r.2 ≤ k)) :=
      hrs.sublist (List.dropWhile_sublist _)
    have hcov := hrs.weaklyOrdered.mem_coverage_rest hk
    have hfilter : (k :: ks).filter (fun k => k ∈ coverage rs) =
        (k :: ks).filter (fun k' => k' ∈ coverage (rs.dropWhile (fun r => r.2 ≤ k))) := by
      apply List.filter_congr
      intro k' hk'
      rw [decide_eq_decide, hcov k' hk']
    rw [hfilter, retainKeys, dropWhile_past_eq hrs.nonempty]
    cases hd : rs.dropWhile (fun r => r.2 ≤ k) with
    | nil => simp
    | cons r rs' =>
      rw [hd] at hrest
      have hkr : k < r.2 := (hrs.mem_dropWhile_end.mp (hd ▸ List.mem_cons_self)).2
      have hhead := mem_coverage_iff_head hrest.weaklyOrdered hkr
      by_cases hlt : k < r.1
      · have hnot : k ∉ coverage (r :: rs') := fun h => absurd hlt (not_lt.mpr (hhead.mp h))
        rw [List.filter_cons_of_neg (by simpa only [decide_eq_true_eq] using hnot)]
        simp only [if_pos hlt]
        exact ih hks hrest
      · have hmem : k ∈ coverage (r :: rs') := hhead.mpr (not_lt.mp hlt)
        rw [List.filter_cons_of_pos (by simpa only [decide_eq_true_eq] using hmem)]
        simp only [if_neg hlt]
        rw [ih hks hrest]

theorem scan_lt {l : List K} (b : K) (hl : l.Pairwise (· ≤ ·)) :
    l.Pairwise (fun x y => decide (y < b) → decide (x < b)) :=
  hl.imp fun hxy hy => by simpa using hxy.trans_lt (by simpa using hy)

theorem purgeKeys_eq_filter {ks : List K} {rs : List (K × K)} (hks : ks.Pairwise (· ≤ ·))
    (hrs : StartSorted rs) : purgeKeys ks rs = ks.filter (fun k => k ∉ coverage rs) := by
  induction rs generalizing ks with
  | nil => simp [purgeKeys]
  | cons r rs ih =>
    obtain ⟨hle, hrs⟩ := List.pairwise_cons.mp hrs
    let lo := ks.takeWhile (fun k => k < r.1)
    let hi := ks.dropWhile (fun k => k < r.1)
    have hhi : hi.Pairwise (· ≤ ·) := hks.sublist (List.dropWhile_sublist _)
    have hlo : ∀ k ∈ lo, k ∉ coverage (r :: rs) := by
      intro k hk
      have hkr : k < r.1 := by simpa using ((mem_takeWhile_iff (scan_lt r.1 hks)).mp hk).2
      refine notMem_coverage_of_lt fun s hs => ?_
      rcases List.mem_cons.mp hs with rfl | hs
      · exact hkr
      · exact hkr.trans_le (hle s hs)
    have hmid : ∀ k ∈ hi.takeWhile (fun k => k < r.2), k ∈ coverage (r :: rs) := by
      intro k hk
      obtain ⟨hkhi, hkr₂⟩ := (mem_takeWhile_iff (scan_lt r.2 hhi)).mp hk
      have hkr₁ := ((mem_dropWhile_iff (scan_lt r.1 hks)).mp hkhi).2
      rw [coverage_cons]
      exact Or.inl ⟨by simpa using hkr₁, by simpa using hkr₂⟩
    have htop : ∀ k ∈ hi.dropWhile (fun k => k < r.2),
        (k ∉ coverage (r :: rs) ↔ k ∉ coverage rs) := by
      intro k hk
      have hkr : ¬ k < r.2 := by simpa using ((mem_dropWhile_iff (scan_lt r.2 hhi)).mp hk).2
      simp [hkr]
    have hsplit : ks = lo ++ (hi.takeWhile (fun k => k < r.2) ++
        hi.dropWhile (fun k => k < r.2)) := by
      simp only [lo, hi, List.takeWhile_append_dropWhile]
    have hkeep : lo.filter (fun k => k ∉ coverage (r :: rs)) = lo :=
      List.filter_eq_self.mpr fun k hk => decide_eq_true (hlo k hk)
    have hskip : (hi.takeWhile (fun k => k < r.2)).filter (fun k => k ∉ coverage (r :: rs)) =
        [] := List.filter_eq_nil_iff.mpr fun k hk => by
      simpa only [decide_eq_true_eq, not_not] using hmid k hk
    have hlater : (hi.dropWhile (fun k => k < r.2)).filter (fun k => k ∉ coverage (r :: rs)) =
        (hi.dropWhile (fun k => k < r.2)).filter (fun k => k ∉ coverage rs) :=
      List.filter_congr fun k hk => by rw [decide_eq_decide, htop k hk]
    have htail := ih (hhi.sublist (List.dropWhile_sublist (fun k => decide (k < r.2)))) hrs
    conv_rhs => rw [hsplit, List.filter_append, List.filter_append, hkeep, hskip, hlater]
    rw [purgeKeys, List.nil_append]
    exact congrArg (lo ++ ·) htail

/-- The keys that remain for the rest of a union: the ones from `s` on, without one `s` at the
head. -/
theorem mem_unionKeys_rest (ks : List K) (s k : K) :
    (k ∈ ks.takeWhile (fun k => k < s) ∨ k = s ∨
      k ∈ (if (ks.dropWhile (fun k => k < s)).head? = some s
        then (ks.dropWhile (fun k => k < s)).tail else ks.dropWhile (fun k => k < s))) ↔
      k = s ∨ k ∈ ks := by
  have hsplit : k ∈ ks ↔ k ∈ ks.takeWhile (fun k => k < s) ∨ k ∈ ks.dropWhile (fun k => k < s) := by
    rw [← List.mem_append, List.takeWhile_append_dropWhile]
  rw [hsplit]
  cases hd : ks.dropWhile (fun k => k < s) with
  | nil => simp [or_comm]
  | cons a as =>
    by_cases ha : a = s
    · subst ha
      simp only [List.head?_cons, if_true, List.tail_cons, List.mem_cons]
      tauto
    · simp only [List.head?_cons, Option.some.injEq, ha, if_false]
      tauto

theorem mem_unionKeys {ss ks : List K} {k : K} : k ∈ unionKeys ss ks ↔ k ∈ ss ∨ k ∈ ks := by
  induction ss generalizing ks with
  | nil => simp [unionKeys]
  | cons s ss ih =>
    have hrest := mem_unionKeys_rest ks s k
    simp only [unionKeys, List.mem_append, List.mem_cons, ih]
    tauto

theorem sorted_unionKeys {ss ks : List K} (hss : ss.Pairwise (· ≤ ·))
    (hks : ks.Pairwise (· ≤ ·)) : (unionKeys ss ks).Pairwise (· ≤ ·) := by
  induction ss generalizing ks with
  | nil => exact hks
  | cons s ss ih =>
    obtain ⟨hs, hss⟩ := List.pairwise_cons.mp hss
    let hi := ks.dropWhile (fun k => k < s)
    let rest := if hi.head? = some s then hi.tail else hi
    have hsub : rest.Sublist hi := by
      simp only [rest]
      split_ifs
      · exact List.tail_sublist _
      · exact List.Sublist.refl _
    have hhi : hi.Sublist ks := List.dropWhile_sublist _
    have hlow : ∀ k ∈ ks.takeWhile (fun k => k < s), k < s := fun k hk => by
      simpa using List.mem_takeWhile_imp hk
    have hlater : ∀ k ∈ unionKeys ss rest, s ≤ k := by
      intro k hk
      rcases mem_unionKeys.mp hk with hk | hk
      · exact hs k hk
      · simpa using ((mem_dropWhile_iff (scan_lt s hks)).mp (hsub.subset hk)).2
    refine List.pairwise_append.mpr ⟨hks.sublist (List.takeWhile_sublist _),
      List.pairwise_cons.mpr ⟨hlater, ih hss (hks.sublist (hsub.trans hhi))⟩, ?_⟩
    intro a ha b hb
    rcases List.mem_cons.mp hb with rfl | hb
    · exact (hlow a ha).le
    · exact (hlow a ha).le.trans (hlater b hb)

/-- What is collected from the candidates: the covered ones without `last`, strictly ascending. -/
structure Collects (cs : List K) (rs : List (K × K)) (last : Option K) (out : List K) : Prop where
  sorted : out.Pairwise (· < ·)
  mem_iff : ∀ k, k ∈ out ↔ k ∈ cs ∧ k ∈ coverage rs ∧ last ≠ some k

namespace Collects

variable {c : K} {cs out : List K} {rs rest : List (K × K)} {last : Option K}

theorem skip (h : Collects cs rest last out)
    (hcov : ∀ k ∈ cs, (k ∈ coverage rest ↔ k ∈ coverage rs))
    (hc : c ∉ coverage rs ∨ last = some c) : Collects (c :: cs) rs last out := by
  refine ⟨h.sorted, fun k => (h.mem_iff k).trans ?_⟩
  constructor
  · rintro ⟨hk, hkc, hl⟩
    exact ⟨by simp [hk], (hcov k hk).mp hkc, hl⟩
  · rintro ⟨hk, hkc, hl⟩
    rcases List.mem_cons.mp hk with rfl | hk
    · exact absurd hl (by simpa [hkc] using hc)
    · exact ⟨hk, (hcov k hk).mpr hkc, hl⟩

theorem push (h : Collects cs rest (some c) out) (hle : ∀ k ∈ cs, c ≤ k)
    (hcov : ∀ k ∈ cs, (k ∈ coverage rest ↔ k ∈ coverage rs)) (hc : c ∈ coverage rs)
    (hlast : ∀ l ∈ last, l ≤ c) (hnew : last ≠ some c) : Collects (c :: cs) rs last (c :: out) := by
  refine ⟨List.pairwise_cons.mpr ⟨fun k hk => ?_, h.sorted⟩, fun k => ?_⟩
  · obtain ⟨hk, _, hne⟩ := (h.mem_iff k).mp hk
    exact lt_of_le_of_ne (hle k hk) fun heq => hne (congrArg some heq)
  rw [List.mem_cons, h.mem_iff k]
  constructor
  · rintro (rfl | ⟨hk, hkc, hne⟩)
    · exact ⟨by simp, hc, hnew⟩
    · refine ⟨by simp [hk], (hcov k hk).mp hkc, fun hl => hne ?_⟩
      -- an earlier pushed key is at most `c`, and `k` is at least `c`
      exact congrArg some (le_antisymm (hle k hk) (hlast k (by simp [hl])))
  · rintro ⟨hk, hkc, _⟩
    rcases List.mem_cons.mp hk with rfl | hk
    · exact Or.inl rfl
    · by_cases hkeq : k = c
      · exact Or.inl hkeq
      · exact Or.inr ⟨hk, (hcov k hk).mpr hkc, fun h => hkeq (by simpa using h.symm)⟩

end Collects

theorem collects_collectKeys {cs : List K} {rs : List (K × K)} {last : Option K}
    (hcs : cs.Pairwise (· ≤ ·)) (hrs : WeaklyOrdered rs) (hlast : ∀ l ∈ last, ∀ c ∈ cs, l ≤ c) :
    Collects cs rs last (collectKeys cs rs last) := by
  induction cs generalizing rs last with
  | nil => exact ⟨List.Pairwise.nil, by simp [collectKeys]⟩
  | cons c cs ih =>
    obtain ⟨hc, hcs⟩ := List.pairwise_cons.mp hcs
    have hrest : WeaklyOrdered (rs.dropWhile (fun r => r.2 ≤ c)) :=
      hrs.sublist (List.dropWhile_sublist _)
    have hcov := hrs.mem_coverage_rest hc
    have hlast' : ∀ l ∈ last, ∀ k ∈ cs, l ≤ k := fun l hl k hk => hlast l hl k (by simp [hk])
    rw [collectKeys]
    cases hd : rs.dropWhile (fun r => r.2 ≤ c) with
    | nil =>
      rw [hd] at hcov
      refine ⟨List.Pairwise.nil, fun k => iff_of_false (by simp) ?_⟩
      rintro ⟨hk, hkc, _⟩
      simpa using (hcov k hk).mpr hkc
    | cons r rs' =>
      rw [hd] at hrest hcov
      have hcr : c < r.2 := (hrs.mem_dropWhile_end.mp (hd ▸ List.mem_cons_self)).2
      have hcovc : c ∈ coverage rs ↔ r.1 ≤ c :=
        (hcov c (by simp)).symm.trans (mem_coverage_iff_head hrest hcr)
      have hcovcs : ∀ k ∈ cs, (k ∈ coverage (r :: rs') ↔ k ∈ coverage rs) :=
        fun k hk => hcov k (by simp [hk])
      simp only
      split_ifs with hlt hdup
      · exact (ih hcs hrest hlast').skip hcovcs
          (Or.inl fun h => absurd hlt (not_lt.mpr (hcovc.mp h)))
      · exact (ih hcs hrest hlast').skip hcovcs (Or.inr hdup)
      · have hlastc : ∀ l ∈ some c, ∀ k ∈ cs, l ≤ k := by
          intro l hl k hk
          rw [Option.mem_some] at hl
          exact hl ▸ hc k hk
        exact (ih hcs hrest hlastc).push hc hcovcs (hcovc.mpr (not_lt.mp hlt))
          (fun l hl => hlast l hl c (by simp)) hdup

end HalfOpen
