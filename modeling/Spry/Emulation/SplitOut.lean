import Spry.Emulation.Counters
import Spry.Emulation.Merge

/-!
# Splitting a sorted list of entries into files

The loop of `split_out_by_size_inByte` cuts the points and the ranges at two places such that no
point behind the cut lies in a range before it. A range that reaches over the last point of the
file is cut there, after points have been given back to make room for its piece. The file and
the rest have separate keys and answer together like the list.
-/

namespace Spry.Emulation

open ClosedRange

variable {env : EmuEnv}

/-- The invariant of the loop, for `size` bytes already in the file. -/
structure Fills (env : EmuEnv) (size : ℕ) (ps : List PointEntry) (rs : List (ℤ × ℤ)) (f : Fill) :
    Prop where
  points_eq : f.out.points ++ f.rest.points = ps
  ranges_eq : f.out.ranges ++ f.rest.ranges = rs
  size_eq : f.size = size + f.out.points.length * env.perKvSize +
    f.out.ranges.length * env.perRangeDeleteSize
  size_le : f.size ≤ env.fileSize
  range_before : ∀ r ∈ f.out.ranges, ∀ p ∈ f.rest.points, r.2 < p.sortKey
  point_before : ∀ p ∈ f.out.points, ∀ r ∈ f.rest.ranges, p.sortKey < r.2

namespace Fills

variable {size : ℕ} {p : PointEntry} {ps : List PointEntry} {r : ℤ × ℤ} {rs : List (ℤ × ℤ)}
  {f : Fill}

theorem stop (h : size ≤ env.fileSize) : Fills env size ps rs (Fill.stop size ps rs) :=
  ⟨rfl, rfl, by simp [Fill.stop, EntryList.clear], h, by simp [Fill.stop, EntryList.clear],
    by simp [Fill.stop, EntryList.clear]⟩

theorem pushPoint (h : Fills env (size + env.perKvSize) ps rs f)
    (hp : ∀ r ∈ f.rest.ranges, p.sortKey < r.2) : Fills env size (p :: ps) rs (f.pushPoint p) := by
  refine ⟨congrArg (p :: ·) h.points_eq, h.ranges_eq, ?_, h.size_le, h.range_before, ?_⟩
  · have := h.size_eq
    simp only [Fill.pushPoint, List.length_cons, Nat.add_mul, Nat.one_mul]
    omega
  · exact List.forall_mem_cons.mpr ⟨hp, h.point_before⟩

theorem pushRange (h : Fills env (size + env.perRangeDeleteSize) ps rs f)
    (hr : ∀ p ∈ ps, r.2 < p.sortKey) : Fills env size ps (r :: rs) (f.pushRange r) := by
  refine ⟨h.points_eq, congrArg (r :: ·) h.ranges_eq, ?_, h.size_le, ?_, h.point_before⟩
  · have := h.size_eq
    simp only [Fill.pushRange, List.length_cons, Nat.add_mul, Nat.one_mul]
    omega
  · refine List.forall_mem_cons.mpr ⟨fun p hp => hr p ?_, h.range_before⟩
    rw [← h.points_eq]
    exact List.mem_append_right _ hp

theorem mem_of_mem_rest (h : Fills env size ps rs f) (hr : r ∈ f.rest.ranges) : r ∈ rs := by
  rw [← h.ranges_eq]
  exact List.mem_append_right _ hr

end Fills

theorem fills_fillPoints {size : ℕ} (ps : List PointEntry) (h : size ≤ env.fileSize) :
    Fills env size ps [] (fillPoints env size ps) := by
  induction ps generalizing size with
  | nil => exact Fills.stop h
  | cons p ps ih =>
    rw [fillPoints]
    split_ifs with hfit
    · have hps := ih hfit.2
      refine hps.pushPoint fun r hr => ?_
      exact absurd (hps.mem_of_mem_rest hr) List.not_mem_nil
    · exact Fills.stop h

theorem fills_fillRange {r : ℤ × ℤ} {rs : List (ℤ × ℤ)} {next : ℕ → List PointEntry → Fill}
    (hrs : Ordered (r :: rs))
    (hnext : ∀ size ps, size ≤ env.fileSize → Ascending ps → Fills env size ps rs (next size ps))
    {size : ℕ} {ps : List PointEntry} (h : size ≤ env.fileSize) (hps : Ascending ps) :
    Fills env size ps (r :: rs) (fillRange env r rs next size ps) := by
  obtain ⟨_, hlt, hrs'⟩ := Ordered.cons_iff.mp hrs
  have hends : ∀ s ∈ rs, r.2 < s.2 := fun s hs => (hlt s hs).trans_le (hrs'.valid s hs)
  induction ps generalizing size with
  | nil =>
    rw [fillRange]
    split_ifs with hfit
    · exact (hnext _ _ hfit.2 hps).pushRange (by simp)
    · exact Fills.stop h
  | cons p ps ih =>
    obtain ⟨hp, hps'⟩ := List.pairwise_cons.mp hps
    rw [fillRange]
    split_ifs with h₁ h₂ h₃ h₄ h₅ h₆
    · have hrest := ih h₃ hps'
      refine hrest.pushPoint fun s hs => ?_
      rcases List.mem_cons.mp (hrest.mem_of_mem_rest hs) with rfl | hs
      · exact h₂
      · exact h₂.trans (hends s hs)
    · exact Fills.stop h
    · have hrest := hnext _ _ h₅ hps'
      refine Fills.pushPoint (hrest.pushRange fun q hq => ?_) fun s hs => ?_
      · rw [← h₄]
        exact hp q hq
      · rw [h₄]
        exact hends s (hrest.mem_of_mem_rest hs)
    · exact Fills.stop h
    · refine (hnext _ _ h₆ hps).pushRange (List.forall_mem_cons.mpr ⟨by omega, fun q hq => ?_⟩)
      have := hp q hq
      omega
    · exact Fills.stop h
    · exact Fills.stop h

theorem fills_fill {rs : List (ℤ × ℤ)} (hrs : Ordered rs) {size : ℕ} {ps : List PointEntry}
    (h : size ≤ env.fileSize) (hps : Ascending ps) :
    Fills env size ps rs (fill env rs size ps) := by
  induction rs generalizing size ps with
  | nil => exact fills_fillPoints ps h
  | cons r rs ih =>
    exact fills_fillRange hrs (fun _ _ h hps => ih (Ordered.cons_iff.mp hrs).2.2 h hps) h hps

theorem fill_progress {rs : List (ℤ × ℤ)} {ps : List PointEntry}
    (hsize : env.perKvSize + env.perRangeDeleteSize ≤ env.fileSize) (hpos : 0 < env.fileSize)
    (hne : ¬ (ps = [] ∧ rs = [])) : ¬ (fill env rs 0 ps).out.empty = true := by
  rw [EntryList.empty_iff]
  cases rs with
  | nil =>
    cases ps with
    | nil => exact absurd ⟨rfl, rfl⟩ hne
    | cons p ps =>
      have hfit : 0 < env.fileSize ∧ 0 + env.perKvSize ≤ env.fileSize := ⟨hpos, by omega⟩
      simp [fill, fillPoints, hfit.1, show env.perKvSize ≤ env.fileSize by omega,
        Fill.pushPoint]
  | cons r rs =>
    have hkv : 0 + env.perKvSize ≤ env.fileSize := by omega
    have hrd : 0 + env.perRangeDeleteSize ≤ env.fileSize := by omega
    have hboth : 0 + env.perKvSize + env.perRangeDeleteSize ≤ env.fileSize := by omega
    cases ps with
    | nil =>
      rw [fill, fillRange, if_pos ⟨hpos, hrd⟩]
      simp [Fill.pushRange]
    | cons p ps =>
      rw [fill, fillRange, if_neg (not_not.mpr hpos), if_pos hkv, if_pos hboth, if_pos hrd]
      split_ifs
      · simp [Fill.pushPoint]
      · simp [Fill.pushPoint]
      · simp [Fill.pushRange]

/-- The points given back all reach the start of the next range; `base` is what the file holds
besides its points. -/
theorem shrink_spec {start : ℤ} {p q : PointEntry} {before before' rest rest' : List PointEntry}
    {size base : ℕ} (hsize : size = base + (before.length + 1) * env.perKvSize)
    (h : shrink env start p before rest size = some (q, before', rest')) :
    (q :: before').reverse ++ rest' = (p :: before).reverse ++ rest ∧
      before'.length ≤ before.length ∧ (∀ x ∈ rest', x ∈ rest ∨ start ≤ x.sortKey) ∧
      (start ≤ q.sortKey → base + (before'.length + 1) * env.perKvSize +
        env.perRangeDeleteSize ≤ env.fileSize) := by
  induction before generalizing p rest size with
  | nil =>
    rw [shrink] at h
    split_ifs at h with hcond
    obtain ⟨rfl, rfl, rfl⟩ := by simpa using h
    refine ⟨rfl, le_rfl, fun x hx => Or.inl hx, fun hstart => ?_⟩
    have := not_and.mp hcond hstart
    simp only [List.length_nil] at hsize ⊢
    omega
  | cons b before ih =>
    rw [shrink] at h
    split_ifs at h with hcond
    · have hsize' : size - env.perKvSize = base + (before.length + 1) * env.perKvSize := by
        simp only [List.length_cons, Nat.add_mul, Nat.one_mul] at hsize ⊢
        omega
      obtain ⟨heq, hlen, hgiven, hfit⟩ := ih hsize' h
      refine ⟨by rw [heq]; simp, by simp only [List.length_cons]; omega, fun x hx => ?_, hfit⟩
      rcases hgiven x hx with hx | hx
      · rcases List.mem_cons.mp hx with rfl | hx
        · exact Or.inr hcond.1
        · exact Or.inl hx
      · exact Or.inr hx
    · obtain ⟨rfl, rfl, rfl⟩ := by simpa using h
      refine ⟨rfl, le_rfl, fun x hx => Or.inl hx, fun hstart => ?_⟩
      have := not_and.mp hcond hstart
      simp only [List.length_cons] at hsize ⊢
      omega

structure SplitsOut (env : EmuEnv) (l out rest : EntryList) : Prop where
  points_eq : out.points ++ rest.points = l.points
  coverage_eq : coverage l.ranges = coverage out.ranges ∪ coverage rest.ranges
  out_sorted : out.Sorted
  rest_sorted : rest.Sorted
  before : out.Before rest
  size_le : out.pointSizeInByte env + out.rangeSizeInByte env ≤ env.fileSize
  length_le : rest.points.length + rest.ranges.length + (if out.empty then 0 else 1) ≤
    l.points.length + l.ranges.length

/-- Points cut at one place and ranges that cover the same keys, with the four kinds of pairs in
order. -/
theorem splitsOut_of_parts {l out rest : EntryList} (hl : l.Sorted)
    (hpoints : out.points ++ rest.points = l.points)
    (hranges : coverage l.ranges = coverage out.ranges ∪ coverage rest.ranges)
    (hordered : Ordered (out.ranges ++ rest.ranges))
    (hrange : ∀ r ∈ out.ranges, ∀ p ∈ rest.points, r.2 < p.sortKey)
    (hpoint : ∀ p ∈ out.points, ∀ r ∈ rest.ranges, p.sortKey < r.1)
    (hsize : out.pointSizeInByte env + out.rangeSizeInByte env ≤ env.fileSize)
    (hlength : rest.points.length + rest.ranges.length + (if out.empty then 0 else 1) ≤
      l.points.length + l.ranges.length) : SplitsOut env l out rest := by
  obtain ⟨hro, hrr, hcross⟩ := Ordered.append_iff.mp hordered
  have hasc : Ascending (out.points ++ rest.points) := hpoints ▸ hl.points
  obtain ⟨hpo, hpr, hpcross⟩ := List.pairwise_append.mp hasc
  have hbefore : out.Before rest := by
    rintro a (⟨p, hp, rfl⟩ | ⟨r, hr, _, har⟩) b (⟨q, hq, rfl⟩ | ⟨s, hs, hsb, _⟩)
    · exact hpcross p hp q hq
    · exact (hpoint p hp s hs).trans_le hsb
    · exact har.trans_lt (hrange r hr q hq)
    · exact har.trans_lt ((hcross r hr s hs).trans_le hsb)
  exact ⟨hpoints, hranges, ⟨hpo, hro⟩, ⟨hpr, hrr⟩, hbefore, hsize, hlength⟩

theorem SplitsOut.support_eq {l out rest : EntryList} (h : SplitsOut env l out rest) :
    l.support = out.support ∪ rest.support := by
  rw [EntryList.support, ← h.points_eq, h.coverage_eq, EntryList.pointKeys_append]
  exact Set.union_union_union_comm _ _ _ _

/-- The last point kept is one of the points the loop took, and the ones before it are smaller. -/
theorem kept_points {q : PointEntry} {before' rest' taken left : List PointEntry}
    (hasc : Ascending (taken ++ left)) (hcut : (q :: before').reverse ++ rest' = taken ++ left)
    (hlen : before'.length + 1 ≤ taken.length) :
    q ∈ taken ∧ (∀ y ∈ (q :: before').reverse, y.sortKey ≤ q.sortKey) ∧
      ∀ x ∈ rest', q.sortKey < x.sortKey := by
  have hsub : (q :: before').reverse <+: taken := by
    have hwhole : (q :: before').reverse <+: taken ++ left := by
      rw [← hcut]
      exact List.prefix_append _ _
    exact List.prefix_of_prefix_length_le hwhole (List.prefix_append _ _) (by simpa using hlen)
  have hasc' : Ascending ((q :: before').reverse ++ rest') := hcut ▸ hasc
  obtain ⟨hleft, _, hcross⟩ := List.pairwise_append.mp hasc'
  refine ⟨hsub.subset (by simp), ?_, fun x hx => hcross q (by simp) x hx⟩
  intro y hy
  rw [List.reverse_cons, List.pairwise_append] at hleft
  rw [List.reverse_cons] at hy
  rcases List.mem_append.mp hy with hy | hy
  · exact (hleft.2.2 y hy q (by simp)).le
  · rw [List.mem_singleton.mp hy]

theorem splitsOut_whole {l : EntryList} {f : Fill} (hl : l.Sorted)
    (hf : Fills env 0 l.points l.ranges f) (h : f.out.points = [] ∨ f.rest.ranges = []) :
    SplitsOut env l f.out f.rest := by
  refine splitsOut_of_parts hl hf.points_eq ?_ ?_ hf.range_before ?_ ?_ ?_
  · rw [← hf.ranges_eq, coverage_append]
  · rw [hf.ranges_eq]
    exact hl.ranges
  · rcases h with h | h
    · simp [h]
    · simp [h]
  · have := hf.size_eq
    have := hf.size_le
    simp only [EntryList.pointSizeInByte, EntryList.rangeSizeInByte]
    omega
  · have hpoints := congrArg List.length hf.points_eq
    have hranges := congrArg List.length hf.ranges_eq
    rw [List.length_append] at hpoints hranges
    split_ifs with hempty
    · omega
    · have hne : f.out.points.length + f.out.ranges.length ≠ 0 := by
        intro h0
        apply hempty
        rw [EntryList.empty_iff, ← List.length_eq_zero_iff, ← List.length_eq_zero_iff]
        omega
      omega

section LastRange

variable {l : EntryList} {kept rest' : List PointEntry} {q : PointEntry} {r : ℤ × ℤ}
  {ranges rs : List (ℤ × ℤ)}

theorem length_le_of_kept (hpoints : kept ++ rest' = l.points)
    (hranges : ranges ++ r :: rs = l.ranges) (hne : kept ≠ []) (b : Prop) [Decidable b] :
    rest'.length + (rs.length + 1) + (if b then 0 else 1) ≤ l.points.length + l.ranges.length := by
  have hpos := List.length_pos_iff.mpr hne
  have hlengthp := congrArg List.length hpoints
  have hlengthr := congrArg List.length hranges
  simp only [List.length_append, List.length_cons] at hlengthp hlengthr
  split_ifs
  · omega
  · omega

/-- A range that starts in the file is cut behind its last point `q`. -/
theorem splitsOut_cut (hl : l.Sorted) (hpoints : kept ++ rest' = l.points)
    (hranges : ranges ++ r :: rs = l.ranges) (hne : kept ≠ [])
    (hle : ∀ y ∈ kept, y.sortKey ≤ q.sortKey) (hlater : ∀ x ∈ rest', q.sortKey < x.sortKey)
    (hrange : ∀ s ∈ ranges, ∀ x ∈ rest', s.2 < x.sortKey) (hqr : q.sortKey < r.2)
    (hstart : r.1 ≤ q.sortKey)
    (hsize : kept.length * env.perKvSize + (ranges.length + 1) * env.perRangeDeleteSize ≤
      env.fileSize) :
    SplitsOut env l ⟨kept, ranges ++ [(r.1, q.sortKey)]⟩ ⟨rest', (q.sortKey + 1, r.2) :: rs⟩ := by
  have hord : Ordered (ranges ++ r :: rs) := hranges ▸ hl.ranges
  obtain ⟨hord₁, hord₂, hcross⟩ := Ordered.append_iff.mp hord
  obtain ⟨_, hlt, hrs⟩ := Ordered.cons_iff.mp hord₂
  refine splitsOut_of_parts hl hpoints ?_ ?_ ?_ ?_ ?_ ?_
  · rw [← hranges, coverage_append, coverage_append, coverage_cons, coverage_cons, coverage_cons,
      coverage_nil, Set.union_empty, Set.union_assoc, ← Set.union_assoc (Set.Icc r.1 q.sortKey)]
    congr 2
    ext k
    simp only [Set.mem_Icc, Set.mem_union]
    omega
  · rw [List.append_assoc]
    refine Ordered.append_iff.mpr ⟨hord₁, ?_, ?_⟩
    · refine Ordered.cons_iff.mpr ⟨hstart, ?_, Ordered.cons_iff.mpr ⟨hqr, hlt, hrs⟩⟩
      refine List.forall_mem_cons.mpr ⟨Int.lt_succ q.sortKey, fun s hs => ?_⟩
      exact hqr.trans (hlt s hs)
    · intro a ha
      have har := hcross a ha r (by simp)
      refine List.forall_mem_cons.mpr ⟨har, List.forall_mem_cons.mpr ⟨?_, ?_⟩⟩
      · simp only
        omega
      · exact fun s hs => hcross a ha s (by simp [hs])
  · intro s hs
    rcases List.mem_append.mp hs with hs | hs
    · exact hrange s hs
    · rw [List.mem_singleton.mp hs]
      exact hlater
  · intro y hy
    have hyq := hle y hy
    refine List.forall_mem_cons.mpr ⟨by simp only; omega, fun s hs => ?_⟩
    have := hlt s hs
    omega
  · simpa [EntryList.pointSizeInByte, EntryList.rangeSizeInByte] using hsize
  · exact length_le_of_kept hpoints hranges hne _

theorem splitsOut_uncut (hl : l.Sorted) (hpoints : kept ++ rest' = l.points)
    (hranges : ranges ++ r :: rs = l.ranges) (hne : kept ≠ [])
    (hle : ∀ y ∈ kept, y.sortKey ≤ q.sortKey)
    (hrange : ∀ s ∈ ranges, ∀ x ∈ rest', s.2 < x.sortKey) (hstart : ¬ r.1 ≤ q.sortKey)
    (hsize : kept.length * env.perKvSize + ranges.length * env.perRangeDeleteSize ≤ env.fileSize) :
    SplitsOut env l ⟨kept, ranges⟩ ⟨rest', r :: rs⟩ := by
  have hord : Ordered (ranges ++ r :: rs) := hranges ▸ hl.ranges
  obtain ⟨_, hlt, _⟩ := Ordered.cons_iff.mp (Ordered.append_iff.mp hord).2.1
  refine splitsOut_of_parts hl hpoints ?_ hord hrange ?_ hsize ?_
  · rw [← hranges, coverage_append]
  · intro y hy
    have hyq := hle y hy
    refine List.forall_mem_cons.mpr ⟨by omega, fun s hs => ?_⟩
    have := hlt s hs
    omega
  · exact length_le_of_kept hpoints hranges hne _

end LastRange

theorem splitLast_spec {l out rest : EntryList} {f : Fill} (hl : l.Sorted)
    (hf : Fills env 0 l.points l.ranges f) (h : f.splitLast env = some (out, rest)) :
    SplitsOut env l out rest := by
  rw [Fill.splitLast] at h
  cases hp : f.out.points.reverse with
  | nil =>
    simp only [hp, Option.some.injEq, Prod.mk.injEq] at h
    obtain ⟨rfl, rfl⟩ := h
    exact splitsOut_whole hl hf (Or.inl (List.reverse_eq_nil_iff.mp hp))
  | cons p before =>
    cases hr : f.rest.ranges with
    | nil =>
      simp only [hp, hr, Option.some.injEq, Prod.mk.injEq] at h
      obtain ⟨rfl, rfl⟩ := h
      exact splitsOut_whole hl hf (Or.inr hr)
    | cons r rs =>
      simp only [hp, hr] at h
      obtain ⟨⟨q, before', rest'⟩, hshrink, heq⟩ := Option.map_eq_some_iff.mp h
      have htaken : f.out.points = (p :: before).reverse := by rw [← hp, List.reverse_reverse]
      have hlentaken : f.out.points.length = before.length + 1 := by simp [htaken]
      have hsize : f.size = f.out.ranges.length * env.perRangeDeleteSize +
          (before.length + 1) * env.perKvSize := by
        have := hf.size_eq
        rw [hlentaken] at this
        omega
      obtain ⟨hcut, hlen, hgiven, hfit⟩ := shrink_spec hsize hshrink
      rw [← htaken] at hcut
      have hasc : Ascending (f.out.points ++ f.rest.points) := hf.points_eq ▸ hl.points
      obtain ⟨hq, hle, hlater⟩ := kept_points hasc hcut (by omega)
      have hranges : f.out.ranges ++ r :: rs = l.ranges := hr ▸ hf.ranges_eq
      have hord : Ordered (f.out.ranges ++ r :: rs) := hranges ▸ hl.ranges
      have hqr : q.sortKey < r.2 := hf.point_before q hq r (by simp [hr])
      have hpoints : (q :: before').reverse ++ rest' = l.points := hcut.trans hf.points_eq
      -- a range of the file ends before every point that is left or was given back
      have hrange : ∀ s ∈ f.out.ranges, ∀ x ∈ rest', s.2 < x.sortKey := by
        intro s hs x hx
        rcases hgiven x hx with hx | hx
        · exact hf.range_before s hs x hx
        · exact ((Ordered.append_iff.mp hord).2.2 s hs r (by simp)).trans_le hx
      by_cases hstart : r.1 ≤ q.sortKey
      · rw [if_pos hstart, Prod.mk.injEq] at heq
        obtain ⟨rfl, rfl⟩ := heq
        refine splitsOut_cut hl hpoints hranges (by simp) hle hlater hrange hqr hstart ?_
        have := hfit hstart
        simp only [List.length_reverse, List.length_cons, Nat.add_mul] at this ⊢
        omega
      · rw [if_neg hstart, Prod.mk.injEq] at heq
        obtain ⟨rfl, rfl⟩ := heq
        refine splitsOut_uncut hl hpoints hranges (by simp) hle hrange hstart ?_
        have := hf.size_le
        have hmono := Nat.mul_le_mul_right env.perKvSize (Nat.add_le_add_right hlen 1)
        simp only [List.length_reverse, List.length_cons]
        omega

theorem splitOut_spec {l out rest : EntryList} (hl : l.Sorted)
    (h : l.splitOutBySizeInByte env = some (out, rest)) : SplitsOut env l out rest := by
  rw [EntryList.splitOutBySizeInByte, Option.ite_none_right_eq_some] at h
  exact splitLast_spec hl (fills_fill hl.ranges (Nat.zero_le _) hl.points) h.2

theorem splitOut_length {l out rest : EntryList} (hl : l.Sorted)
    (h : l.splitOutBySizeInByte env = some (out, rest)) :
    out.ranges.length + rest.ranges.length =
      l.ranges.length + (fill env l.ranges 0 l.points).boundarySplits env := by
  rw [EntryList.splitOutBySizeInByte, Option.ite_none_right_eq_some] at h
  have hfills : Fills env 0 l.points l.ranges (fill env l.ranges 0 l.points) :=
    fills_fill hl.ranges (Nat.zero_le _) hl.points
  have hlength := congrArg List.length hfills.ranges_eq
  rw [List.length_append] at hlength
  rw [length_splitLast h.2, hlength]

end Spry.Emulation
