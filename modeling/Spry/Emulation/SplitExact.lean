import Spry.Emulation.Level

/-!
# When a file can be split off

The loop that gives points back to make room for a piece of the next range may give back the only
point of the file. Whether it does is decided by the entries at the front of the list: the first
point lies in a range, and the ranges before this one leave room for the point but not for a
piece of the range as well.
-/

namespace Spry.Emulation

open ClosedRange

variable {env : EmuEnv}

namespace EntryList

/-- The loop gives back the only point of the file, and reads index `-1`. -/
def PopsOnlyPoint (env : EmuEnv) (l : EntryList) : Prop :=
  (fill env l.ranges 0 l.points).splitLast env = none

/-- The first point lies in a range, and next to the point and the ranges before this one there
is no room for a piece of it. -/
def Crowded (env : EmuEnv) (l : EntryList) : Prop :=
  ∃ p ps before r after, l.points = p :: ps ∧ l.ranges = before ++ r :: after ∧
    r.1 ≤ p.sortKey ∧ p.sortKey < r.2 ∧
    before.length * env.perRangeDeleteSize < env.fileSize ∧
    before.length * env.perRangeDeleteSize + env.perKvSize ≤ env.fileSize ∧
    env.fileSize < (before.length + 1) * env.perRangeDeleteSize + env.perKvSize

/-- The list starts with the point `p`, and the first file has room for it behind the ranges that
enter before it. -/
def FirstPointEnters (env : EmuEnv) (l : EntryList) (p : PointEntry) : Prop :=
  l.points.head? = some p ∧
    (l.ranges.filter fun r => r.2 ≤ p.sortKey).length * env.perRangeDeleteSize + env.perKvSize ≤
      env.fileSize

/-- The lists that repeated calls of `split_out_by_size_inByte` leave. -/
inductive Remains (env : EmuEnv) (l : EntryList) : EntryList → Prop
  | refl : Remains env l l
  | split {m out rest : EntryList} :
      Remains env l m → m.splitOutBySizeInByte env = some (out, rest) → Remains env l rest

end EntryList

/-- All points are given back if all of them reach the range and not even one leaves room for a
piece of it. -/
theorem shrink_eq_none_iff {start : ℤ} {p : PointEntry} {before rest : List PointEntry}
    {size base : ℕ} (hsize : size = base + (before.length + 1) * env.perKvSize) :
    shrink env start p before rest size = none ↔
      (∀ x ∈ p :: before, start ≤ x.sortKey) ∧
        env.fileSize < base + env.perKvSize + env.perRangeDeleteSize := by
  induction before generalizing p rest size with
  | nil =>
    simp only [List.length_nil, Nat.zero_add, Nat.one_mul] at hsize
    simp [shrink, hsize]
  | cons b before ih =>
    have hsize' : size - env.perKvSize = base + (before.length + 1) * env.perKvSize := by
      simp only [List.length_cons, Nat.add_mul, Nat.one_mul] at hsize ⊢
      omega
    rw [shrink]
    split_ifs with hcond
    · rw [ih hsize', List.forall_mem_cons (a := p), and_iff_right hcond.1]
    · refine iff_of_false (by simp) ?_
      rintro ⟨hreach, hfull⟩
      refine hcond ⟨hreach p (by simp), ?_⟩
      simp only [List.length_cons, Nat.add_mul, Nat.one_mul] at hsize
      omega

/-- The loop gives back the only point if all points of the file reach the next range, and the
whole ranges of the file leave no room for a point and a piece of it. -/
theorem splitLast_eq_none_iff {ps : List PointEntry} {rs : List (ℤ × ℤ)} {f : Fill}
    (hf : Fills env 0 ps rs f) :
    f.splitLast env = none ↔ f.out.points ≠ [] ∧ ∃ r after, f.rest.ranges = r :: after ∧
      (∀ p ∈ f.out.points, r.1 ≤ p.sortKey) ∧
      env.fileSize < (f.out.ranges.length + 1) * env.perRangeDeleteSize + env.perKvSize := by
  rw [Fill.splitLast]
  cases hp : f.out.points.reverse with
  | nil => simp [List.reverse_eq_nil_iff.mp hp]
  | cons p before =>
    have htaken : f.out.points = (p :: before).reverse := by rw [← hp, List.reverse_reverse]
    cases hr : f.rest.ranges with
    | nil => simp
    | cons r after =>
      have hsize : f.size = f.out.ranges.length * env.perRangeDeleteSize +
          (before.length + 1) * env.perKvSize := by
        have := hf.size_eq
        rw [show f.out.points.length = before.length + 1 by simp [htaken]] at this
        omega
      simp only [Option.map_eq_none_iff, shrink_eq_none_iff hsize, htaken, List.mem_reverse,
        Nat.add_mul, Nat.one_mul]
      constructor
      · rintro ⟨hreach, hfull⟩
        exact ⟨by simp, r, after, rfl, hreach, by omega⟩
      · rintro ⟨_, _, _, ⟨⟩, hreach, hfull⟩
        exact ⟨hreach, by omega⟩

section Front

variable {r : ℤ × ℤ} {after : List (ℤ × ℤ)}

theorem fillRange_full {next : ℕ → List PointEntry → Fill} {size : ℕ} (ps : List PointEntry)
    (hfull : env.fileSize < size + env.perRangeDeleteSize) :
    (fillRange env r after next size ps).out.ranges = [] ∧
      (fillRange env r after next size ps).rest.ranges = r :: after := by
  induction ps generalizing size with
  | nil =>
    rw [fillRange, if_neg (by omega)]
    exact ⟨rfl, rfl⟩
  | cons q qs ih =>
    rw [fillRange]
    split_ifs with h₁ h₂ h₃ h₄ h₅ h₆
    · exact ih (by omega)
    · exact ⟨rfl, rfl⟩
    · omega
    · exact ⟨rfl, rfl⟩
    · omega
    · exact ⟨rfl, rfl⟩
    · exact ⟨rfl, rfl⟩

/-- The ranges before the first point enter the file, then the point, and not the range that has no
room next to it. -/
theorem fill_crowded (after : List (ℤ × ℤ)) {before : List (ℤ × ℤ)} {p : PointEntry}
    (ps : List PointEntry) {size : ℕ} (hbefore : ∀ b ∈ before, b.2 < p.sortKey)
    (hr : p.sortKey < r.2)
    (hroom : size + before.length * env.perRangeDeleteSize < env.fileSize)
    (hpoint : size + before.length * env.perRangeDeleteSize + env.perKvSize ≤ env.fileSize)
    (hfull : env.fileSize <
      size + (before.length + 1) * env.perRangeDeleteSize + env.perKvSize) :
    (fill env (before ++ r :: after) size (p :: ps)).out.ranges = before ∧
      (fill env (before ++ r :: after) size (p :: ps)).rest.ranges = r :: after ∧
      (fill env (before ++ r :: after) size (p :: ps)).out.points ≠ [] := by
  induction before generalizing size with
  | nil =>
    simp only [List.length_nil, Nat.zero_add, Nat.zero_mul, Nat.add_zero, Nat.one_mul] at *
    have hstays : (fillRange env r after (fill env after) (size + env.perKvSize) ps).out.ranges =
        [] ∧ (fillRange env r after (fill env after) (size + env.perKvSize) ps).rest.ranges =
          r :: after := fillRange_full ps (by omega)
    rw [List.nil_append, fill, fillRange, if_neg (not_not.mpr hroom), if_pos hr, if_pos hpoint]
    exact ⟨hstays.1, hstays.2, by simp [Fill.pushPoint]⟩
  | cons b before ih =>
    obtain ⟨hb, hbefore⟩ := List.forall_mem_cons.mp hbefore
    simp only [List.length_cons, Nat.add_mul, Nat.one_mul] at hroom hpoint hfull ih
    have hroom' : size + env.perRangeDeleteSize + before.length * env.perRangeDeleteSize <
        env.fileSize := by omega
    obtain ⟨hout, hrest, hpoints⟩ := ih hbefore hroom' (by omega) (by omega)
    rw [List.cons_append, fill, fillRange, if_neg (by omega), if_neg (by omega),
      if_neg (by omega), if_pos (by omega)]
    exact ⟨congrArg (b :: ·) hout, hrest, hpoints⟩

/-- When the first point enters the file before a range that starts at or before it, the ranges
of the file are all there and have left room. -/
theorem fill_room {rs : List (ℤ × ℤ)} (hrs : Ordered rs) {p : PointEntry} {ps : List PointEntry}
    (hps : Ascending (p :: ps)) {size : ℕ} (hsize : size ≤ env.fileSize)
    (hpoints : (fill env rs size (p :: ps)).out.points ≠ [])
    (hr : r ∈ (fill env rs size (p :: ps)).rest.ranges) (hstart : r.1 ≤ p.sortKey) :
    size + (fill env rs size (p :: ps)).out.ranges.length * env.perRangeDeleteSize <
      env.fileSize := by
  induction rs generalizing size with
  | nil => exact absurd ((fills_fill hrs hsize hps).mem_of_mem_rest hr) List.not_mem_nil
  | cons b rs ih =>
    obtain ⟨_, hlt, hrs'⟩ := Ordered.cons_iff.mp hrs
    obtain ⟨hp, hps'⟩ := List.pairwise_cons.mp hps
    have hnext : ∀ size qs, size ≤ env.fileSize → Ascending qs →
        Fills env size qs rs (fill env rs size qs) := fun _ _ => fills_fill hrs'
    rw [fill, fillRange] at hpoints hr ⊢
    split_ifs at hpoints hr ⊢ with h₁ h₂ h₃ h₄ h₅ h₆
    · -- a range pushed behind the point would be `b`, which ends behind it
      have hfills := fills_fillRange hrs hnext h₃ hps'
      have hranges := hfills.ranges_eq
      cases hout : (fillRange env b rs (fill env rs) (size + env.perKvSize) ps).out.ranges with
      | nil => simpa [Fill.pushPoint, hout] using h₁
      | cons c cs =>
        rw [hout, List.cons_append, List.cons.injEq] at hranges
        have hrb := hlt r (hranges.2 ▸ List.mem_append_right cs hr)
        omega
    · exact absurd rfl hpoints
    · have hrb := hlt r ((hnext _ _ h₅ hps').mem_of_mem_rest hr)
      omega
    · exact absurd rfl hpoints
    · have hrest := ih hrs' h₆ hpoints hr
      simp only [Fill.pushRange, List.length_cons, Nat.add_mul, Nat.one_mul] at hrest ⊢
      omega
    · exact absurd rfl hpoints
    · exact absurd rfl hpoints

/-- The first point enters the file exactly if there is room for it behind the ranges that end at
or before it. -/
theorem fill_points_ne_nil_iff (hkv : 0 < env.perKvSize) {rs : List (ℤ × ℤ)} (hrs : Ordered rs)
    {p : PointEntry} {ps : List PointEntry} {size : ℕ} :
    (fill env rs size (p :: ps)).out.points ≠ [] ↔
      size + (rs.filter fun r => r.2 ≤ p.sortKey).length * env.perRangeDeleteSize +
        env.perKvSize ≤ env.fileSize := by
  induction rs generalizing size with
  | nil =>
    rw [fill, fillPoints]
    split_ifs with hroom
    · simpa [Fill.pushPoint] using hroom.2
    · simp only [Fill.stop, EntryList.clear, ne_eq, not_true_eq_false, false_iff,
        List.filter_nil, List.length_nil, Nat.zero_mul, Nat.add_zero]
      omega
  | cons r rs ih =>
    obtain ⟨_, hlt, hrs'⟩ := Ordered.cons_iff.mp hrs
    -- no later range ends at or before a point that `r` reaches
    have hlater : p.sortKey ≤ r.2 → (rs.filter fun s => s.2 ≤ p.sortKey) = [] := by
      intro hreach
      refine List.filter_eq_nil_iff.mpr fun s hs => ?_
      have h₁ := hlt s hs
      have h₂ := hrs'.valid s hs
      simp only [decide_eq_true_eq]
      omega
    have hstop : ∀ ps, (Fill.stop size ps (r :: rs)).out.points = [] := fun _ => rfl
    rw [fill, fillRange]
    split_ifs with h₁ h₂ h₃ h₄ h₅ h₆
    · rw [List.filter_cons_of_neg (by simpa using h₂), hlater h₂.le]
      simpa [Fill.pushPoint] using h₃
    · rw [List.filter_cons_of_neg (by simpa using h₂), hlater h₂.le, hstop]
      simpa using h₃
    · rw [List.filter_cons_of_pos (by simp [h₄]), hlater h₄.le]
      simp only [Fill.pushPoint, ne_eq, List.cons_ne_nil, not_false_eq_true, true_iff,
        List.length_cons, List.length_nil, Nat.zero_add, Nat.one_mul]
      omega
    · rw [List.filter_cons_of_pos (by simp [h₄]), hlater h₄.le, hstop]
      simp only [ne_eq, not_true_eq_false, false_iff, List.length_cons, List.length_nil,
        Nat.zero_add, Nat.one_mul]
      omega
    · have hend : r.2 ≤ p.sortKey := by omega
      rw [List.filter_cons_of_pos (by simpa using hend), List.length_cons, Nat.add_one_mul]
      change (fill env rs (size + env.perRangeDeleteSize) (p :: ps)).out.points ≠ [] ↔ _
      rw [ih hrs']
      omega
    · have hend : r.2 ≤ p.sortKey := by omega
      rw [List.filter_cons_of_pos (by simpa using hend), List.length_cons, Nat.add_one_mul, hstop]
      simp only [ne_eq, not_true_eq_false, false_iff]
      omega
    · rw [hstop]
      simp only [ne_eq, not_true_eq_false, false_iff]
      omega

theorem splitLast_points_ne_nil_iff {f : Fill} {out rest : EntryList}
    (h : f.splitLast env = some (out, rest)) : out.points ≠ [] ↔ f.out.points ≠ [] := by
  rw [Fill.splitLast] at h
  cases hp : f.out.points.reverse with
  | nil =>
    simp only [hp, Option.some.injEq, Prod.mk.injEq] at h
    rw [h.1]
  | cons p before =>
    have hpoints : f.out.points ≠ [] := fun hnil => by simp [hnil] at hp
    cases hr : f.rest.ranges with
    | nil =>
      simp only [hp, hr, Option.some.injEq, Prod.mk.injEq] at h
      rw [h.1]
    | cons r after =>
      simp only [hp, hr] at h
      obtain ⟨⟨q, before', rest'⟩, _, heq⟩ := Option.map_eq_some_iff.mp h
      refine iff_of_true ?_ hpoints
      split_ifs at heq
      · rw [← (Prod.mk.inj heq).1]
        simp
      · rw [← (Prod.mk.inj heq).1]
        simp

end Front

namespace EntryList

variable {l : EntryList}

theorem splitOut_head_iff (hl : l.Sorted) (hkv : 0 < env.perKvSize) {out rest : EntryList}
    (h : l.splitOutBySizeInByte env = some (out, rest)) {p : PointEntry} :
    out.points.head? = some p ↔ l.FirstPointEnters env p := by
  have hpoints := (splitOut_spec hl h).points_eq
  have hlast := splitLast_points_ne_nil_iff (Option.ite_none_right_eq_some.mp h).2
  have henters : ∀ ps, l.points = p :: ps → (out.points ≠ [] ↔
      (l.ranges.filter fun r => r.2 ≤ p.sortKey).length * env.perRangeDeleteSize +
        env.perKvSize ≤ env.fileSize) := fun ps hl' => by
    rw [hlast, hl', fill_points_ne_nil_iff hkv hl.ranges, Nat.zero_add]
  rw [FirstPointEnters, ← hpoints]
  cases hout : out.points with
  | nil =>
    refine iff_of_false (by simp) ?_
    rw [hout, List.nil_append] at hpoints
    rintro ⟨hhead, hroom⟩
    obtain ⟨ps, hps⟩ := List.head?_eq_some_iff.mp hhead
    exact (henters ps (hpoints.symm.trans hps)).mpr hroom hout
  | cons q qs =>
    simp only [List.cons_append, List.head?_cons, Option.some.injEq]
    refine (and_iff_left_of_imp ?_).symm
    rintro rfl
    exact (henters _ (by rw [← hpoints, hout, List.cons_append])).mp (by simp [hout])

theorem popsOnlyPoint_iff (hl : l.Sorted) : l.PopsOnlyPoint env ↔ l.Crowded env := by
  have hfills : Fills env 0 l.points l.ranges (fill env l.ranges 0 l.points) :=
    fills_fill hl.ranges (Nat.zero_le _) hl.points
  rw [PopsOnlyPoint, splitLast_eq_none_iff hfills]
  constructor
  · rintro ⟨hpoints, r, after, hr, hreach, hfull⟩
    obtain ⟨p, taken, htaken⟩ := List.exists_cons_of_ne_nil hpoints
    have hlist : l.points = p :: (taken ++ (fill env l.ranges 0 l.points).rest.points) := by
      rw [← List.cons_append, ← htaken, hfills.points_eq]
    have hp : p ∈ (fill env l.ranges 0 l.points).out.points := by simp [htaken]
    have hstart := hreach p hp
    refine ⟨p, _, _, r, after, hlist, by rw [← hr, hfills.ranges_eq], hstart,
      hfills.point_before p hp r (by simp [hr]), ?_, ?_, hfull⟩
    · have hroom := fill_room hl.ranges (hlist ▸ hl.points) (Nat.zero_le env.fileSize)
        (by rwa [← hlist]) (by rw [← hlist, hr]; exact List.mem_cons_self) hstart
      rwa [← hlist, Nat.zero_add] at hroom
    · have hsize := hfills.size_eq
      have hle := hfills.size_le
      rw [htaken, List.length_cons, Nat.add_mul, Nat.one_mul] at hsize
      omega
  · rintro ⟨p, ps, before, r, after, hpoints, hranges, hstart, hstop, hroom, hpoint, hfull⟩
    have hord : Ordered (before ++ r :: after) := hranges ▸ hl.ranges
    have hasc : Ascending (p :: ps) := hpoints ▸ hl.points
    have hbefore : ∀ b ∈ before, b.2 < p.sortKey := fun b hb =>
      ((Ordered.append_iff.mp hord).2.2 b hb r (by simp)).trans_le hstart
    rw [← Nat.zero_add (before.length * env.perRangeDeleteSize)] at hroom hpoint
    obtain ⟨hout, hrest, hne⟩ := fill_crowded after ps hbefore hstop hroom hpoint
      (by rwa [Nat.zero_add])
    rw [← hranges, ← hpoints] at hout hrest hne
    refine ⟨hne, r, after, hrest, fun x hx => ?_, by rwa [hout]⟩
    have hmem : x ∈ p :: ps := by
      rw [← hpoints, ← hfills.points_eq]
      exact List.mem_append_left _ hx
    rcases List.mem_cons.mp hmem with rfl | hmem
    · exact hstart
    · exact hstart.trans ((List.pairwise_cons.mp hasc).1 x hmem).le

theorem splitOut_eq_splitLast (hl : l.Sorted)
    (hsize : env.perKvSize + env.perRangeDeleteSize ≤ env.fileSize) :
    l.splitOutBySizeInByte env = (fill env l.ranges 0 l.points).splitLast env :=
  if_pos ⟨(hl.points.imp fun hab => hab.le).isChain, hl.ranges.startSorted.isChain,
    hl.ranges.disjoint.isChain, hsize⟩

/-- A sorted list can be split, without a read at index `-1`, exactly if its front is not
crowded. -/
theorem splitOut_returns_iff (hl : l.Sorted)
    (hsize : env.perKvSize + env.perRangeDeleteSize ≤ env.fileSize) :
    (¬ l.PopsOnlyPoint env ∧ ∃ out rest, l.splitOutBySizeInByte env = some (out, rest)) ↔
      ¬ l.Crowded env := by
  rw [← popsOnlyPoint_iff hl, splitOut_eq_splitLast hl hsize]
  refine and_iff_left_of_imp fun hpops => ?_
  obtain ⟨⟨out, rest⟩, h⟩ := Option.ne_none_iff_exists'.mp hpops
  exact ⟨out, rest, h⟩

theorem splitOut_eq_none_iff (hl : l.Sorted)
    (hsize : env.perKvSize + env.perRangeDeleteSize ≤ env.fileSize) :
    l.splitOutBySizeInByte env = none ↔ l.Crowded env := by
  rw [← popsOnlyPoint_iff hl, splitOut_eq_splitLast hl hsize, PopsOnlyPoint]

def narrowEnv : EmuEnv where
  bufferSizeInPages := 2
  pointentriesPerPage := 1
  perKvSize := 16
  perRangeDeleteSize := 8
  deleteTileSizeInPages := 1
  deleteTileSize := 16
  pageSize := 16
  fileSize := 32
  letheNew := 0
  variableDeleteTileSizeInPages := []
  levelMaxFileCount := fun i => 2 ^ i
  saturated := fun size => 32 ≤ size

/-- A point at the end of its range shares the file with the range. -/
theorem splitOut_returns_iff_sample :
    ∃ out rest, splitOutBySizeInByte narrowEnv ⟨[⟨10, []⟩], [(0, 1), (3, 10)]⟩ =
      some (out, rest) := by
  have hl : Sorted ⟨[⟨10, []⟩], [(0, 1), (3, 10)]⟩ := ⟨by decide, by decide, by decide⟩
  have hsize : narrowEnv.perKvSize + narrowEnv.perRangeDeleteSize ≤ narrowEnv.fileSize := by decide
  refine ((splitOut_returns_iff hl hsize).mpr ?_).2
  rintro ⟨p, ps, before, r, after, hpoints, hranges, -, hstop, -⟩
  have hr : r ∈ before ++ r :: after := by simp
  rw [← hranges] at hr
  obtain ⟨rfl, _⟩ : ⟨10, []⟩ = p ∧ [] = ps := by simpa using hpoints
  rcases List.mem_pair.mp hr with rfl | rfl
  · exact absurd hstop (by decide)
  · exact absurd hstop (by decide)

/-- Two ranges and the point fill the file, and the point is given back for a piece of the third
range. -/
theorem splitOut_pops_only_point :
    Sorted ⟨[⟨10, []⟩], [(0, 1), (3, 4), (6, 20)]⟩ ∧
      narrowEnv.perKvSize + narrowEnv.perRangeDeleteSize ≤ narrowEnv.fileSize ∧
      PopsOnlyPoint narrowEnv ⟨[⟨10, []⟩], [(0, 1), (3, 4), (6, 20)]⟩ ∧
      splitOutBySizeInByte narrowEnv ⟨[⟨10, []⟩], [(0, 1), (3, 4), (6, 20)]⟩ = none :=
  ⟨⟨by decide, by decide, by decide⟩, by decide, by unfold PopsOnlyPoint; decide, by decide⟩

theorem not_splits_forever (hl : l.Sorted) (hpos : 0 < env.fileSize) :
    ¬ ∃ s : ℕ → EntryList, s 0 = l ∧ ∀ i, ¬ (s i).empty = true ∧
      ∃ out, (s i).splitOutBySizeInByte env = some (out, s (i + 1)) := by
  rintro ⟨s, rfl, hs⟩
  have hdecreases : ∀ i, (s i).Sorted ∧ (s i).points.length + (s i).ranges.length + i ≤
      (s 0).points.length + (s 0).ranges.length := by
    intro i
    induction i with
    | zero => exact ⟨hl, le_rfl⟩
    | succ i ih =>
      obtain ⟨hne, out, hsplit⟩ := hs i
      have hspec := splitOut_spec ih.1 hsplit
      have hlength := hspec.length_le
      rw [if_neg (splitOut_progress hpos hne hsplit)] at hlength
      exact ⟨hspec.rest_sorted, by omega⟩
  have := (hdecreases ((s 0).points.length + (s 0).ranges.length + 1)).2
  omega

/-- What a call on a non-empty list returns and leaves, unless it gives back the only point: a
file that is not empty and not too long, the rest behind it, and both together the list. So the
calls on what is left end. -/
theorem splitOut_parts (hl : l.Sorted)
    (hsize : env.perKvSize + env.perRangeDeleteSize ≤ env.fileSize)
    (hrange : 0 < env.perRangeDeleteSize) (hne : ¬ l.empty = true)
    (hpops : ¬ l.PopsOnlyPoint env) :
    (∃ out rest, l.splitOutBySizeInByte env = some (out, rest) ∧ ¬ out.empty = true ∧
      out.pointSizeInByte env + out.rangeSizeInByte env ≤ env.fileSize ∧
      out.points ++ rest.points = l.points ∧
      coverage l.ranges = coverage out.ranges ∪ coverage rest.ranges ∧
      Disjoint (coverage out.ranges) (coverage rest.ranges) ∧ out.Before rest ∧
      out.Sorted ∧ rest.Sorted) ∧
      ¬ ∃ s : ℕ → EntryList, s 0 = l ∧ ∀ i, ¬ (s i).empty = true ∧
        ∃ out, (s i).splitOutBySizeInByte env = some (out, s (i + 1)) := by
  have hpos : 0 < env.fileSize := by omega
  refine ⟨?_, not_splits_forever hl hpos⟩
  obtain ⟨⟨out, rest⟩, hsplit⟩ := Option.ne_none_iff_exists'.mp hpops
  rw [← splitOut_eq_splitLast hl hsize] at hsplit
  have hspec := splitOut_spec hl hsplit
  refine ⟨out, rest, hsplit, splitOut_progress hpos hne hsplit, hspec.size_le, hspec.points_eq,
    hspec.coverage_eq, ?_, hspec.before, hspec.out_sorted, hspec.rest_sorted⟩
  refine Set.disjoint_left.mpr fun k hout hrest => ?_
  exact lt_irrefl k (hspec.before k (Or.inr hout) k (Or.inr hrest))

theorem splitOut_parts_sample :
    ∃ out rest, splitOutBySizeInByte narrowEnv ⟨[⟨10, []⟩, ⟨11, []⟩], [(3, 20)]⟩ =
      some (out, rest) ∧ ¬ out.empty = true ∧ out.Before rest := by
  have hl : Sorted ⟨[⟨10, []⟩, ⟨11, []⟩], [(3, 20)]⟩ := ⟨by decide, by decide, by decide⟩
  have hpops : ¬ PopsOnlyPoint narrowEnv ⟨[⟨10, []⟩, ⟨11, []⟩], [(3, 20)]⟩ := by
    unfold PopsOnlyPoint
    decide
  obtain ⟨⟨out, rest, hsplit, hne, _, _, _, _, hbefore, _⟩, _⟩ :=
    splitOut_parts hl (by decide) (by decide) (by decide) hpops
  exact ⟨out, rest, hsplit, hne, hbefore⟩

/-- A call on the empty list returns an empty file. -/
theorem splitOut_clear :
    Sorted clear ∧ narrowEnv.perKvSize + narrowEnv.perRangeDeleteSize ≤ narrowEnv.fileSize ∧
      ¬ PopsOnlyPoint narrowEnv clear ∧
      splitOutBySizeInByte narrowEnv clear = some (clear, clear) ∧ clear.empty = true :=
  ⟨⟨by decide, by decide, by decide⟩, by decide, by unfold PopsOnlyPoint; decide, by decide,
    by decide⟩

end EntryList

end Spry.Emulation
