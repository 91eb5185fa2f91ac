import Spry.CondensedKey
import Spry.SuRFPunctured

/-!
# Tries back to ranges

`surfToRanges` walks over the stored keys and rebuilds the ranges from their parentheses: an end
is remembered until the next start, or the end of the walk, closes the range. It is inverse to
`rangesToSurf` on ranges that are not cut, as long as the number of stored keys is an `int`.
-/

namespace Spry

open HalfOpen Machine

structure RangeScan where
  start : Bytes
  stop : Bytes
  flagFirstKey : Bool
  ranges : List (Bytes × Bytes)

namespace SuRF

def closeRange (s : RangeScan) (stop : Bytes) : List (Bytes × Bytes) :=
  if s.flagFirstKey then s.ranges else s.ranges ++ [(s.start, stop)]

def scanKey (s : RangeScan) (p : ParenKey Bytes) : RangeScan :=
  match p.left, p.right with
  | true, true => ⟨p.key, p.key, false, closeRange s p.key⟩
  | true, false => ⟨p.key, p.key, false, closeRange s s.stop⟩
  | false, false => ⟨p.key, p.key, false, closeRange s s.stop⟩
  | false, true => { s with stop := p.key, flagFirstKey := false }

def surfToRanges (surf : SuRF Bytes) : List (Bytes × Bytes) :=
  let len := toInt32 surf.length
  if 0 < len then
    let s := (surf.take len.toNat).foldl scanKey ⟨[], [], true, []⟩
    s.ranges ++ [(s.start, s.stop)]
  else []

/-- The stored keys of the ranges `rs` and `r`, newest first: once the last one is reached, the
range `r` is open and the others are done. -/
def Decodes (rs : List (Bytes × Bytes)) (r : Bytes × Bytes) (ks : List (ParenKey Bytes)) : Prop :=
  ∃ front stop, ks = endKey r.2 :: front ∧
    front.reverse.foldl scanKey ⟨[], [], true, []⟩ = ⟨r.1, stop, false, rs⟩

theorem decodes_singleton {r : Bytes × Bytes} (hr : r.1 < r.2) : Decodes [] r (emitRange [] r) := by
  rw [emitRange, if_neg hr.ne]
  exact ⟨[⟨r.1, true, false⟩], r.1, rfl, rfl⟩

theorem Decodes.emitRange {rs : List (Bytes × Bytes)} {l r : Bytes × Bytes}
    {ks : List (ParenKey Bytes)} (h : Decodes rs l ks) (hr : r.1 < r.2) :
    Decodes (rs ++ [l]) r (emitRange ks r) := by
  obtain ⟨front, stop, rfl, hfront⟩ := h
  rw [HalfOpen.emitRange, if_neg hr.ne, pushStart]
  by_cases htouch : (endKey l.2).key = r.1
  · -- the end of the last range gets a left bit and closes it
    refine ⟨{ endKey l.2 with left := true } :: front, l.2, by rw [if_pos htouch]; rfl, ?_⟩
    rw [List.reverse_cons, List.foldl_append, hfront, ← htouch]
    rfl
  · refine ⟨⟨r.1, true, false⟩ :: endKey l.2 :: front, r.1, by rw [if_neg htouch]; rfl, ?_⟩
    rw [List.reverse_cons, List.reverse_cons, List.foldl_append, List.foldl_append, hfront]
    rfl

theorem decodes_foldl {rs : List (Bytes × Bytes)} {r : Bytes × Bytes}
    (hne : ∀ s ∈ rs ++ [r], s.1 < s.2) : Decodes rs r ((rs ++ [r]).foldl emitRange []) := by
  induction rs using List.reverseRecOn generalizing r with
  | nil => exact decodes_singleton (hne r (by simp))
  | append_singleton rs l ih =>
    rw [List.foldl_append]
    apply Decodes.emitRange
    · exact ih fun s hs => hne s (List.mem_append_left _ hs)
    · exact hne r (by simp)

theorem foldl_scanKey_parens {rs : List (Bytes × Bytes)} {r : Bytes × Bytes}
    (hne : ∀ s ∈ rs ++ [r], s.1 < s.2) :
    (parens (rs ++ [r])).foldl scanKey ⟨[], [], true, []⟩ = ⟨r.1, r.2, false, rs⟩ := by
  obtain ⟨front, stop, hks, hfront⟩ := decodes_foldl hne
  rw [parens, hks, List.reverse_cons, List.foldl_append, hfront]
  rfl

theorem rangesToSurf_eq_parens {env : SuRFEnv Bytes} {len n : ℕ} {rs : List (Bytes × Bytes)}
    (hcut : env.cut = List.take len) (hrs : Ordered rs)
    (hgap : env.allowRangeBoundaryOverlapped = false → Gapped rs)
    (hlength : ∀ r ∈ rs, r.1.length = n ∧ r.2.length = n) (hn : n ≤ len) :
    rangesToSurf env rs = parens rs := by
  have hself : ∀ r ∈ rs, (env.cut r.1, env.cut r.2) = r := by
    intro r hr
    rw [hcut, List.take_of_length_le ((hlength r hr).1.trans_le hn),
      List.take_of_length_le ((hlength r hr).2.trans_le hn)]
  rw [rangesToSurf, mergedRanges_of_ordered _ hrs hgap, List.map_congr_left hself, List.map_id']

/-- Decoding is inverse to building, for ranges that are stored as they are. -/
theorem surfToRanges_rangesToSurf {env : SuRFEnv Bytes} {len n : ℕ} {rs : List (Bytes × Bytes)}
    (hcut : env.cut = List.take len) (hnil : rs ≠ []) (hrs : Ordered rs)
    (hgap : env.allowRangeBoundaryOverlapped = false → Gapped rs)
    (hlength : ∀ r ∈ rs, r.1.length = n ∧ r.2.length = n) (hn : n ≤ len)
    (hsize : (rangesToSurf env rs).length < 2 ^ 31) :
    surfToRanges (rangesToSurf env rs) = rs := by
  rw [rangesToSurf_eq_parens hcut hrs hgap hlength hn] at hsize ⊢
  obtain ⟨front, r, rfl⟩ := (List.eq_nil_or_concat' rs).resolve_left hnil
  have hscan := foldl_scanKey_parens hrs.nonempty
  have hpos : 0 < (parens (front ++ [r])).length := by
    obtain ⟨rest, _, hks, _⟩ := decodes_foldl hrs.nonempty
    rw [parens, hks, List.length_reverse, List.length_cons]
    exact Nat.succ_pos _
  simp only [surfToRanges, toInt32_of_lt hsize, Int.toNat_natCast, List.take_length, hscan]
  rw [if_pos (by exact_mod_cast hpos)]

theorem surfToRanges_rangesToSurf_touching :
    surfToRanges (rangesToSurf (SuRFRDF.stringEnv true 1) [([1], [2]), ([2], [5])]) =
      [([1], [2]), ([2], [5])] := by
  have hcut : (SuRFRDF.stringEnv true 1).cut = List.take 1 := rfl
  exact surfToRanges_rangesToSurf hcut (by simp) (by decide) (by decide) (n := 1) (by decide)
    le_rfl (by decide)

theorem length_foldl_emitRange {rs : List (Bytes × Bytes)} (hgap : Gapped rs)
    (hne : ∀ r ∈ rs, r.1 < r.2) {ks : List (ParenKey Bytes)}
    (hks : ∀ p ∈ ks.head?, ∀ r ∈ rs, p.key < r.1) :
    (rs.foldl emitRange ks).length = ks.length + 2 * rs.length := by
  induction rs generalizing ks with
  | nil => rfl
  | cons r rs ih =>
    obtain ⟨hr, hrest⟩ := List.pairwise_cons.mp hgap
    have hpush : (pushStart ks r.1).length = ks.length + 1 := by
      cases ks with
      | nil => rfl
      | cons p ps =>
        have hlt : p.key < r.1 := hks p rfl r List.mem_cons_self
        rw [pushStart, if_neg hlt.ne]
        rfl
    have hemit : emitRange ks r = endKey r.2 :: pushStart ks r.1 :=
      if_neg (hne r List.mem_cons_self).ne
    rw [List.foldl_cons, ih hrest (fun s hs => hne s (List.mem_cons_of_mem r hs)), hemit,
      List.length_cons, hpush, List.length_cons]
    · omega
    · rw [hemit]
      intro p hp s hs
      obtain rfl := Option.some.inj hp
      exact hr s hs

theorem surfToRanges_of_le {surf : SuRF Bytes} (h₁ : 2 ^ 31 ≤ surf.length)
    (h₂ : surf.length < 2 ^ 32) : surfToRanges surf = [] := by
  have hneg := toInt32_neg h₁ h₂
  simp only [surfToRanges]
  rw [if_neg hneg.not_gt]

/-- The ranges between the four-byte numbers `2 i` and `2 i + 1`. -/
def pairRanges (n : ℕ) : List (Bytes × Bytes) :=
  (List.range n).map fun i =>
    (SuRFUtils.fixedBytes 4 (2 * i), SuRFUtils.fixedBytes 4 (2 * i + 1))

theorem pairRanges_spec {n : ℕ} (hn : n ≤ 2 ^ 30) :
    (∀ r ∈ pairRanges n, r.1 < r.2 ∧ r.1.length = 4 ∧ r.2.length = 4) ∧ Gapped (pairRanges n) := by
  have hfits : ∀ i < n, 2 * i < 256 ^ 4 ∧ 2 * i + 1 < 256 ^ 4 := by
    intro i hi
    norm_num
    omega
  constructor
  · intro r hr
    obtain ⟨i, hi, rfl⟩ := List.mem_map.mp hr
    obtain ⟨h₁, h₂⟩ := hfits i (List.mem_range.mp hi)
    refine ⟨(SuRFUtils.fixedBytes_lt_iff h₁ h₂).mpr (by omega), ?_, ?_⟩
    · exact SuRFUtils.length_fixedBytes h₁
    · exact SuRFUtils.length_fixedBytes h₂
  · apply List.pairwise_map.mpr
    apply List.Pairwise.imp_of_mem _ List.pairwise_lt_range
    intro i j hi hj hij
    apply (SuRFUtils.fixedBytes_lt_iff _ _).mpr
    · omega
    · exact (hfits i (List.mem_range.mp hi)).2
    · exact (hfits j (List.mem_range.mp hj)).1

/-- The `2 ^ 31` stored keys of `2 ^ 30` ranges are a negative number: nothing is decoded. -/
theorem surfToRanges_overflows :
    ∃ rs : List (Bytes × Bytes), rs.length = 2 ^ 30 ∧ Ordered rs ∧ Gapped rs ∧
      (∀ r ∈ rs, r.1.length = 4 ∧ r.2.length = 4) ∧
      surfToRanges (rangesToSurf (SuRFRDF.stringEnv false 4) rs) = [] := by
  -- the number stays a variable: nothing may unfold it
  obtain ⟨n, hn⟩ : ∃ n, n = 2 ^ 30 := ⟨_, rfl⟩
  obtain ⟨hranges, hgap⟩ := pairRanges_spec hn.le
  have hrs : Ordered (pairRanges n) := hgap.ordered fun r hr => (hranges r hr).1
  have hlength : (pairRanges n).length = n := by
    rw [pairRanges, List.length_map, List.length_range]
  refine ⟨pairRanges n, hlength.trans hn, hrs, hgap, fun r hr => (hranges r hr).2, ?_⟩
  have hstored := rangesToSurf_eq_parens (rfl : (SuRFRDF.stringEnv false 4).cut = List.take 4) hrs
    (fun _ => hgap) (fun r hr => (hranges r hr).2) le_rfl
  have hsize : (rangesToSurf (SuRFRDF.stringEnv false 4) (pairRanges n)).length = 2 ^ 31 := by
    rw [hstored, parens, List.length_reverse, length_foldl_emitRange hgap hrs.nonempty (by simp),
      hlength, hn]
    rfl
  apply surfToRanges_of_le
  · exact hsize.ge
  · rw [hsize]
    norm_num

end SuRF

end Spry
