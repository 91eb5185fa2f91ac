import Spry.Machine
import Spry.SuRFBase

/-!
# Shortened keys with the integers of the source

`truncateToFirstKDifference` keeps the number of bytes as an `int`. A length from `2 ^ 31` on is
negative, and the whole string is kept; a length of `2 ^ 32` is zero again. Below that length every
string is cut to a prefix that still lies behind the string before it, so a whole ascending list
stays ascending.
-/

namespace Spry

open Machine

namespace SuRFUtils

/-- The loop: the number of bytes to return at the last difference, or the differences counted. -/
def scanDifferences (k : ℕ) : (str1 str2 : Bytes) → (i diffCount : ℕ) → ℕ ⊕ ℕ
  | a :: str1, b :: str2, i, diffCount =>
    let diffCount := if a ≠ b then diffCount + 1 else diffCount
    if diffCount = k then .inl (i + 1) else scanDifferences k str1 str2 (i + 1) diffCount
  | _, _, _, diffCount => .inr diffCount

/-- A negative length is passed to `substr` as a huge one. -/
def truncateToFirstKDifference (str1 str2 : Bytes) (k : ℕ) : Bytes :=
  match scanDifferences k str1 str2 0 0 with
  | .inl n => str1.take n
  | .inr diffCount =>
    let parseLen := toInt32 (min str1.length (min str1.length str2.length + k - diffCount))
    if parseLen < 0 then str1 else str1.take parseLen.toNat

def truncateBehind (k : ℕ) : (previous : Bytes) → List Bytes → List Bytes
  | _, [] => []
  | previous, a :: rest => truncateToFirstKDifference a previous k :: truncateBehind k a rest

def processStringsToFirstKDifference (vec : List Bytes) (k : ℕ) : Option (List Bytes) :=
  match vec.insertionSort (· ≤ ·) with
  | [] => none
  | [a] => some [truncateToFirstKDifference a [32] k]
  | a :: b :: rest => some (truncateToFirstKDifference a b k :: truncateBehind k a (b :: rest))

variable {k : ℕ} {a b : Bytes}

theorem scanDifferences_cases {diffCount : ℕ} (hk : diffCount < k) (i : ℕ) :
    scanDifferences k a b i diffCount = .inl (i + SuRF.keptLen k a b diffCount) ∨
      ∃ d < k, scanDifferences k a b i diffCount = .inr d ∧
        SuRF.keptLen k a b diffCount = min a.length (min a.length b.length + k - d) := by
  induction a generalizing b i diffCount with
  | nil =>
    right
    exact ⟨diffCount, hk, by simp [scanDifferences], by simp [SuRF.keptLen]⟩
  | cons x a ih =>
    cases b with
    | nil =>
      right
      exact ⟨diffCount, hk, by simp [scanDifferences], by simp [SuRF.keptLen]⟩
    | cons y b =>
      rw [scanDifferences, SuRF.keptLen]
      generalize hcount : (if x ≠ y then diffCount + 1 else diffCount) = count
      by_cases hlast : count = k
      · left
        simp only [hlast, if_true]
      · have hlt : count < k := by
          have : count ≤ diffCount + 1 := by
            rw [← hcount]
            split_ifs <;> omega
          omega
        simp only [hlast, if_false]
        rcases ih hlt (i + 1) with h | ⟨d, hd, hscan, hkept⟩
        · left
          rw [h, Nat.add_assoc, Nat.add_comm 1]
        · right
          refine ⟨d, hd, hscan, ?_⟩
          rw [hkept, List.length_cons, List.length_cons]
          omega

/-- Below a length of `2 ^ 32` a string is cut where it should be, or left whole. -/
theorem truncateToFirstKDifference_cases (hk : 1 ≤ k) (ha : a.length < 2 ^ 32) :
    truncateToFirstKDifference a b k = SuRF.truncateToFirstKDifference a b k ∨
      truncateToFirstKDifference a b k = a := by
  unfold truncateToFirstKDifference SuRF.truncateToFirstKDifference
  rcases scanDifferences_cases (a := a) (b := b) hk 0 with h | ⟨d, _, hscan, hkept⟩
  · left
    rw [h, Nat.zero_add]
  · rw [hscan]
    simp only [← hkept]
    have hlt : SuRF.keptLen k a b 0 < 2 ^ 32 := by
      rw [hkept]
      exact (min_le_left _ _).trans_lt ha
    by_cases hsmall : SuRF.keptLen k a b 0 < 2 ^ 31
    · left
      rw [toInt32_of_lt hsmall, if_neg (Int.natCast_nonneg _).not_gt, Int.toNat_natCast]
    · right
      rw [if_pos (toInt32_neg (not_lt.mp hsmall) hlt)]

theorem truncateToFirstKDifference_isPrefix (hk : 1 ≤ k) (ha : a.length < 2 ^ 32) :
    truncateToFirstKDifference a b k <+: a := by
  rcases truncateToFirstKDifference_cases hk ha (b := b) with h | h
  · rw [h]
    exact SuRF.truncateToFirstKDifference_isPrefix a b k
  · rw [h]

theorem lt_truncateToFirstKDifference (hk : 1 ≤ k) (ha : a.length < 2 ^ 32) (hlt : b < a) :
    b < truncateToFirstKDifference a b k := by
  rcases truncateToFirstKDifference_cases hk ha (b := b) with h | h
  · rw [h]
    exact SuRF.lt_truncateToFirstKDifference hk hlt
  · rwa [h]

theorem truncateBehind_spec (hk : 1 ≤ k) {previous : Bytes} {vec : List Bytes}
    (hvec : (previous :: vec).Pairwise (· < ·)) (hlength : ∀ s ∈ vec, s.length < 2 ^ 32) :
    List.Forall₂ (· <+: ·) (truncateBehind k previous vec) vec ∧
      (previous :: truncateBehind k previous vec).Pairwise (· < ·) := by
  induction vec generalizing previous with
  | nil => exact ⟨List.Forall₂.nil, List.pairwise_singleton _ _⟩
  | cons a rest ih =>
    obtain ⟨hfirst, htail⟩ := List.pairwise_cons.mp hvec
    obtain ⟨ha, hrest⟩ := List.forall_mem_cons.mp hlength
    obtain ⟨hprefixes, hpairwise⟩ := ih htail hrest
    have hprefix := truncateToFirstKDifference_isPrefix (b := previous) hk ha
    have hbehind := lt_truncateToFirstKDifference hk ha (hfirst a List.mem_cons_self)
    have hle : truncateToFirstKDifference a previous k ≤ a := le_of_isPrefix hprefix
    obtain ⟨hhead, hcut⟩ := List.pairwise_cons.mp hpairwise
    have hlater : ∀ x ∈ truncateBehind k a rest, truncateToFirstKDifference a previous k < x :=
      fun x hx => hle.trans_lt (hhead x hx)
    refine ⟨List.Forall₂.cons hprefix hprefixes, ?_⟩
    refine List.pairwise_cons.mpr ⟨?_, List.pairwise_cons.mpr ⟨hlater, hcut⟩⟩
    exact List.forall_mem_cons.mpr ⟨hbehind, fun x hx => hbehind.trans (hlater x hx)⟩

/-- Every string is replaced by a prefix of itself in its place, and the list stays ascending. -/
theorem processStringsToFirstKDifference_ascending {vec : List Bytes}
    (hvec : vec.Pairwise (· < ·)) (htwo : 2 ≤ vec.length) (hk : 1 ≤ k)
    (hlength : ∀ s ∈ vec, s.length < 2 ^ 32) :
    ∃ out, processStringsToFirstKDifference vec k = some out ∧
      List.Forall₂ (· <+: ·) out vec ∧ out.Pairwise (· < ·) := by
  have hsort : vec.insertionSort (· ≤ ·) = vec := (hvec.imp fun h => h.le).insertionSort_eq
  match vec, htwo with
  | a :: b :: rest, _ =>
    obtain ⟨ha, hrest⟩ := List.forall_mem_cons.mp hlength
    obtain ⟨hprefixes, hpairwise⟩ := truncateBehind_spec hk hvec hrest
    have hprefix := truncateToFirstKDifference_isPrefix (b := b) hk ha
    have hle : truncateToFirstKDifference a b k ≤ a := le_of_isPrefix hprefix
    obtain ⟨hhead, hcut⟩ := List.pairwise_cons.mp hpairwise
    refine ⟨truncateToFirstKDifference a b k :: truncateBehind k a (b :: rest), ?_,
      List.Forall₂.cons hprefix hprefixes, List.pairwise_cons.mpr ⟨?_, hcut⟩⟩
    · rw [processStringsToFirstKDifference, hsort]
    · exact fun x hx => hle.trans_lt (hhead x hx)

theorem processStringsToFirstKDifference_ascending_sample :
    ∃ out, processStringsToFirstKDifference [[1], [1, 2, 3], [1, 4]] 1 = some out ∧
      List.Forall₂ (· <+: ·) out [[1], [1, 2, 3], [1, 4]] ∧ out.Pairwise (· < ·) :=
  processStringsToFirstKDifference_ascending (by decide) (by decide) le_rfl (by simp)

theorem scanDifferences_replicate (hk : 1 ≤ k) (c : Fin 256) (m n i : ℕ) :
    scanDifferences k (List.replicate m c) (List.replicate n c) i 0 = .inr 0 := by
  induction m generalizing n i with
  | zero => simp [scanDifferences]
  | succ m ih =>
    cases n with
    | zero => simp [scanDifferences, List.replicate_succ]
    | succ n =>
      rw [List.replicate_succ, List.replicate_succ, scanDifferences]
      simp only [ne_eq, not_true_eq_false, if_false]
      rw [if_neg (by omega), ih]

/-- Of two strings of one byte repeated, the longer one is cut to nothing if its length is zero as
an `int`. -/
theorem processStringsToFirstKDifference_wraps :
    ∃ a b : Bytes, a < b ∧ a.length + 1 = 2 ^ 32 ∧ b.length = 2 ^ 32 ∧
      processStringsToFirstKDifference [a, b] 1 = some [a, []] := by
  -- the length stays a variable: nothing may unfold it
  obtain ⟨n, hn⟩ : ∃ n, n + 1 = 2 ^ 32 := ⟨2 ^ 32 - 1, by norm_num⟩
  have ha : (List.replicate n (0 : Fin 256)).length = n := List.length_replicate
  have hb : (List.replicate (n + 1) (0 : Fin 256)).length = n + 1 := List.length_replicate
  have hlt : List.replicate n (0 : Fin 256) < List.replicate (n + 1) 0 := by
    apply lt_of_le_of_ne
    · apply le_of_isPrefix
      rw [List.replicate_succ']
      exact List.prefix_append _ _
    · intro h
      have := congrArg List.length h
      omega
  have hshort : truncateToFirstKDifference (List.replicate n 0) (List.replicate (n + 1) 0) 1 =
      List.replicate n 0 := by
    rw [truncateToFirstKDifference, scanDifferences_replicate le_rfl]
    simp only [ha, hb]
    rw [if_pos]
    rw [min_eq_left (by omega)]
    exact toInt32_neg (by omega) (by omega)
  have hlong : truncateToFirstKDifference (List.replicate (n + 1) 0) (List.replicate n 0) 1 =
      [] := by
    have hlen : min (n + 1) (min (n + 1) n + 1 - 0) = 2 ^ 32 := by omega
    rw [truncateToFirstKDifference, scanDifferences_replicate le_rfl]
    simp only [ha, hb, hlen, toInt32_two_pow_32]
    rfl
  refine ⟨List.replicate n 0, List.replicate (n + 1) 0, hlt, by rw [ha, hn], by rw [hb, hn], ?_⟩
  have hsort : [List.replicate n (0 : Fin 256), List.replicate (n + 1) 0].insertionSort (· ≤ ·) =
      [List.replicate n 0, List.replicate (n + 1) 0] :=
    (List.pairwise_pair.mpr hlt.le).insertionSort_eq
  rw [processStringsToFirstKDifference, hsort]
  simp only [truncateBehind, hshort, hlong]

end SuRFUtils

end Spry
