import Spry.DigitKey
import Spry.Interval.Embed

/-!
# Condensed keys

A condensed key is an encoded digit string, extended on the left to a fixed length with zero
bytes. Among byte strings of one length the order of `std::string` is the order of the big-endian
numbers, so condensed keys compare as the numbers they stand for, and so do range lists of them.
-/

namespace Spry

open HalfOpen Machine
open Bytes (isDigit toNat)

namespace SuRFUtils

/-- The fill goes in front of the string. The width of the stream is an `int`; one that is
negative or too small fills nothing. -/
def extendStringToLength (str : Bytes) (len : ℕ) (c : Fin 256) : Bytes :=
  List.replicate (toInt32 len - str.length).toNat c ++ str

def condensedKey (len : ℕ) (key : Bytes) : Loop.Outcome Bytes :=
  (encodeDigitStringToByteString key).bind fun s => .returned (extendStringToLength s len 0)

/-- A digit string that fits: its length is an `int32_t`, and its number has at most `n` bytes.
The empty string stands for zero if there is room for a byte. -/
structure Fits (n : ℕ) (x : Bytes) : Prop where
  digits : ∀ b ∈ x, isDigit b = true
  length_lt : x.length < 2 ^ 31
  toNat_lt : toNat x < 256 ^ n
  ne_nil : x ≠ [] ∨ 0 < n

/-- The big-endian number with at least `n` bytes. -/
def fixedBytes (n v : ℕ) : Bytes := List.replicate (n - (bigEndian v).length) 0 ++ bigEndian v

theorem value_fixedBytes (n v : ℕ) : Radix.value 256 ((fixedBytes n v).map Fin.val) = v := by
  rw [fixedBytes, List.map_append, List.map_replicate]
  exact (Radix.value_replicate_zero _ _ _).trans (value_bigEndian v)

theorem length_fixedBytes {n v : ℕ} (hv : v < 256 ^ n) : (fixedBytes n v).length = max n 1 := by
  rw [fixedBytes, List.length_append, List.length_replicate]
  cases Nat.eq_zero_or_pos n with
  | inl hn =>
    obtain rfl : v = 0 := by
      rw [hn, pow_zero] at hv
      omega
    rw [hn]
    rfl
  | inr hn =>
    have hle := length_bigEndian_le hn hv
    omega

theorem fixedBytes_zero {n : ℕ} (hn : 0 < n) : fixedBytes n 0 = List.replicate n 0 := by
  change List.replicate (n - 1) 0 ++ List.replicate 1 0 = _
  rw [← List.replicate_add, Nat.sub_add_cancel hn]

theorem encodeDigitString_nil : encodeDigitStringToByteString [] = .returned [] := rfl

theorem extendStringToLength_eq {n : ℕ} (hn : n < 2 ^ 31) (str : Bytes) :
    extendStringToLength str n 0 = List.replicate (n - str.length) 0 ++ str := by
  rw [extendStringToLength, toInt32_of_lt hn, Int.toNat_sub]

theorem condensedKey_eq {n : ℕ} (hn : n < 2 ^ 31) {x : Bytes} (hx : Fits n x) :
    condensedKey n x = .returned (fixedBytes n (toNat x)) := by
  by_cases hnil : x = []
  · have hpos : 0 < n := hx.ne_nil.resolve_left fun h => h hnil
    rw [hnil, condensedKey, encodeDigitString_nil, Loop.Outcome.returned_bind,
      extendStringToLength_eq hn]
    change Loop.Outcome.returned (List.replicate n 0 ++ []) = .returned (fixedBytes n 0)
    rw [List.append_nil, fixedBytes_zero hpos]
  · rw [condensedKey, encodeDigitString_eq hnil hx.digits hx.length_lt, Loop.Outcome.returned_bind,
      extendStringToLength_eq hn]
    rfl

theorem fixedBytes_lt_iff {n v w : ℕ} (hv : v < 256 ^ n) (hw : w < 256 ^ n) :
    fixedBytes n v < fixedBytes n w ↔ v < w := by
  rw [← Radix.value_lt_value_iff ((length_fixedBytes hv).trans (length_fixedBytes hw).symm),
    value_fixedBytes, value_fixedBytes]

def numberKey (n : ℕ) : Fin (256 ^ n) ↪o Bytes :=
  OrderEmbedding.ofMapLEIff (fun v => fixedBytes n v.val) fun v w => by
    rw [← not_lt, fixedBytes_lt_iff w.isLt v.isLt, not_lt, Fin.le_def]

theorem numberKey_apply {n : ℕ} (v : Fin (256 ^ n)) : numberKey n v = fixedBytes n v.val := rfl

/-- Condensed keys compare as their numbers, and range lists of condensed keys are sorted, merged
and clipped as the range lists of the numbers are. -/
theorem condensedKey_order {n : ℕ} (hn : n < 2 ^ 31) :
    (∀ x y, Fits n x → Fits n y → ∃ kx ky, condensedKey n x = .returned kx ∧
      condensedKey n y = .returned ky ∧ (kx < ky ↔ toNat x < toNat y) ∧
      (kx = ky ↔ toNat x = toNat y)) ∧
    ∃ φ : Fin (256 ^ n) ↪o Bytes,
      (∀ x (hx : Fits n x), condensedKey n x = .returned (φ ⟨toNat x, hx.toNat_lt⟩)) ∧
      ∀ rs bs, sortPairs (embed φ rs) = embed φ (sortPairs rs) ∧
        coalesceAll (embed φ rs) = embed φ (coalesceAll rs) ∧
        clip (embed φ rs) (embed φ bs) = embed φ (clip rs bs) := by
  have hkey : ∀ x (hx : Fits n x),
      condensedKey n x = .returned (numberKey n ⟨toNat x, hx.toNat_lt⟩) := by
    intro x hx
    rw [numberKey_apply]
    exact condensedKey_eq hn hx
  constructor
  · intro x y hx hy
    refine ⟨_, _, hkey x hx, hkey y hy, ?_, ?_⟩
    · rw [(numberKey n).lt_iff_lt, Fin.lt_def]
    · rw [(numberKey n).eq_iff_eq, Fin.mk.injEq]
  · refine ⟨numberKey n, hkey, fun rs bs => ?_⟩
    exact ⟨sortPairs_embed _ rs, coalesceAll_embed _ rs, clip_embed _ rs bs⟩

theorem condensedKey_order_two_bytes :
    ∃ kx ky, condensedKey 2 [50, 53, 54] = .returned kx ∧ condensedKey 2 [57] = .returned ky ∧
      ky < kx := by
  have hx : Fits 2 [50, 53, 54] :=
    ⟨List.all_eq_true.mp (by decide), by norm_num, by decide, Or.inl (by simp)⟩
  have hy : Fits 2 [57] :=
    ⟨List.all_eq_true.mp (by decide), by norm_num, by decide, Or.inl (by simp)⟩
  obtain ⟨kx, ky, hkx, hky, hlt, -⟩ := (condensedKey_order (by norm_num)).1 _ _ hy hx
  exact ⟨ky, kx, hky, hkx, hlt.mpr (by decide)⟩

/-- A width of `2 ^ 31` is a negative `int` and fills nothing: 256 has a smaller key than 2. -/
theorem condensedKey_wide :
    condensedKey (2 ^ 31) [50, 53, 54] = .returned [1, 0] ∧
      condensedKey (2 ^ 31) [50] = .returned [2] ∧ ([1, 0] : Bytes) < [2] ∧
      toNat [50] < toNat [50, 53, 54] := by
  have hfill : ∀ str : Bytes, extendStringToLength str (2 ^ 31) 0 = str := by
    intro str
    have hneg : toInt32 (2 ^ 31) < 0 := toInt32_neg le_rfl (by norm_num)
    rw [extendStringToLength, Int.toNat_eq_zero.mpr (by omega)]
    rfl
  have hx := encodeDigitString_eq (s := [50, 53, 54]) (by simp) (List.all_eq_true.mp (by decide))
    (by norm_num)
  have hy := encodeDigitString_eq (s := [50]) (by simp) (List.all_eq_true.mp (by decide))
    (by norm_num)
  refine ⟨?_, ?_, by decide, by decide⟩
  · rw [condensedKey, hx, Loop.Outcome.returned_bind, hfill]
    rfl
  · rw [condensedKey, hy, Loop.Outcome.returned_bind, hfill]
    rfl

end SuRFUtils

end Spry
