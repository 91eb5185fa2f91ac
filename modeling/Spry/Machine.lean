import Mathlib.Data.Nat.Size
import Mathlib.Tactic.NormNum
import Mathlib.Tactic.Push

/-!
# Machine numbers

A size that is stored as a 32-bit signed integer wraps around. A natural number that needs more
bits than the significand of a floating point number holds is rounded to the nearest number that
does not, and to the one with an even significand if two are equally near. A number whose odd part
fits into the significand is kept as it is. The numbers are far below the largest finite one, so
that the range of exponents plays no role.
-/

namespace Machine

def toInt32 (n : ℕ) : ℤ := Int.bmod n (2 ^ 32)

theorem bmod_two_pow_32 (z : ℤ) (h₁ : 0 ≤ z) (h₂ : z < 2 ^ 32) :
    z.bmod (2 ^ 32) = if z < 2 ^ 31 then z else z - 2 ^ 32 := by
  rw [Int.bmod_def]
  push_cast
  split_ifs <;> omega

theorem toInt32_of_lt {n : ℕ} (h : n < 2 ^ 31) : toInt32 n = n := by
  have hn : (n : ℤ) < 2 ^ 31 := by exact_mod_cast h
  have hbound : (n : ℤ) < 2 ^ 32 := hn.trans (by norm_num)
  exact (bmod_two_pow_32 n (Int.natCast_nonneg n) hbound).trans (if_pos hn)

theorem toInt32_of_le {n : ℕ} (h₁ : 2 ^ 31 ≤ n) (h₂ : n < 2 ^ 32) : toInt32 n = n - 2 ^ 32 := by
  have hn : ¬ (n : ℤ) < 2 ^ 31 := not_lt.mpr (by exact_mod_cast h₁)
  have hbound : (n : ℤ) < 2 ^ 32 := by exact_mod_cast h₂
  exact (bmod_two_pow_32 n (Int.natCast_nonneg n) hbound).trans (if_neg hn)

theorem toInt32_neg {n : ℕ} (h₁ : 2 ^ 31 ≤ n) (h₂ : n < 2 ^ 32) : toInt32 n < 0 := by
  have hbound : (n : ℤ) < 2 ^ 32 := by exact_mod_cast h₂
  rw [toInt32_of_le h₁ h₂]
  exact sub_neg.mpr hbound

theorem toInt32_two_pow_32 : toInt32 (2 ^ 32) = 0 := Int.bmod_self

end Machine

namespace Binary64

def precision : ℕ := 53

def excess (n : ℕ) : ℕ := n.size - precision

def round (n : ℕ) : ℕ :=
  let unit := 2 ^ excess n
  let quotient := n / unit
  let rest := n % unit
  if 2 * rest < unit ∨ (2 * rest = unit ∧ quotient % 2 = 0) then quotient * unit
  else (quotient + 1) * unit

/-- The product of two numbers that are floating point numbers already. -/
def mul (a b : ℕ) : ℕ := round (a * b)

example : round (2 ^ 53 + 1) = 2 ^ 53 := by decide

theorem round_of_dvd {n : ℕ} (h : 2 ^ excess n ∣ n) : round n = n := by
  have hrest : n % 2 ^ excess n = 0 := Nat.mod_eq_zero_of_dvd h
  simp only [round, hrest, Nat.mul_zero]
  rw [if_pos (Or.inl (Nat.two_pow_pos _)), Nat.div_mul_cancel h]

theorem round_mul_two_pow {m : ℕ} (hm : m < 2 ^ precision) (k : ℕ) :
    round (m * 2 ^ k) = m * 2 ^ k := by
  apply round_of_dvd
  have hsize : (m * 2 ^ k).size ≤ precision + k := by
    rw [Nat.size_le, Nat.pow_add]
    exact Nat.mul_lt_mul_of_pos_right hm (Nat.two_pow_pos k)
  have hexcess : excess (m * 2 ^ k) ≤ k := by
    unfold excess
    omega
  exact Nat.dvd_trans (Nat.pow_dvd_pow 2 hexcess) (Nat.dvd_mul_left _ _)

theorem round_of_lt {n : ℕ} (h : n < 2 ^ precision) : round n = n := by
  simpa using round_mul_two_pow h 0

end Binary64
