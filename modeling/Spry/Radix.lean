import Mathlib.Data.List.Lex
import Mathlib.Data.List.TakeWhile
import Mathlib.Data.Nat.Digits.Lemmas
import Mathlib.Order.Fin.Basic
import Mathlib.Tactic.Ring

/-!
# Numbers as lists of blocks

A list of blocks is read as a number in a base, most significant block first. Dividing it block by
block with a carry gives the blocks of the quotient and a remainder. Repeating this until nothing
is left gives the digits of the number in the base of the divisor. Among lists of one length the
lexicographic order is the order of the numbers.
-/

namespace Radix

variable {b d : ℕ} {x : ℕ} {xs ys : List ℕ}

def value (b : ℕ) (xs : List ℕ) : ℕ := Nat.ofDigits b xs.reverse

@[simp] theorem value_nil (b : ℕ) : value b [] = 0 := rfl

theorem value_append (b : ℕ) (xs ys : List ℕ) :
    value b (xs ++ ys) = value b xs * b ^ ys.length + value b ys := by
  rw [value, List.reverse_append, Nat.ofDigits_append, List.length_reverse, value, value]
  ring

@[simp] theorem value_singleton (b x : ℕ) : value b [x] = x := Nat.ofDigits_singleton

theorem value_cons (b x : ℕ) (xs : List ℕ) :
    value b (x :: xs) = x * b ^ xs.length + value b xs := by
  rw [← List.singleton_append, value_append, value_singleton]

theorem value_lt (hb : 1 < b) (hxs : ∀ x ∈ xs, x < b) : value b xs < b ^ xs.length := by
  rw [value, ← List.length_reverse]
  exact Nat.ofDigits_lt_base_pow_length hb fun x hx => hxs x (List.mem_reverse.mp hx)

theorem value_replicate_zero (b n : ℕ) (xs : List ℕ) :
    value b (List.replicate n 0 ++ xs) = value b xs := by
  induction n with
  | zero => rfl
  | succ n ih =>
    rw [List.replicate_succ, List.cons_append, value_cons, Nat.zero_mul, Nat.zero_add, ih]

theorem value_eq_zero_iff (hb : 0 < b) : value b xs = 0 ↔ ∀ x ∈ xs, x = 0 := by
  induction xs with
  | nil => simp
  | cons x xs ih =>
    have hpow : b ^ xs.length ≠ 0 := (Nat.pow_pos hb).ne'
    rw [value_cons, Nat.add_eq_zero_iff, Nat.mul_eq_zero, or_iff_left hpow, ih,
      List.forall_mem_cons]

theorem value_dropWhile_zero (b : ℕ) (xs : List ℕ) :
    value b (xs.dropWhile (· = 0)) = value b xs := by
  induction xs with
  | nil => rfl
  | cons x xs ih =>
    by_cases hx : x = 0
    · rw [List.dropWhile_cons_of_pos (by simpa using hx), ih, value_cons, hx, Nat.zero_mul,
        Nat.zero_add]
    · rw [List.dropWhile_cons_of_neg (by simpa using hx)]

theorem dropWhile_zero_eq_nil_iff (hb : 0 < b) : xs.dropWhile (· = 0) = [] ↔ value b xs = 0 := by
  rw [List.dropWhile_eq_nil_iff, value_eq_zero_iff hb]
  simp only [decide_eq_true_eq]

/-! ### Long division -/

def divide (b d : ℕ) : (carry : ℕ) → List ℕ → List ℕ × ℕ
  | carry, [] => ([], carry)
  | carry, x :: xs =>
    let rest := divide b d ((carry * b + x) % d) xs
    ((carry * b + x) / d :: rest.1, rest.2)

theorem length_divide (carry : ℕ) (xs : List ℕ) : (divide b d carry xs).1.length = xs.length := by
  induction xs generalizing carry with
  | nil => rfl
  | cons x xs ih => rw [divide, List.length_cons, List.length_cons, ih]

theorem divide_snd_lt (hd : 0 < d) {carry : ℕ} (hcarry : carry < d) (xs : List ℕ) :
    (divide b d carry xs).2 < d := by
  induction xs generalizing carry with
  | nil => exact hcarry
  | cons x xs ih => exact ih (Nat.mod_lt _ hd)

theorem divide_fst_lt (hd : 0 < d) {carry : ℕ} (hcarry : carry < d) (hxs : ∀ x ∈ xs, x < b) :
    ∀ q ∈ (divide b d carry xs).1, q < b := by
  induction xs generalizing carry with
  | nil => simp [divide]
  | cons x xs ih =>
    obtain ⟨hx, hrest⟩ := List.forall_mem_cons.mp hxs
    refine List.forall_mem_cons.mpr ⟨?_, ih (Nat.mod_lt _ hd) hrest⟩
    rw [Nat.div_lt_iff_lt_mul hd]
    calc carry * b + x < carry * b + b := Nat.add_lt_add_left hx _
      _ = (carry + 1) * b := by ring
      _ ≤ d * b := Nat.mul_le_mul_right b hcarry
      _ = b * d := Nat.mul_comm d b

theorem value_divide (b d carry : ℕ) (xs : List ℕ) :
    d * value b (divide b d carry xs).1 + (divide b d carry xs).2 =
      carry * b ^ xs.length + value b xs := by
  induction xs generalizing carry with
  | nil => simp [divide]
  | cons x xs ih =>
    have hdiv := Nat.div_add_mod (carry * b + x) d
    have hrest := ih ((carry * b + x) % d)
    rw [divide, value_cons, length_divide, value_cons, List.length_cons, Nat.mul_add,
      Nat.add_assoc, hrest]
    calc d * ((carry * b + x) / d * b ^ xs.length) +
          ((carry * b + x) % d * b ^ xs.length + value b xs)
        = (d * ((carry * b + x) / d) + (carry * b + x) % d) * b ^ xs.length + value b xs := by
          ring
      _ = (carry * b + x) * b ^ xs.length + value b xs := by rw [hdiv]
      _ = carry * b ^ (xs.length + 1) + (x * b ^ xs.length + value b xs) := by ring

theorem divide_zero_eq (hd : 0 < d) (xs : List ℕ) :
    value b (divide b d 0 xs).1 = value b xs / d ∧ (divide b d 0 xs).2 = value b xs % d := by
  have hvalue := value_divide b d 0 xs
  rw [Nat.zero_mul, Nat.zero_add] at hvalue
  have hunique := (Nat.div_mod_unique hd).mpr
    ⟨(Nat.add_comm _ _).trans hvalue, divide_snd_lt (b := b) hd hd xs⟩
  exact ⟨hunique.1.symm, hunique.2.symm⟩

/-! ### The digits of a number -/

def digits (d v : ℕ) : List ℕ := if v = 0 then [0] else Nat.digits d v

theorem digits_eq (hd : 1 < d) (v : ℕ) :
    digits d v = v % d :: if v / d = 0 then [] else digits d (v / d) := by
  by_cases hv : v = 0
  · simp [digits, hv]
  · rw [digits, if_neg hv, Nat.digits_eq_cons_digits_div hd hv]
    by_cases hq : v / d = 0
    · rw [if_pos hq, hq, Nat.digits_zero]
    · rw [if_neg hq, digits, if_neg hq]

theorem digits_lt (hd : 1 < d) {v : ℕ} : ∀ x ∈ digits d v, x < d := by
  intro x hx
  unfold digits at hx
  split_ifs at hx with hv
  · rw [List.mem_singleton.mp hx]
    omega
  · exact Nat.digits_lt_base hd hx

theorem value_reverse_digits (d v : ℕ) : value d (digits d v).reverse = v := by
  unfold digits
  split_ifs with hv
  · rw [hv]
    rfl
  · rw [value, List.reverse_reverse, Nat.ofDigits_digits]

theorem length_digits_le (hd : 1 < d) {v n : ℕ} (hn : 0 < n) (hv : v < d ^ n) :
    (digits d v).length ≤ n := by
  unfold digits
  split_ifs with hzero
  · exact hn
  · exact (Nat.digits_length_le_iff hd v).mpr hv

theorem reverse_digits_value (hd : 1 < d) (hxs : ∀ x ∈ xs, x < d) :
    (digits d (value d xs)).reverse =
      if xs.dropWhile (· = 0) = [] then [0] else xs.dropWhile (· = 0) := by
  have hzero : xs.dropWhile (· = 0) = [] ↔ value d xs = 0 :=
    dropWhile_zero_eq_nil_iff (by omega)
  by_cases hv : value d xs = 0
  · rw [if_pos (hzero.mpr hv), digits, if_pos hv]
    rfl
  · have hne := mt hzero.mp hv
    rw [if_neg hne, digits, if_neg hv, ← value_dropWhile_zero, value,
      Nat.digits_ofDigits d hd, List.reverse_reverse]
    · intro x hx
      exact hxs x ((List.dropWhile_sublist _).subset (List.mem_reverse.mp hx))
    · intro _
      rw [List.getLast_reverse]
      simpa using List.head_dropWhile_not _ hne

/-! ### Lists of one length -/

theorem value_map_val_lt (hb : 1 < b) (us : List (Fin b)) :
    value b (us.map Fin.val) < b ^ us.length := by
  have hlt : value b (us.map Fin.val) < b ^ (us.map Fin.val).length := value_lt hb (by simp)
  rwa [List.length_map] at hlt

theorem value_lt_value_iff {us vs : List (Fin b)} (hlength : us.length = vs.length) :
    value b (us.map Fin.val) < value b (vs.map Fin.val) ↔ us < vs := by
  have hmono : ∀ {us vs : List (Fin b)}, us.length = vs.length → us < vs →
      value b (us.map Fin.val) < value b (vs.map Fin.val) := by
    intro us vs hlength hlt
    induction us generalizing vs with
    | nil =>
      rw [List.eq_nil_of_length_eq_zero hlength.symm] at hlt
      exact absurd hlt (lt_irrefl _)
    | cons u us ih =>
      cases vs with
      | nil => cases hlength
      | cons v vs =>
        have hrest : us.length = vs.length := by simpa using hlength
        rw [List.map_cons, List.map_cons, value_cons, value_cons, List.length_map,
          List.length_map, hrest]
        rcases List.cons_lt_cons_iff.mp hlt with huv | ⟨rfl, hlt'⟩
        · have hb : 1 < b := by
            have := v.isLt
            have := Fin.lt_def.mp huv
            omega
          have hsmall : value b (us.map Fin.val) < b ^ vs.length := by
            rw [← hrest]
            exact value_map_val_lt hb us
          calc u.val * b ^ vs.length + value b (us.map Fin.val)
              < u.val * b ^ vs.length + b ^ vs.length := Nat.add_lt_add_left hsmall _
            _ = (u.val + 1) * b ^ vs.length := by ring
            _ ≤ v.val * b ^ vs.length := Nat.mul_le_mul_right _ (Fin.lt_def.mp huv)
            _ ≤ v.val * b ^ vs.length + value b (vs.map Fin.val) := Nat.le_add_right _ _
        · exact Nat.add_lt_add_left (ih hrest hlt') _
  refine ⟨fun h => ?_, hmono hlength⟩
  rcases lt_trichotomy us vs with hlt | rfl | hgt
  · exact hlt
  · exact absurd h (lt_irrefl _)
  · exact absurd h (hmono hlength.symm hgt).asymm

end Radix
