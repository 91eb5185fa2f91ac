import Mathlib

/-!
# Byte string keys

User keys are byte strings in lexicographic order. The numeric filters read them with
`std::stoll`: leading white space and a sign are accepted, the longest run of digits is
converted, and anything behind it is ignored. No digits, or a number outside 64 bits, throws.
-/

namespace Spry

abbrev Bytes := List (Fin 256)

instance neZero_256 : NeZero 256 := ⟨by decide⟩

namespace Bytes

def isSpace (b : Fin 256) : Bool := b = 32 ∨ (9 ≤ b ∧ b ≤ 13)

def isDigit (b : Fin 256) : Bool := 48 ≤ b ∧ b ≤ 57

def toNat (digits : Bytes) : ℕ := digits.foldl (fun n b => 10 * n + (b.val - 48)) 0

def ofSign : Bytes → Bool × Bytes
  | [] => (false, [])
  | b :: s => if b = 45 then (true, s) else if b = 43 then (false, s) else (false, b :: s)

def stoll (s : Bytes) : Option ℤ :=
  let (negative, s) := ofSign (s.dropWhile isSpace)
  let digits := s.takeWhile isDigit
  if digits = [] then none
  else
    let n : ℤ := if negative then -(toNat digits) else toNat digits
    if -2 ^ 63 ≤ n ∧ n < 2 ^ 63 then some n else none

example : stoll [32, 45, 49, 50, 120] = some (-12) := by decide

theorem lt_of_take_lt_take {n : ℕ} {a b : Bytes} (h : a.take n < b.take n) : a < b := by
  induction n generalizing a b with
  | zero => simp at h
  | succ n ih =>
    cases b with
    | nil => simp at h
    | cons y ys =>
      cases a with
      | nil => simp
      | cons x xs =>
        rw [List.take_succ_cons, List.take_succ_cons, List.cons_lt_cons_iff] at h
        rw [List.cons_lt_cons_iff]
        exact h.imp_right fun h => ⟨h.1, ih h.2⟩

theorem monotone_take (n : ℕ) : Monotone (List.take n : Bytes → Bytes) := by
  intro a b hab
  exact not_lt.mp fun hlt => not_lt.mpr hab (lt_of_take_lt_take hlt)

end Bytes

end Spry
