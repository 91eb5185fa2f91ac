import Mathlib.Data.List.TakeWhile
import Mathlib.Order.Hom.Basic
import Mathlib.Tactic.Ring
import Spry.StringKey

/-!
# Decimal strings of one length

On strings of digits of one common length the lexicographic order is the order of the numbers
they denote, and `stoll` returns that number if it fits.
-/

namespace Spry.Bytes

/-- A non-empty string of `n` digits whose number fits into 64 bits. -/
structure IsDecimal (n : ℕ) (k : Bytes) : Prop where
  length_eq : k.length = n
  pos : 0 < n
  digits : ∀ b ∈ k, isDigit b = true
  fits : toNat k < 2 ^ 63

instance (n : ℕ) (k : Bytes) : Decidable (IsDecimal n k) :=
  decidable_of_iff
    (k.length = n ∧ 0 < n ∧ (∀ b ∈ k, isDigit b = true) ∧ toNat k < 2 ^ 63)
    ⟨fun h => ⟨h.1, h.2.1, h.2.2.1, h.2.2.2⟩, fun h => ⟨h.length_eq, h.pos, h.digits, h.fits⟩⟩

theorem isDigit_iff {b : Fin 256} : isDigit b = true ↔ 48 ≤ b.val ∧ b.val ≤ 57 := by
  simp [isDigit, Fin.le_def]

theorem foldl_digits (acc : ℕ) (s : Bytes) :
    s.foldl (fun n b => 10 * n + (b.val - 48)) acc = acc * 10 ^ s.length + toNat s := by
  unfold toNat
  induction s generalizing acc with
  | nil => simp
  | cons b s ih =>
    rw [List.foldl_cons, List.foldl_cons, ih, ih (10 * 0 + _), List.length_cons, pow_succ]
    ring

theorem toNat_cons (b : Fin 256) (s : Bytes) :
    toNat (b :: s) = (b.val - 48) * 10 ^ s.length + toNat s := by
  rw [toNat, List.foldl_cons, foldl_digits, Nat.mul_zero, Nat.zero_add]

theorem toNat_lt_pow {s : Bytes} (hs : ∀ b ∈ s, isDigit b = true) : toNat s < 10 ^ s.length := by
  induction s with
  | nil => simp [toNat]
  | cons b s ih =>
    have hrest := ih fun c hc => hs c (List.mem_cons_of_mem b hc)
    have hb := (isDigit_iff.mp (hs b List.mem_cons_self)).2
    have hdigit : (b.val - 48 + 1) * 10 ^ s.length ≤ 10 * 10 ^ s.length :=
      Nat.mul_le_mul_right _ (by omega)
    rw [toNat_cons, List.length_cons, pow_succ']
    rw [Nat.add_mul, Nat.one_mul] at hdigit
    omega

theorem toNat_lt_toNat {s t : Bytes} (hlength : s.length = t.length)
    (hs : ∀ b ∈ s, isDigit b = true) (ht : ∀ b ∈ t, isDigit b = true) (h : s < t) :
    toNat s < toNat t := by
  induction s generalizing t with
  | nil =>
    rw [List.length_nil] at hlength
    rw [List.eq_nil_of_length_eq_zero hlength.symm] at h
    exact absurd h (lt_irrefl _)
  | cons a s ih =>
    cases t with
    | nil => cases hlength
    | cons b t =>
      rw [List.length_cons, List.length_cons, Nat.add_right_cancel_iff] at hlength
      have hs' : ∀ c ∈ s, isDigit c = true := fun c hc => hs c (List.mem_cons_of_mem a hc)
      have ht' : ∀ c ∈ t, isDigit c = true := fun c hc => ht c (List.mem_cons_of_mem b hc)
      rw [toNat_cons, toNat_cons, hlength]
      rcases List.cons_lt_cons_iff.mp h with hlt | ⟨rfl, hlt⟩
      · have ha := isDigit_iff.mp (hs a List.mem_cons_self)
        have hsmall := toNat_lt_pow hs'
        have hstep : (a.val - 48 + 1) * 10 ^ t.length ≤ (b.val - 48) * 10 ^ t.length := by
          apply Nat.mul_le_mul_right
          have := Fin.lt_def.mp hlt
          omega
        rw [hlength] at hsmall
        rw [Nat.add_mul, Nat.one_mul] at hstep
        omega
      · exact Nat.add_lt_add_left (ih hlength hs' ht' hlt) _

theorem ofSign_dropWhile_of_digits {s : Bytes} (hne : s ≠ []) (hs : ∀ b ∈ s, isDigit b = true) :
    ofSign (s.dropWhile isSpace) = (false, s) := by
  cases s with
  | nil => exact absurd rfl hne
  | cons b s =>
    have hval := isDigit_iff.mp (hs b List.mem_cons_self)
    have hspace : isSpace b = false := by
      simp only [isSpace, Fin.ext_iff, Fin.le_def, decide_eq_false_iff_not]
      simp
      omega
    have hdrop : (b :: s).dropWhile isSpace = b :: s := by
      simp [hspace]
    have hminus : b ≠ 45 := by
      rintro rfl
      exact absurd hval (by decide)
    have hplus : b ≠ 43 := by
      rintro rfl
      exact absurd hval (by decide)
    rw [hdrop, ofSign, if_neg hminus, if_neg hplus]

theorem stoll_eq_toNat {n : ℕ} {k : Bytes} (hk : IsDecimal n k) : stoll k = some (toNat k : ℤ) := by
  have hne : k ≠ [] := by
    apply List.ne_nil_of_length_pos
    rw [hk.length_eq]
    exact hk.pos
  have hdigits : k.takeWhile isDigit = k := List.takeWhile_eq_self_iff.mpr hk.digits
  have hfits : -2 ^ 63 ≤ (toNat k : ℤ) ∧ (toNat k : ℤ) < 2 ^ 63 :=
    ⟨by omega, by exact_mod_cast hk.fits⟩
  simp only [stoll, ofSign_dropWhile_of_digits hne hk.digits, hdigits]
  rw [if_neg hne]
  simp only [Bool.false_eq_true, if_false]
  rw [if_pos hfits]

/-- The decimal strings of length `n`. -/
abbrev Decimal (n : ℕ) := {k : Bytes // IsDecimal n k}

namespace Decimal

variable (n : ℕ)

def text : Decimal n ↪o Bytes := OrderEmbedding.subtype (IsDecimal n)

theorem toNat_le_toNat_iff (a b : Decimal n) : (toNat a.val : ℤ) ≤ toNat b.val ↔ a ≤ b := by
  have hlt : ∀ a b : Decimal n, a < b → toNat a.val < toNat b.val := by
    intro a b hab
    have hlength : a.val.length = b.val.length := a.2.length_eq.trans b.2.length_eq.symm
    exact toNat_lt_toNat hlength a.2.digits b.2.digits hab
  rw [Int.ofNat_le]
  constructor
  · exact fun hle => not_lt.mp fun hba => absurd (hlt b a hba) (not_lt.mpr hle)
  · intro hab
    rcases hab.lt_or_eq with hab | rfl
    · exact (hlt a b hab).le
    · exact le_rfl

def value : Decimal n ↪o ℤ where
  toFun k := toNat k.val
  inj' a b h :=
    le_antisymm ((toNat_le_toNat_iff n a b).mp h.le) ((toNat_le_toNat_iff n b a).mp h.ge)
  map_rel_iff' := toNat_le_toNat_iff n _ _

theorem stoll_text (k : Decimal n) : stoll (text n k) = some (value n k) := stoll_eq_toNat k.2

end Decimal

end Spry.Bytes
