import Mathlib.Analysis.SpecialFunctions.Log.Base
import Spry.Checked
import Spry.Decimal
import Spry.Loop
import Spry.Machine
import Spry.Radix

/-!
# Digit strings as byte strings

Keys that are decimal digit strings can be condensed: `encode_digit_string_to_byte_string` writes
the number in base 256 and `decode_byte_string_to_digit_string` writes it in base 10 again. Both
cut their input into blocks from its end, and divide the blocks by the new base until nothing is
left. The carry is multiplied with a power that is a floating point number. `exit` stands for an
exception, for a conversion out of range, and for a word that wraps around.
-/

namespace Spry

open Machine
open Bytes (isDigit toNat ofSign isSpace)

namespace SuRFUtils

def word (n : ℕ) : Option ℕ := if n < 2 ^ 64 then some n else none

theorem word_eq {n : ℕ} (h : n < 2 ^ 64) : word n = some n := if_pos h

/-- Like `stoll`; a minus sign negates modulo the word size. -/
def stoull (s : Bytes) : Option ℕ :=
  let (negative, s) := ofSign (s.dropWhile isSpace)
  let digits := s.takeWhile isDigit
  if digits = [] then none
  else (word (toNat digits)).map fun n => if negative then (2 ^ 64 - n) % 2 ^ 64 else n

/-- The blocks of a string, the last one first. The index starts at the length as an `int32_t`
and goes down by the length of a block. -/
def cutBlocks (spacing : ℕ) (s : Bytes) : (fuel : ℕ) → (i : ℤ) → List Bytes
  | 0, _ => []
  | fuel + 1, i =>
    if 0 < i then
      let start := max 0 (i - spacing)
      (s.drop start.toNat).take (i - start).toNat :: cutBlocks spacing s fuel (i - spacing)
    else []

def dividePass (power base : ℕ) : (tmp : ℕ) → List ℕ → Option (List ℕ × ℕ)
  | tmp, [] => some ([], tmp)
  | tmp, x :: xs => do
    let tmp ← word (Binary64.mul (Binary64.round tmp) power)
    let tmp ← word (tmp + x)
    let rest ← dividePass power base (tmp % base) xs
    return (tmp / base :: rest.1, rest.2)

/-- The blocks that are not done with, and the digits written so far. -/
structure Conversion where
  digits : List ℕ
  out : List ℕ

def convertStep (power base : ℕ) (s : Conversion) : Loop.Step Conversion (List ℕ) :=
  match s.digits with
  | [] => .done s.out.reverse
  | x :: xs =>
    match dividePass power base 0 (x :: xs) with
    | none => .exit
    | some (digits, carryOn) => .next ⟨digits.dropWhile (· = 0), s.out ++ [carryOn]⟩

/-- The length of the blocks of digits, from the two quotients of logarithms. Neither is near an
integer. -/
def spacing : ℕ := Nat.log 10 (2 ^ 64 - 1) - (Nat.clog 10 256 + 1)

def encodeDigits (digitString : Bytes) : Option (List ℕ) :=
  ((cutBlocks spacing digitString digitString.length (toInt32 digitString.length)).mapM
    stoull).map List.reverse

def encodeDigitStringToByteString (digitString : Bytes) : Loop.Outcome Bytes :=
  match encodeDigits digitString with
  | none => .exited
  | some digits =>
    (Loop.run (convertStep (Binary64.round (10 ^ spacing)) 256) (digitString.length + 1)
      ⟨digits, []⟩).bind fun out => .returned (out.map (Fin.ofNat 256))

def shiftIn (tmp : ℕ) (block : Bytes) : Option ℕ :=
  block.foldlM (fun tmp b => word (tmp * 2 ^ 8 + b.val)) tmp

def decodeDigits (byteString : Bytes) : Option (List ℕ) :=
  ((cutBlocks 7 byteString byteString.length (toInt32 byteString.length)).mapM
    (shiftIn 0)).map List.reverse

def decodeByteStringToDigitString (byteString : Bytes) : Loop.Outcome Bytes :=
  match decodeDigits byteString with
  | none => .exited
  | some digits =>
    (Loop.run (convertStep (Binary64.round (256 ^ 7)) 10) (3 * byteString.length + 1)
      ⟨digits, []⟩).bind fun out => .returned (out.map fun c => Fin.ofNat 256 (c + 48))

theorem spacing_eq : spacing = 15 := by decide

theorem spacing_eq_floor : (spacing : ℤ) =
    ⌊(⌊Real.log (2 ^ 64 - 1 : ℕ) / Real.log 10⌋ : ℝ) - (Real.log 256 / Real.log 10 + 1)⌋ := by
  have hfloor := Real.floor_logb_natCast (b := 10) (r := ((2 ^ 64 - 1 : ℕ) : ℝ)) (by positivity)
  have hceil := Real.ceil_logb_natCast (b := 10) (r := ((256 : ℕ) : ℝ)) (by positivity)
  rw [Int.log_natCast, Real.logb, Nat.cast_ofNat] at hfloor
  rw [Int.clog_natCast, Real.logb, Nat.cast_ofNat, Nat.cast_ofNat] at hceil
  have hsub : ((Nat.log 10 (2 ^ 64 - 1) : ℤ) : ℝ) - (Real.log 256 / Real.log 10 + 1) =
      -(Real.log 256 / Real.log 10) + ((Nat.log 10 (2 ^ 64 - 1) - 1 : ℤ) : ℝ) := by
    push_cast
    ring
  rw [hfloor, hsub, Int.floor_add_intCast, Int.floor_neg, hceil]
  decide

/-! ### The division loop -/

/-- The products and sums of the division by `base` are exact and fit into a word. -/
structure Exact (power base : ℕ) : Prop where
  one_lt : 1 < base
  pos : 0 < power
  round_eq : Binary64.round power = power
  mul_eq : ∀ c < base, Binary64.mul (Binary64.round c) power = c * power
  fits : base * power ≤ 2 ^ 64

variable {power base : ℕ}

theorem Exact.sum_lt (h : Exact power base) {tmp x : ℕ} (htmp : tmp < base) (hx : x < power) :
    tmp * power + x < 2 ^ 64 := by
  calc tmp * power + x < tmp * power + power := Nat.add_lt_add_left hx _
    _ = (tmp + 1) * power := by ring
    _ ≤ base * power := Nat.mul_le_mul_right _ htmp
    _ ≤ 2 ^ 64 := h.fits

theorem Exact.base_pos (h : Exact power base) : 0 < base := Nat.zero_lt_of_lt h.one_lt

theorem dividePass_eq (h : Exact power base) {tmp : ℕ} (htmp : tmp < base) {xs : List ℕ}
    (hxs : ∀ x ∈ xs, x < power) :
    dividePass power base tmp xs = some (Radix.divide power base tmp xs) := by
  induction xs generalizing tmp with
  | nil => rfl
  | cons x xs ih =>
    obtain ⟨hx, hrest⟩ := List.forall_mem_cons.mp hxs
    have hsum := h.sum_lt htmp hx
    have hproduct : tmp * power < 2 ^ 64 := (Nat.le_add_right _ _).trans_lt hsum
    have hcarry := ih (Nat.mod_lt (tmp * power + x) h.base_pos) hrest
    rw [dividePass, h.mul_eq tmp htmp, word_eq hproduct, Option.bind_eq_bind, Option.bind_some,
      word_eq hsum, Option.bind_eq_bind, Option.bind_some, hcarry]
    rfl

def PrecisePass (power base : ℕ) : (tmp : ℕ) → List ℕ → Prop
  | _, [] => True
  | tmp, x :: xs =>
    Binary64.mul (Binary64.round tmp) (Binary64.round power) = tmp * power ∧
      tmp * power + x < 2 ^ 64 ∧ PrecisePass power base ((tmp * power + x) % base) xs

theorem precisePass (h : Exact power base) {tmp : ℕ} (htmp : tmp < base) {xs : List ℕ}
    (hxs : ∀ x ∈ xs, x < power) : PrecisePass power base tmp xs := by
  induction xs generalizing tmp with
  | nil => exact trivial
  | cons x xs ih =>
    obtain ⟨hx, hrest⟩ := List.forall_mem_cons.mp hxs
    refine ⟨?_, h.sum_lt htmp hx, ih (Nat.mod_lt _ h.base_pos) hrest⟩
    rw [h.round_eq]
    exact h.mul_eq tmp htmp

namespace Conversion

def pending (power base : ℕ) (s : Conversion) : List ℕ :=
  if s.digits = [] then [] else Radix.digits base (Radix.value power s.digits)

def result (power base : ℕ) (s : Conversion) : List ℕ := (s.out ++ s.pending power base).reverse

def rounds (power base : ℕ) (s : Conversion) : ℕ := (s.pending power base).length

def Blocks (power : ℕ) (s : Conversion) : Prop := ∀ x ∈ s.digits, x < power

def Reaches (power base : ℕ) : Conversion → Conversion → Prop :=
  Relation.ReflTransGen fun s s' => convertStep power base s = .next s'

end Conversion

theorem returns_convertStep (h : Exact power base) (s : Conversion) (hs : s.Blocks power) :
    Loop.Returns (Conversion.Blocks power) (Conversion.result power base)
      (Conversion.rounds power base) s (convertStep power base s) := by
  obtain ⟨digits, out⟩ := s
  cases digits with
  | nil => simp [convertStep, Loop.Returns, Conversion.result, Conversion.pending]
  | cons x xs =>
    have hxs : ∀ y ∈ x :: xs, y < power := hs
    have hbase := h.base_pos
    have hpass := dividePass_eq h hbase hxs
    obtain ⟨hquotient, hrest⟩ := Radix.divide_zero_eq (b := power) hbase (x :: xs)
    have hpending : (⟨x :: xs, out⟩ : Conversion).pending power base =
        (Radix.divide power base 0 (x :: xs)).2 :: Conversion.pending power base
          ⟨(Radix.divide power base 0 (x :: xs)).1.dropWhile (· = 0),
            out ++ [(Radix.divide power base 0 (x :: xs)).2]⟩ := by
      rw [Conversion.pending, if_neg (List.cons_ne_nil x xs), Radix.digits_eq h.one_lt, ← hrest,
        ← hquotient, Conversion.pending]
      simp only [Radix.dropWhile_zero_eq_nil_iff h.pos, Radix.value_dropWhile_zero]
    simp only [convertStep, hpass]
    refine ⟨fun q hq => ?_, ?_, ?_⟩
    · have hmem := (List.dropWhile_sublist fun y => decide (y = 0)).subset hq
      exact Radix.divide_fst_lt hbase hbase hxs q hmem
    · rw [Conversion.result, Conversion.result, hpending, List.append_assoc,
        List.singleton_append]
    · rw [Conversion.rounds, Conversion.rounds, hpending, List.length_cons]
      exact Nat.lt_succ_self _

theorem precisePass_of_reaches (h : Exact power base) {s s' : Conversion} (hs : s.Blocks power)
    (hreach : Conversion.Reaches power base s s') : PrecisePass power base 0 s'.digits := by
  have hblocks : s'.Blocks power := by
    induction hreach with
    | refl => exact hs
    | @tail t u _ hstep ih =>
      have hnext := returns_convertStep h t ih
      rw [hstep] at hnext
      exact hnext.1
  exact precisePass h h.base_pos hblocks

theorem run_convertStep (h : Exact power base) {xs : List ℕ} (hne : xs ≠ [])
    (hxs : ∀ x ∈ xs, x < power) {fuel : ℕ}
    (hfuel : (Radix.digits base (Radix.value power xs)).length < fuel) :
    Loop.run (convertStep power base) fuel ⟨xs, []⟩ =
      .returned (Radix.digits base (Radix.value power xs)).reverse := by
  have hpending : (⟨xs, []⟩ : Conversion).pending power base =
      Radix.digits base (Radix.value power xs) := if_neg hne
  have hrun := Loop.run_returns (returns_convertStep h) (s := ⟨xs, []⟩) hxs
    (by simpa only [Conversion.rounds, hpending] using hfuel)
  simpa only [Conversion.result, hpending, List.nil_append] using hrun

/-! ### The blocks -/

theorem cutBlocks_of_nonpos (spacing : ℕ) (s : Bytes) (fuel : ℕ) {i : ℤ} (hi : i ≤ 0) :
    cutBlocks spacing s fuel i = [] := by
  cases fuel with
  | zero => rfl
  | succ fuel => rw [cutBlocks, if_neg (not_lt.mpr hi)]

theorem cutBlocks_succ {spacing : ℕ} (s : Bytes) (fuel : ℕ) {i : ℕ} (hi : 0 < i) :
    cutBlocks spacing s (fuel + 1) i =
      (s.drop (i - spacing)).take (i - (i - spacing)) ::
        cutBlocks spacing s fuel (i - spacing : ℕ) := by
  have hstart : (max 0 ((i : ℤ) - spacing)).toNat = i - spacing := by omega
  have hlength : ((i : ℤ) - max 0 ((i : ℤ) - spacing)).toNat = i - (i - spacing) := by omega
  rw [cutBlocks, if_pos (by omega)]
  simp only [hstart, hlength]
  congr 1
  by_cases hle : spacing ≤ i
  · rw [Nat.cast_sub hle]
  · rw [cutBlocks_of_nonpos _ _ _ (by omega), cutBlocks_of_nonpos _ _ _ (by omega)]

theorem of_mem_cutBlocks {spacing : ℕ} (hspacing : 0 < spacing) {s : Bytes} {fuel i : ℕ}
    (hi : i ≤ s.length) {block : Bytes} (hblock : block ∈ cutBlocks spacing s fuel i) :
    block.length ≤ spacing ∧ block ≠ [] ∧ block.Sublist s := by
  induction fuel generalizing i with
  | zero => cases hblock
  | succ fuel ih =>
    cases Nat.eq_zero_or_pos i with
    | inl hzero =>
      rw [cutBlocks_of_nonpos _ _ _ (by omega)] at hblock
      cases hblock
    | inr hpos =>
      rw [cutBlocks_succ s fuel hpos] at hblock
      rcases List.mem_cons.mp hblock with rfl | hblock
      · refine ⟨?_, ?_, (List.take_sublist _ _).trans (List.drop_sublist _ _)⟩
        · rw [List.length_take]
          omega
        · apply List.ne_nil_of_length_pos
          rw [List.length_take, List.length_drop]
          omega
      · exact ih (by omega) hblock

theorem value_cutBlocks {spacing : ℕ} (hspacing : 0 < spacing) (b : ℕ) (digit : Fin 256 → ℕ)
    {s : Bytes} {fuel i : ℕ} (hi : i ≤ s.length) (hfuel : i ≤ fuel) :
    Radix.value (b ^ spacing) ((cutBlocks spacing s fuel i).map
        fun block => Radix.value b (block.map digit)).reverse =
      Radix.value b ((s.take i).map digit) := by
  induction fuel generalizing i with
  | zero =>
    rw [Nat.le_zero.mp hfuel]
    rfl
  | succ fuel ih =>
    cases Nat.eq_zero_or_pos i with
    | inl hzero =>
      rw [hzero, cutBlocks_of_nonpos _ _ _ (by omega)]
      rfl
    | inr hpos =>
      have hsplit : s.take i =
          s.take (i - spacing) ++ (s.drop (i - spacing)).take (i - (i - spacing)) := by
        rw [← List.take_add]
        congr 1
        omega
      rw [cutBlocks_succ s fuel hpos, List.map_cons, List.reverse_cons, Radix.value_append,
        ih (by omega) (by omega), hsplit, List.map_append, Radix.value_append, List.length_map,
        Radix.value_singleton, List.length_singleton, pow_one]
      by_cases hle : spacing ≤ i
      · rw [List.length_take, List.length_drop]
        congr 3
        omega
      · -- the first block may be shorter; there is nothing in front of it
        have hzero : i - spacing = 0 := by omega
        rw [hzero, List.take_zero, List.map_nil, Radix.value_nil, Nat.zero_mul, Nat.zero_mul]

def blockValues (b n : ℕ) (digit : Fin 256 → ℕ) (s : Bytes) : List ℕ :=
  ((cutBlocks n s s.length s.length).map fun block => Radix.value b (block.map digit)).reverse

section BlockValues

variable {b n : ℕ} {digit : Fin 256 → ℕ} {s : Bytes}

theorem blockValues_ne_nil (hne : s ≠ []) : blockValues b n digit s ≠ [] := by
  obtain ⟨m, hm⟩ := Nat.exists_eq_succ_of_ne_zero (List.length_pos_iff.mpr hne).ne'
  rw [blockValues, hm, cutBlocks_succ s m (Nat.succ_pos m)]
  simp

theorem blockValues_lt (hn : 0 < n) (hb : 1 < b) (hs : ∀ x ∈ s, digit x < b) :
    ∀ v ∈ blockValues b n digit s, v < b ^ n := by
  intro v hv
  obtain ⟨block, hblock, rfl⟩ := List.mem_map.mp (List.mem_reverse.mp hv)
  obtain ⟨hle, _, hsub⟩ := of_mem_cutBlocks hn le_rfl hblock
  have hlt : Radix.value b (block.map digit) < b ^ (block.map digit).length := by
    apply Radix.value_lt hb
    intro y hy
    obtain ⟨z, hz, rfl⟩ := List.mem_map.mp hy
    exact hs z (hsub.subset hz)
  rw [List.length_map] at hlt
  exact hlt.trans_le (Nat.pow_le_pow_right (Nat.zero_lt_of_lt hb) hle)

theorem value_blockValues (hn : 0 < n) :
    Radix.value (b ^ n) (blockValues b n digit s) = Radix.value b (s.map digit) := by
  have hvalue := value_cutBlocks hn b digit (le_refl s.length) (le_refl s.length)
  rwa [List.take_length] at hvalue

theorem run_convertStep_blockValues (h : Exact (b ^ n) base) (hn : 0 < n) (hb : 1 < b)
    (hs : ∀ x ∈ s, digit x < b) (hne : s ≠ []) {fuel : ℕ}
    (hfuel : (Radix.digits base (Radix.value b (s.map digit))).length < fuel) :
    Loop.run (convertStep (Binary64.round (b ^ n)) base) fuel ⟨blockValues b n digit s, []⟩ =
      .returned (Radix.digits base (Radix.value b (s.map digit))).reverse := by
  rw [← value_blockValues hn] at hfuel ⊢
  rw [h.round_eq]
  exact run_convertStep h (blockValues_ne_nil hne) (blockValues_lt hn hb hs) hfuel

end BlockValues

/-! ### The two conversions -/

/-- A power with a small odd part is a floating point number, and so are its products with the
carries. -/
theorem exact_of_odd_part {m k : ℕ} (hpower : power = m * 2 ^ k) (hbase : 1 < base) (hm : 0 < m)
    (hbound : base * m ≤ 2 ^ Binary64.precision) (hfits : base * power ≤ 2 ^ 64) :
    Exact power base := by
  have hround : ∀ c < base, Binary64.round (c * power) = c * power := by
    intro c hc
    rw [hpower, ← Nat.mul_assoc]
    exact Binary64.round_mul_two_pow ((Nat.mul_lt_mul_of_pos_right hc hm).trans_le hbound) k
  refine ⟨hbase, hpower ▸ Nat.mul_pos hm (Nat.two_pow_pos k), by simpa using hround 1 hbase,
    fun c hc => ?_, hfits⟩
  have hcarry : c < 2 ^ Binary64.precision := by
    calc c < base := hc
      _ ≤ base * m := Nat.le_mul_of_pos_right base hm
      _ ≤ 2 ^ Binary64.precision := hbound
  rw [Binary64.round_of_lt hcarry, Binary64.mul, hround c hc]

theorem exact_encode : Exact (10 ^ spacing) 256 := by
  rw [spacing_eq]
  exact exact_of_odd_part (m := 5 ^ 15) (k := 15) (by norm_num) (by norm_num) (by norm_num)
    (by norm_num [Binary64.precision]) (by norm_num)

theorem exact_decode : Exact (256 ^ 7) 10 :=
  exact_of_odd_part (m := 1) (k := 56) (by norm_num) (by norm_num) (by norm_num)
    (by norm_num [Binary64.precision]) (by norm_num)

theorem spacing_pos : 0 < spacing := by decide

def bigEndian (v : ℕ) : Bytes := (Radix.digits 256 v).reverse.map (Fin.ofNat 256)

def decimal (v : ℕ) : Bytes := (Radix.digits 10 v).reverse.map fun c => Fin.ofNat 256 (c + 48)

def stripZeros (s : Bytes) : Bytes :=
  if s.dropWhile (· = 48) = [] then [48] else s.dropWhile (· = 48)

def digitValue (b : Fin 256) : ℕ := b.val - 48

theorem digitValue_lt {b : Fin 256} (hb : isDigit b = true) : digitValue b < 10 := by
  have := (Bytes.isDigit_iff.mp hb).2
  unfold digitValue
  omega

theorem toNat_eq_value (s : Bytes) : toNat s = Radix.value 10 (s.map digitValue) := by
  induction s with
  | nil => rfl
  | cons b s ih => rw [Bytes.toNat_cons, ih, List.map_cons, Radix.value_cons, List.length_map]; rfl

theorem stoull_eq_toNat {s : Bytes} (hne : s ≠ []) (hs : ∀ b ∈ s, isDigit b = true)
    (hfits : toNat s < 2 ^ 64) : stoull s = some (toNat s) := by
  have hdigits : s.takeWhile isDigit = s := List.takeWhile_eq_self_iff.mpr hs
  simp only [stoull, Bytes.ofSign_dropWhile_of_digits hne hs, hdigits, word_eq hfits]
  rw [if_neg hne]
  rfl

theorem encodeDigits_eq {s : Bytes} (hs : ∀ b ∈ s, isDigit b = true)
    (hlength : s.length < 2 ^ 31) :
    encodeDigits s = some (blockValues 10 spacing digitValue s) := by
  rw [encodeDigits, toInt32_of_lt hlength]
  have hread : (cutBlocks spacing s s.length s.length).mapM stoull =
      some ((cutBlocks spacing s s.length s.length).map
        fun block => Radix.value 10 (block.map digitValue)) := by
    apply Fallible.mapM_eq_some_map
    intro block hblock
    obtain ⟨hle, hblock, hsub⟩ := of_mem_cutBlocks spacing_pos le_rfl hblock
    have hdigits : ∀ b ∈ block, isDigit b = true := fun b hb => hs b (hsub.subset hb)
    rw [← toNat_eq_value]
    apply stoull_eq_toNat hblock hdigits
    calc toNat block < 10 ^ block.length := Bytes.toNat_lt_pow hdigits
      _ ≤ 10 ^ spacing := Nat.pow_le_pow_right (by norm_num) hle
      _ ≤ 2 ^ 64 := by rw [spacing_eq]; norm_num
  rw [hread]
  rfl

theorem encodeDigitString_eq {s : Bytes} (hne : s ≠ []) (hs : ∀ b ∈ s, isDigit b = true)
    (hlength : s.length < 2 ^ 31) :
    encodeDigitStringToByteString s = .returned (bigEndian (toNat s)) := by
  have hfuel : (Radix.digits 256 (Radix.value 10 (s.map digitValue))).length < s.length + 1 := by
    apply Nat.lt_succ_of_le
    apply Radix.length_digits_le (by norm_num) (List.length_pos_iff.mpr hne)
    rw [← toNat_eq_value]
    exact (Bytes.toNat_lt_pow hs).trans_le (Nat.pow_le_pow_left (by norm_num) _)
  have hrun := run_convertStep_blockValues exact_encode spacing_pos (by norm_num)
    (fun b hb => digitValue_lt (hs b hb)) hne hfuel
  simp only [encodeDigitStringToByteString, encodeDigits_eq hs hlength, hrun,
    Loop.Outcome.returned_bind, bigEndian, toNat_eq_value]

theorem shiftIn_eq {block : Bytes} {tmp n : ℕ} (htmp : tmp < 256 ^ n)
    (hlength : n + block.length ≤ 8) :
    shiftIn tmp block =
      some (tmp * 256 ^ block.length + Radix.value 256 (block.map Fin.val)) := by
  unfold shiftIn
  induction block generalizing tmp n with
  | nil => simp
  | cons b block ih =>
    rw [List.length_cons] at hlength
    have hnext : tmp * 2 ^ 8 + b.val < 256 ^ (n + 1) := by
      have := b.isLt
      rw [pow_succ]
      omega
    have hword : tmp * 2 ^ 8 + b.val < 2 ^ 64 := by
      calc tmp * 2 ^ 8 + b.val < 256 ^ (n + 1) := hnext
        _ ≤ 256 ^ 8 := Nat.pow_le_pow_right (by norm_num) (by omega)
        _ = 2 ^ 64 := by norm_num
    rw [List.foldlM_cons, word_eq hword, Option.bind_eq_bind, Option.bind_some,
      ih hnext (by omega), List.map_cons, Radix.value_cons, List.length_map, List.length_cons,
      pow_succ]
    congr 1
    ring

theorem decodeDigits_eq {s : Bytes} (hlength : s.length < 2 ^ 31) :
    decodeDigits s = some (blockValues 256 7 Fin.val s) := by
  rw [decodeDigits, toInt32_of_lt hlength]
  have hread : (cutBlocks 7 s s.length s.length).mapM (shiftIn 0) =
      some ((cutBlocks 7 s s.length s.length).map
        fun block => Radix.value 256 (block.map Fin.val)) := by
    apply Fallible.mapM_eq_some_map
    intro block hblock
    have hle := (of_mem_cutBlocks (by norm_num) le_rfl hblock).1
    rw [shiftIn_eq (n := 0) (by norm_num) (by omega), Nat.zero_mul, Nat.zero_add]
  rw [hread]
  rfl

theorem decodeByteString_eq {s : Bytes} (hne : s ≠ []) (hlength : s.length < 2 ^ 31) :
    decodeByteStringToDigitString s = .returned (decimal (Radix.value 256 (s.map Fin.val))) := by
  have hfuel : (Radix.digits 10 (Radix.value 256 (s.map Fin.val))).length < 3 * s.length + 1 := by
    apply Nat.lt_succ_of_le
    have hpos : 0 < s.length := List.length_pos_iff.mpr hne
    apply Radix.length_digits_le (by norm_num) (by omega)
    calc Radix.value 256 (s.map Fin.val)
        < 256 ^ s.length := Radix.value_map_val_lt (by norm_num) s
      _ ≤ (10 ^ 3) ^ s.length := Nat.pow_le_pow_left (by norm_num) _
      _ = 10 ^ (3 * s.length) := (pow_mul 10 3 s.length).symm
  have hrun := run_convertStep_blockValues exact_decode (by norm_num) (by norm_num)
    (fun b _ => b.isLt) hne hfuel
  simp only [decodeByteStringToDigitString, decodeDigits_eq hlength, hrun,
    Loop.Outcome.returned_bind, decimal]

/-! ### The round trip -/

theorem map_val_bigEndian (v : ℕ) :
    (bigEndian v).map Fin.val = (Radix.digits 256 v).reverse := by
  have hval : ∀ x ∈ (Radix.digits 256 v).reverse, (Fin.ofNat 256 x).val = x := by
    intro x hx
    exact Nat.mod_eq_of_lt (Radix.digits_lt (by norm_num) x (List.mem_reverse.mp hx))
  rw [bigEndian, List.map_map]
  exact (List.map_congr_left hval).trans (List.map_id _)

theorem value_bigEndian (v : ℕ) : Radix.value 256 ((bigEndian v).map Fin.val) = v := by
  rw [map_val_bigEndian, Radix.value_reverse_digits]

theorem bigEndian_ne_nil (v : ℕ) : bigEndian v ≠ [] := by
  intro h
  have hmap := map_val_bigEndian v
  rw [h, Radix.digits_eq (by norm_num)] at hmap
  simp at hmap

theorem head?_bigEndian {v : ℕ} (hv : v ≠ 0) : (bigEndian v).head? ≠ some 0 := by
  intro h
  have hlast := Nat.getLast_digit_ne_zero 256 hv
  have hhead : ((bigEndian v).map Fin.val).head? = some 0 := by
    rw [List.head?_map, h]
    rfl
  rw [map_val_bigEndian, Radix.digits, if_neg hv, List.head?_reverse] at hhead
  exact hlast (List.getLast_of_getLast?_eq_some hhead)

theorem length_bigEndian_le {v n : ℕ} (hn : 0 < n) (hv : v < 256 ^ n) :
    (bigEndian v).length ≤ n := by
  rw [bigEndian, List.length_map, List.length_reverse]
  exact Radix.length_digits_le (by norm_num) hn hv

theorem digitValue_eq_zero_iff {b : Fin 256} (hb : isDigit b = true) :
    digitValue b = 0 ↔ b = 48 := by
  have hle := (Bytes.isDigit_iff.mp hb).1
  rw [digitValue, Fin.ext_iff]
  exact ⟨fun h => by change b.val = 48; omega, fun h => by change b.val = 48 at h; omega⟩

theorem ofNat_digitValue {b : Fin 256} (hb : isDigit b = true) :
    Fin.ofNat 256 (digitValue b + 48) = b := by
  have hle := (Bytes.isDigit_iff.mp hb).1
  apply Fin.ext
  change (b.val - 48 + 48) % 256 = b.val
  omega

theorem dropWhile_map_digitValue {s : Bytes} (hs : ∀ b ∈ s, isDigit b = true) :
    (s.map digitValue).dropWhile (· = 0) = (s.dropWhile (· = 48)).map digitValue := by
  induction s with
  | nil => rfl
  | cons b s ih =>
    obtain ⟨hb, hrest⟩ := List.forall_mem_cons.mp hs
    have hzero := digitValue_eq_zero_iff hb
    rw [List.map_cons]
    by_cases h : b = 48
    · rw [List.dropWhile_cons_of_pos (by simpa using hzero.mpr h),
        List.dropWhile_cons_of_pos (by simpa using h), ih hrest]
    · rw [List.dropWhile_cons_of_neg (by simpa using mt hzero.mp h),
        List.dropWhile_cons_of_neg (by simpa using h), List.map_cons]

theorem decimal_toNat {s : Bytes} (hs : ∀ b ∈ s, isDigit b = true) :
    decimal (toNat s) = stripZeros s := by
  have hlt : ∀ x ∈ s.map digitValue, x < 10 := by
    intro x hx
    obtain ⟨b, hb, rfl⟩ := List.mem_map.mp hx
    exact digitValue_lt (hs b hb)
  have hback : ∀ b ∈ s.dropWhile (· = 48), Fin.ofNat 256 (digitValue b + 48) = b :=
    fun b hb => ofNat_digitValue (hs b ((List.dropWhile_sublist _).subset hb))
  rw [decimal, toNat_eq_value, Radix.reverse_digits_value (by norm_num) hlt,
    dropWhile_map_digitValue hs, stripZeros]
  simp only [List.map_eq_nil_iff]
  split_ifs with hzero
  · rfl
  · rw [List.map_map]
    exact (List.map_congr_left hback).trans (List.map_id _)

theorem length_bigEndian_toNat_le {s : Bytes} (hne : s ≠ []) (hs : ∀ b ∈ s, isDigit b = true) :
    (bigEndian (toNat s)).length ≤ s.length := by
  apply length_bigEndian_le (List.length_pos_iff.mpr hne)
  exact (Bytes.toNat_lt_pow hs).trans_le (Nat.pow_le_pow_left (by norm_num) _)

theorem precisePass_encode {s : Bytes} (hs : ∀ b ∈ s, isDigit b = true)
    (hlength : s.length < 2 ^ 31) {digits : List ℕ} (hdigits : encodeDigits s = some digits)
    {state : Conversion}
    (hstate : Conversion.Reaches (Binary64.round (10 ^ spacing)) 256 ⟨digits, []⟩ state) :
    PrecisePass (10 ^ spacing) 256 0 state.digits := by
  rw [encodeDigits_eq hs hlength, Option.some.injEq] at hdigits
  rw [exact_encode.round_eq] at hstate
  apply precisePass_of_reaches exact_encode _ hstate
  rw [← hdigits]
  exact blockValues_lt spacing_pos (by norm_num) fun b hb => digitValue_lt (hs b hb)

theorem precisePass_decode {s : Bytes} (hlength : s.length < 2 ^ 31) {digits : List ℕ}
    (hdigits : decodeDigits s = some digits) {state : Conversion}
    (hstate : Conversion.Reaches (Binary64.round (256 ^ 7)) 10 ⟨digits, []⟩ state) :
    PrecisePass (256 ^ 7) 10 0 state.digits := by
  rw [decodeDigits_eq hlength, Option.some.injEq] at hdigits
  rw [exact_decode.round_eq] at hstate
  apply precisePass_of_reaches exact_decode _ hstate
  rw [← hdigits]
  exact blockValues_lt (by norm_num) (by norm_num) fun b _ => b.isLt

/-- The encoding is the big-endian number, decoding it gives the digits back without leading
zeros, and the arithmetic of both is exact. -/
theorem digitString_roundTrip {s : Bytes} (hne : s ≠ []) (hs : ∀ b ∈ s, isDigit b = true)
    (hlength : s.length < 2 ^ 31) :
    ∃ out, encodeDigitStringToByteString s = .returned out ∧
      Radix.value 256 (out.map Fin.val) = toNat s ∧
      (if toNat s = 0 then out = [0] else out.head? ≠ some 0) ∧
      decodeByteStringToDigitString out = .returned (stripZeros s) ∧
      (∀ digits state, encodeDigits s = some digits →
        Conversion.Reaches (Binary64.round (10 ^ spacing)) 256 ⟨digits, []⟩ state →
          PrecisePass (10 ^ spacing) 256 0 state.digits) ∧
      ∀ digits state, decodeDigits out = some digits →
        Conversion.Reaches (Binary64.round (256 ^ 7)) 10 ⟨digits, []⟩ state →
          PrecisePass (256 ^ 7) 10 0 state.digits := by
  have hout : (bigEndian (toNat s)).length < 2 ^ 31 :=
    (length_bigEndian_toNat_le hne hs).trans_lt hlength
  refine ⟨bigEndian (toNat s), encodeDigitString_eq hne hs hlength, value_bigEndian _, ?_, ?_, ?_,
    ?_⟩
  · split_ifs with hzero
    · rw [hzero]
      rfl
    · exact head?_bigEndian hzero
  · rw [decodeByteString_eq (bigEndian_ne_nil _) hout, value_bigEndian, decimal_toNat hs]
  · intro digits state hdigits hstate
    exact precisePass_encode hs hlength hdigits hstate
  · intro digits state hdigits hstate
    exact precisePass_decode hout hdigits hstate

theorem digitString_roundTrip_0256 :
    ∃ out, encodeDigitStringToByteString [48, 50, 53, 54] = .returned out ∧
      decodeByteStringToDigitString out = .returned [50, 53, 54] := by
  obtain ⟨out, hencode, _, _, hdecode, _⟩ :=
    digitString_roundTrip (s := [48, 50, 53, 54]) (by simp) (List.all_eq_true.mp (by decide))
      (by norm_num)
  exact ⟨out, hencode, hdecode⟩

theorem encodeDigitString_of_le {s : Bytes} (h₁ : 2 ^ 31 ≤ s.length) (h₂ : s.length < 2 ^ 32) :
    encodeDigitStringToByteString s = .returned [] := by
  have hdigits : encodeDigits s = some [] := by
    rw [encodeDigits, cutBlocks_of_nonpos _ _ _ (toInt32_neg h₁ h₂).le]
    rfl
  rw [encodeDigitStringToByteString, hdigits]
  rfl

/-- A string of zeros that is too long has an empty encoding. -/
theorem encodeDigitString_zeros :
    ∃ s : Bytes, s.length = 2 ^ 31 ∧ (∀ b ∈ s, b = 48) ∧ toNat s = 0 ∧
      encodeDigitStringToByteString s = .returned [] := by
  -- the length stays a variable: nothing may unfold it
  obtain ⟨n, hn⟩ : ∃ n, n = 2 ^ 31 := ⟨_, rfl⟩
  have hlength : (List.replicate n (48 : Fin 256)).length = n := List.length_replicate
  refine ⟨List.replicate n 48, hlength.trans hn, fun b => List.eq_of_mem_replicate, ?_, ?_⟩
  · rw [toNat_eq_value, Radix.value_eq_zero_iff (by norm_num)]
    intro x hx
    obtain ⟨b, hb, rfl⟩ := List.mem_map.mp hx
    rw [List.eq_of_mem_replicate hb]
    rfl
  · apply encodeDigitString_of_le
    · rw [hlength, hn]
    · rw [hlength, hn]
      norm_num

end SuRFUtils

end Spry
