import Mathlib.Data.List.Induction
import Mathlib.Data.List.Infix
import Mathlib.Data.List.Pairwise
import Mathlib.Order.Lattice

/-!
# Ordered words and their prefixes

Words none of which is a prefix of another, in ascending order. The trie of such words has the
proper prefixes as its inner nodes and the words as its leaves. A search in the trie looks for the
least word with some property, and moves by steps that keep it.
-/

namespace Louds

variable {α : Type*} [LinearOrder α]

def Precedes : List α → List α → Prop
  | x :: s, y :: t => x < y ∨ (x = y ∧ Precedes s t)
  | _, _ => False

instance decidablePrecedes : (s t : List α) → Decidable (Precedes s t)
  | [], _ => isFalse id
  | _ :: _, [] => isFalse id
  | x :: s, y :: t =>
    have := decidablePrecedes s t
    inferInstanceAs (Decidable (x < y ∨ (x = y ∧ Precedes s t)))

namespace Precedes

variable {a b c p s t : List α} {x y : α}

@[simp] theorem not_nil_left : ¬ Precedes [] b := id

@[simp] theorem not_nil_right : ¬ Precedes a [] := by
  cases a with
  | nil => exact id
  | cons x s => exact id

@[simp] theorem cons_cons : Precedes (x :: s) (y :: t) ↔ x < y ∨ (x = y ∧ Precedes s t) := Iff.rfl

@[simp] theorem append_append : Precedes (p ++ s) (p ++ t) ↔ Precedes s t := by
  induction p with
  | nil => rfl
  | cons x p ih => simp [ih]

theorem irrefl (a : List α) : ¬ Precedes a a := by
  induction a with
  | nil => exact id
  | cons x s ih => simpa using ih

theorem trans (hab : Precedes a b) (hbc : Precedes b c) : Precedes a c := by
  induction a generalizing b c with
  | nil => exact hab.elim
  | cons x s ih =>
    cases b with
    | nil => exact hab.elim
    | cons y t =>
      cases c with
      | nil => exact hbc.elim
      | cons z u =>
        rcases hab with hxy | ⟨rfl, hst⟩
        · rcases hbc with hyz | ⟨rfl, _⟩
          · exact Or.inl (hxy.trans hyz)
          · exact Or.inl hxy
        · rcases hbc with hyz | ⟨rfl, htu⟩
          · exact Or.inl hyz
          · exact Or.inr ⟨rfl, ih hst htu⟩

theorem asymm (hab : Precedes a b) : ¬ Precedes b a := fun hba => irrefl a (hab.trans hba)

theorem ne (hab : Precedes a b) : a ≠ b := fun heq => irrefl b (heq ▸ hab)

theorem extend (hab : Precedes a b) (s t : List α) : Precedes (a ++ s) (b ++ t) := by
  induction a generalizing b with
  | nil => exact hab.elim
  | cons x a ih =>
    cases b with
    | nil => exact hab.elim
    | cons y b =>
      rcases hab with hlt | ⟨rfl, hab⟩
      · exact Or.inl hlt
      · exact Or.inr ⟨rfl, ih hab⟩

theorem mono {a' b' : List α} (hab : Precedes a b) (ha : a <+: a') (hb : b <+: b') :
    Precedes a' b' := by
  obtain ⟨s, rfl⟩ := ha
  obtain ⟨t, rfl⟩ := hb
  exact hab.extend s t

theorem not_isPrefix (hab : Precedes a b) : ¬ a <+: b := fun h =>
  irrefl b (hab.mono h List.prefix_rfl)

theorem not_isPrefix_right (hab : Precedes a b) : ¬ b <+: a := fun h =>
  irrefl a (hab.mono List.prefix_rfl h)

theorem of_append_left (h : Precedes (a ++ s) b) : Precedes a b ∨ a <+: b := by
  induction a generalizing b with
  | nil => exact Or.inr List.nil_prefix
  | cons x a ih =>
    cases b with
    | nil => exact h.elim
    | cons y b =>
      rcases h with hlt | ⟨rfl, h⟩
      · exact Or.inl (Or.inl hlt)
      · rcases ih h with h | h
        · exact Or.inl (Or.inr ⟨rfl, h⟩)
        · exact Or.inr ((List.prefix_cons_inj x).mpr h)

theorem of_append_right (h : Precedes a (b ++ t)) : Precedes a b ∨ b <+: a := by
  induction b generalizing a with
  | nil => exact Or.inr List.nil_prefix
  | cons y b ih =>
    cases a with
    | nil => exact h.elim
    | cons x a =>
      rcases h with hlt | ⟨rfl, h⟩
      · exact Or.inl (Or.inl hlt)
      · rcases ih h with h | h
        · exact Or.inl (Or.inr ⟨rfl, h⟩)
        · exact Or.inr ((List.prefix_cons_inj x).mpr h)

theorem take (h : Precedes a b) {n : ℕ} (ha : n ≤ a.length) (hb : n ≤ b.length) :
    a.take n = b.take n ∨ Precedes (a.take n) (b.take n) := by
  rw [← List.take_append_drop n a, ← List.take_append_drop n b] at h
  have hlen : (a.take n).length = (b.take n).length := by
    rw [List.length_take_of_le ha, List.length_take_of_le hb]
  rcases h.of_append_left with h | h
  · rcases h.of_append_right with h | h
    · exact Or.inr h
    · exact Or.inl (h.eq_of_length hlen.symm).symm
  · have hpre := List.prefix_of_prefix_length_le h (List.prefix_append _ _) hlen.le
    exact Or.inl (hpre.eq_of_length hlen)

theorem snoc_left_iff : Precedes (p ++ [x]) b ↔ Precedes p b ∨ ∃ y, x < y ∧ p ++ [y] <+: b := by
  constructor
  · intro h
    rcases h.of_append_left with h | ⟨t, rfl⟩
    · exact Or.inl h
    · cases t with
      | nil => exact absurd (by simp) h.not_isPrefix_right
      | cons y t =>
        have hxy : x < y := by simpa using h
        exact Or.inr ⟨y, hxy, by simp⟩
  · rintro (h | ⟨y, hxy, t, rfl⟩)
    · simpa using h.extend [x] []
    · simpa using hxy

theorem lt_of_snoc (h : Precedes (p ++ [x]) (p ++ [y])) : x < y := by simpa using h

end Precedes

structure Ascending (W : List (List α)) : Prop where
  pairwise : W.Pairwise Precedes
  nonempty : ∀ w ∈ W, w ≠ []

structure Least (W : List (List α)) (P : List α → Prop) (w : List α) : Prop where
  mem : w ∈ W
  prop : P w
  le : ∀ v ∈ W, P v → v = w ∨ Precedes w v

section Words

variable {W : List (List α)}

theorem Ascending.eq_or_precedes (h : Ascending W) {v w : List α} (hv : v ∈ W) (hw : w ∈ W) :
    v = w ∨ Precedes v w ∨ Precedes w v := by
  by_cases heq : v = w
  · exact Or.inl heq
  · refine Or.inr ?_
    have hsymm : Std.Symm (fun a b : List α => Precedes a b ∨ Precedes b a) :=
      ⟨fun _ _ => Or.symm⟩
    have hpair : W.Pairwise (fun a b => Precedes a b ∨ Precedes b a) := h.pairwise.imp Or.inl
    exact hpair.forall hv hw heq

theorem Ascending.eq_of_isPrefix (h : Ascending W) {v w : List α} (hv : v ∈ W) (hw : w ∈ W)
    (hvw : v <+: w) : v = w := by
  rcases h.eq_or_precedes hv hw with heq | hlt | hlt
  · exact heq
  · exact absurd hvw hlt.not_isPrefix
  · exact absurd hvw hlt.not_isPrefix_right

theorem Least.congr {P Q : List α → Prop} {w : List α} (h : Least W P w)
    (hPQ : ∀ v ∈ W, P v ↔ Q v) : Least W Q w :=
  ⟨h.mem, (hPQ w h.mem).mp h.prop, fun v hv hQ => h.le v hv ((hPQ v hv).mpr hQ)⟩

theorem Least.unique {P : List α → Prop} {v w : List α} (hv : Least W P v) (hw : Least W P w) :
    v = w := by
  rcases hw.le v hv.mem hv.prop with heq | hlt
  · exact heq
  · rcases hv.le w hw.mem hw.prop with heq | hgt
    · exact heq.symm
    · exact absurd hgt hlt.asymm

theorem Least.of_lt {P : List α → Prop} {p w : List α} {y : α}
    (h : Least W (fun v => p ++ [y] <+: v) w) (hP : P w)
    (hlater : ∀ v ∈ W, P v → Precedes (p ++ [y]) v ∨ p ++ [y] <+: v) : Least W P w := by
  refine ⟨h.mem, hP, fun v hv hPv => ?_⟩
  rcases hlater v hv hPv with hlt | hpre
  · exact Or.inr (hlt.mono h.prop List.prefix_rfl)
  · exact h.le v hv hpre

end Words

end Louds
