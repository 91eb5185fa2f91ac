import Spry.Louds.Levels

/-!
# Rank and select on bit lists

In level order the bit that opens a node is the only set bit of the node's run, so the `r`-th node
starts where the `r`-th set bit is, and the number of set bits up to an item counts the nodes or
the inner items before it.
-/

namespace Louds

def rank (bits : List Bool) (pos : ℕ) : ℕ := (bits.take (pos + 1)).count true

/-- The position of the `r`-th set bit, counted from one. -/
def select : List Bool → ℕ → ℕ
  | [], _ => 0
  | true :: bits, r => if r ≤ 1 then 0 else select bits (r - 1) + 1
  | false :: bits, r => select bits r + 1

theorem rank_append_cons (A B : List Bool) (b : Bool) :
    rank (A ++ b :: B) A.length = A.count true + b.toNat := by
  have htake : (A ++ b :: B).take (A.length + 1) = A ++ [b] := by
    simp [List.take_append]
  rw [rank, htake, List.count_append]
  cases b with
  | true => rfl
  | false => rfl

theorem select_append (A B : List Bool) {r : ℕ} (hr : 0 < r) :
    select (A ++ B) (A.count true + r) = A.length + select B r := by
  induction A with
  | nil => simp
  | cons b A ih =>
    cases b with
    | true =>
      have hmany : ¬ A.count true + 1 + r ≤ 1 := by omega
      have hpred : A.count true + 1 + r - 1 = A.count true + r := by omega
      simp only [List.cons_append, List.count_cons_self, select, hmany, if_false, hpred, ih,
        List.length_cons]
      omega
    | false =>
      have hcount : (false :: A).count true = A.count true := by simp
      simp only [List.cons_append, hcount, select, ih, List.length_cons]
      omega

theorem count_map_decide {β : Type*} (l : List β) (P : β → Prop) [DecidablePred P] :
    (l.map fun x => decide (P x)).count true = (l.filter fun x => P x).length := by
  rw [List.count_eq_countP, List.countP_map, List.countP_eq_length_filter]
  congr 2
  funext x
  simp

section Runs

theorem count_runBits {n : ℕ} (hn : 0 < n) : (runBits n).count true = 1 := by
  obtain ⟨n, rfl⟩ := Nat.exists_eq_add_of_lt hn
  simp [runBits, List.count_replicate]

theorem length_runBits (n : ℕ) : (runBits n).length = n := by
  cases n with
  | zero => rfl
  | succ n => simp [runBits]

variable {β γ : Type*} (kids : β → List γ)

def loudsBits (V : List β) : List Bool := V.flatMap fun p => runBits (kids p).length

variable {kids}

theorem length_loudsBits (V : List β) : (loudsBits kids V).length = (V.flatMap kids).length := by
  induction V with
  | nil => rfl
  | cons p V ih =>
    rw [loudsBits, List.flatMap_cons, List.length_append, length_runBits, List.flatMap_cons,
      List.length_append, ← ih]
    rfl

theorem count_loudsBits {V : List β} (hV : ∀ p ∈ V, kids p ≠ []) :
    (loudsBits kids V).count true = V.length := by
  induction V with
  | nil => rfl
  | cons p V ih =>
    have hp : 0 < (kids p).length := List.length_pos_of_ne_nil (hV p (by simp))
    have hrest := ih fun q hq => hV q (List.mem_cons_of_mem p hq)
    rw [loudsBits, List.flatMap_cons, List.count_append, count_runBits hp, List.length_cons,
      ← hrest, Nat.add_comm]
    rfl

theorem loudsBits_eq_nil_or_cons {V : List β} (hV : ∀ p ∈ V, kids p ≠ []) :
    loudsBits kids V = [] ∨ ∃ bits, loudsBits kids V = true :: bits := by
  cases V with
  | nil => exact Or.inl rfl
  | cons p V =>
    obtain ⟨n, hn⟩ := Nat.exists_eq_succ_of_ne_zero
      (List.length_pos_of_ne_nil (hV p (by simp))).ne'
    exact Or.inr ⟨_, by rw [loudsBits, List.flatMap_cons, hn, runBits, List.cons_append]⟩

theorem select_loudsBits {A B : List β} {p : β} (hA : ∀ q ∈ A, kids q ≠ []) (hp : kids p ≠ []) :
    select (loudsBits kids (A ++ p :: B)) (A.length + 1) = (A.flatMap kids).length := by
  have hsplit : loudsBits kids (A ++ p :: B) =
      loudsBits kids A ++ (runBits (kids p).length ++ loudsBits kids B) := by
    simp [loudsBits]
  obtain ⟨n, hn⟩ := Nat.exists_eq_succ_of_ne_zero (List.length_pos_of_ne_nil hp).ne'
  have hfirst : select (runBits (kids p).length ++ loudsBits kids B) 1 = 0 := by
    simp [hn, runBits, select]
  rw [hsplit, ← count_loudsBits hA, select_append _ _ one_pos, hfirst, length_loudsBits,
    Nat.add_zero]

end Runs

section Nodes

variable {α : Type*} [LinearOrder α] {W : List (List α)}

theorem map_isFirst_prefixes (hW : Ascending W) (n : ℕ) :
    (prefixes W (n + 1)).map (isFirst W) = loudsBits (kids W) (nodes W n) := by
  rw [← flatMap_kids hW, List.map_flatMap]
  simp only [map_isFirst_kids hW.pairwise, loudsBits]

theorem countP_isFirst (hW : Ascending W) (n : ℕ) :
    (prefixes W (n + 1)).countP (isFirst W) = (nodes W n).length := by
  have hkids : ∀ p ∈ nodes W n, kids W p ≠ [] := fun p hp => kids_ne_nil hp
  rw [← count_loudsBits hkids, ← map_isFirst_prefixes hW, List.count_eq_countP, List.countP_map]
  congr 1
  funext x
  simp

end Nodes

end Louds
