import Spry.Louds.Levels

/-!
# Steps of a search in a trie

The steps that a search for the least word takes: down to the first child, over to the first child
behind a letter, and up when there is none. Each of them keeps the least word that is looked for.
-/

namespace Louds

variable {α : Type*} [LinearOrder α] {W : List (List α)} {p q v w : List α} {a b : α}

def Reaches (q w : List α) : Prop := q <+: w ∨ Precedes q w

section Least

theorem Ascending.least_self (hW : Ascending W) (hw : w ∈ W) : Least W (w <+: ·) w :=
  ⟨hw, List.prefix_rfl, fun _ hv hpre => Or.inl (hW.eq_of_isPrefix hw hv hpre).symm⟩

theorem Least.below {P : List α → Prop} {r : List α} (h : Least W P w) (hr : r <+: w) :
    Least W (fun v => r <+: v ∧ P v) w :=
  ⟨h.mem, ⟨hr, h.prop⟩, fun v hv hP => h.le v hv hP.2⟩

theorem Least.reaches (h : Least W (p <+: ·) w) : Least W (Reaches p) w := by
  refine ⟨h.mem, Or.inl h.prop, fun v hv hreach => ?_⟩
  rcases hreach with hpre | hlt
  · exact h.le v hv hpre
  · exact Or.inr (hlt.mono h.prop List.prefix_rfl)

end Least

section Kids

variable {A B : List (List α)}

theorem Least.of_first_kid (hW : W.Pairwise Precedes) (hp : p ∉ W) {x : List α}
    (hkids : kids W p = x :: B) (h : Least W (x <+: ·) w) : Least W (p <+: ·) w := by
  obtain ⟨a, rfl, _⟩ := mem_kids.mp (show x ∈ kids W p by simp [hkids])
  have hsorted := pairwise_kids hW p
  rw [hkids, List.pairwise_cons] at hsorted
  apply h.of_lt ((List.prefix_append p [a]).trans h.prop)
  intro v hv hpv
  obtain ⟨b, hb, hbv⟩ := exists_kid_of_isPrefix hp hv hpv
  rw [hkids, List.mem_cons] at hb
  rcases hb with heq | hb
  · exact Or.inr (heq ▸ hbv)
  · exact Or.inl ((hsorted.1 _ hb).mono List.prefix_rfl hbv)

theorem precedes_or_isPrefix_of_later_kid (hW : W.Pairwise Precedes)
    (hkids : kids W p = A ++ (p ++ [b]) :: B) (hA : ∀ c, p ++ [c] ∈ A → c ≤ a) (hv : v ∈ W)
    (h : Precedes (p ++ [a]) v) : Precedes (p ++ [b]) v ∨ p ++ [b] <+: v := by
  rcases Precedes.snoc_left_iff.mp h with hp | ⟨c, hac, hcv⟩
  · exact Or.inl (by simpa using hp.extend [b] [])
  · have hsorted := pairwise_kids hW p
    have hc : p ++ [c] ∈ kids W p := mem_kids.mpr ⟨c, rfl, v, hv, hcv⟩
    rw [hkids] at hc hsorted
    rcases List.mem_append.mp hc with hc | hc
    · exact absurd hac (not_lt.mpr (hA c hc))
    · rcases List.mem_cons.mp hc with heq | hc
      · exact Or.inr (heq ▸ hcv)
      · have hbc := (List.pairwise_cons.mp (List.pairwise_append.mp hsorted).2.1).1 _ hc
        exact Or.inl (hbc.mono List.prefix_rfl hcv)

theorem Least.of_later_kid (hW : W.Pairwise Precedes) (hkids : kids W p = A ++ (p ++ [b]) :: B)
    (hA : ∀ c, p ++ [c] ∈ A → c ≤ a) (hab : a < b) (h : Least W (p ++ [b] <+: ·) w) :
    Least W (Precedes (p ++ [a])) w := by
  apply h.of_lt (Precedes.snoc_left_iff.mpr (Or.inr ⟨b, hab, h.prop⟩))
  intro v hv hlt
  exact precedes_or_isPrefix_of_later_kid hW hkids hA hv hlt

theorem precedes_snoc_iff_of_no_later_kid (hall : ∀ c, p ++ [c] ∈ kids W p → c ≤ a)
    (hv : v ∈ W) : Precedes (p ++ [a]) v ↔ Precedes p v := by
  constructor
  · intro h
    rcases Precedes.snoc_left_iff.mp h with hp | ⟨c, hac, hcv⟩
    · exact hp
    · exact absurd hac (not_lt.mpr (hall c (mem_kids.mpr ⟨c, rfl, v, hv, hcv⟩)))
  · intro h
    exact h.mono (List.prefix_append _ _) List.prefix_rfl

end Kids

section Reaches

theorem not_reaches_of_precedes (h : Precedes w q) : ¬ Reaches q w := by
  intro hr
  rcases hr with hpre | hlt
  · exact h.not_isPrefix_right hpre
  · exact h.asymm hlt

theorem not_reaches_of_isPrefix (hpre : w <+: q) (hne : w ≠ q) : ¬ Reaches q w := by
  intro hr
  rcases hr with hpre' | hlt
  · exact hne (hpre.eq_of_length_le hpre'.length_le)
  · exact hlt.not_isPrefix_right hpre

theorem Ascending.not_isPrefix_of_kid (hW : Ascending W) (hp : p ∉ W) (hkids : kids W p ≠ [])
    (hw : w ∈ W) : ¬ w <+: p := by
  intro hpre
  obtain ⟨x, hx⟩ := List.exists_mem_of_ne_nil _ hkids
  obtain ⟨a, rfl, v, hv, hxv⟩ := mem_kids.mp hx
  have hpv : p <+: v := (List.prefix_append p [a]).trans hxv
  obtain rfl := hW.eq_of_isPrefix hw hv (hpre.trans hpv)
  exact hp (hpv.eq_of_length_le hpre.length_le ▸ hw)

theorem Ascending.not_isPrefix_of_missing_kid (hW : Ascending W) (hp : p ∉ W)
    (hkids : kids W p ≠ []) {rest : List α} (hmissing : p ++ [a] ∉ kids W p) (hw : w ∈ W) :
    ¬ w <+: p ++ a :: rest := by
  intro hpre
  have hsplit : p ++ a :: rest = (p ++ [a]) ++ rest := by simp
  rw [hsplit] at hpre
  rcases List.prefix_or_prefix_of_prefix hpre (List.prefix_append _ _) with hshort | hlong
  · rcases List.prefix_concat_iff.mp hshort with rfl | hshort
    · exact hmissing (mem_kids.mpr ⟨a, rfl, _, hw, List.prefix_rfl⟩)
    · exact hW.not_isPrefix_of_kid hp hkids hw hshort
  · exact hmissing (mem_kids.mpr ⟨a, rfl, w, hw, hlong⟩)

theorem Reaches.of_missing_kid {rest : List α} (hmissing : p ++ [a] ∉ kids W p) (hv : v ∈ W)
    (h : Reaches (p ++ a :: rest) v) : Precedes (p ++ [a]) v := by
  have hsplit : p ++ a :: rest = (p ++ [a]) ++ rest := by simp
  have hnot : ¬ p ++ [a] <+: v := fun hpre => hmissing (mem_kids.mpr ⟨a, rfl, v, hv, hpre⟩)
  rw [hsplit] at h
  rcases h with hpre | hlt
  · exact absurd ((List.prefix_append _ _).trans hpre) hnot
  · exact hlt.of_append_left.resolve_right hnot

theorem reaches_iff_precedes (hW : Ascending W) (hw : w ∈ W) (hpre : w <+: q) (hne : w ≠ q)
    (hv : v ∈ W) : Reaches q v ↔ Precedes w v := by
  constructor
  · intro h
    rcases hW.eq_or_precedes hw hv with rfl | hlt | hgt
    · exact absurd h (not_reaches_of_isPrefix hpre hne)
    · exact hlt
    · exact absurd h (not_reaches_of_precedes (hgt.mono List.prefix_rfl hpre))
  · intro h
    exact Or.inr (h.mono hpre List.prefix_rfl)

end Reaches

end Louds
