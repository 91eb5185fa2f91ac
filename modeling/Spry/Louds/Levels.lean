import Mathlib.Data.List.Dedup
import Mathlib.Data.List.Sort
import Spry.Louds.Words

/-!
# The levels of a trie

The trie of an ascending word list, level by level. Level `n` has the distinct prefixes of length
`n`, in order; those that are no words are its inner nodes. A trie stored in level order is a
forest: the items of some consecutive levels are the children of their nodes, and the items that
are no words are the nodes one level further down.
-/

namespace Louds

variable {α : Type*} [LinearOrder α] {W : List (List α)}

theorem eq_of_pairwise_of_mem_iff {l₁ l₂ : List (List α)} (h₁ : l₁.Pairwise Precedes)
    (h₂ : l₂.Pairwise Precedes) (hmem : ∀ x, x ∈ l₁ ↔ x ∈ l₂) : l₁ = l₂ := by
  have hnodup₁ : l₁.Nodup := h₁.imp Precedes.ne
  have hnodup₂ : l₂.Nodup := h₂.imp Precedes.ne
  apply List.Perm.eq_of_pairwise (fun _ _ _ _ hab hba => absurd hba hab.asymm) h₁ h₂
  exact (List.perm_ext_iff_of_nodup hnodup₁ hnodup₂).mpr hmem

theorem exists_append_cons_of_getElem? {β : Type*} {l : List β} {i : ℕ} {x : β}
    (h : l[i]? = some x) : ∃ A B, l = A ++ x :: B ∧ A.length = i := by
  obtain ⟨hi, rfl⟩ := List.getElem?_eq_some_iff.mp h
  refine ⟨l.take i, l.drop (i + 1), ?_, List.length_take_of_le hi.le⟩
  rw [List.getElem_cons_drop, List.take_append_drop]

/-- The prefixes of length `n` of the words, each once. -/
def prefixes (W : List (List α)) (n : ℕ) : List (List α) :=
  ((W.filter fun w => n ≤ w.length).map (List.take n)).dedup

theorem mem_prefixes {n : ℕ} {x : List α} :
    x ∈ prefixes W n ↔ x.length = n ∧ ∃ w ∈ W, x <+: w := by
  simp only [prefixes, List.mem_dedup, List.mem_map, List.mem_filter, decide_eq_true_eq]
  constructor
  · rintro ⟨w, ⟨hw, hn⟩, rfl⟩
    exact ⟨List.length_take_of_le hn, w, hw, List.take_prefix n w⟩
  · rintro ⟨rfl, w, hw, hx⟩
    exact ⟨w, ⟨hw, hx.length_le⟩, (List.prefix_iff_eq_take.mp hx).symm⟩

theorem length_of_mem_prefixes {n : ℕ} {x : List α} (hx : x ∈ prefixes W n) : x.length = n :=
  (mem_prefixes.mp hx).1

theorem take_mem_prefixes {m n : ℕ} {x : List α} (hx : x ∈ prefixes W n) (hmn : m ≤ n) :
    x.take m ∈ prefixes W m := by
  obtain ⟨rfl, w, hw, hxw⟩ := mem_prefixes.mp hx
  exact mem_prefixes.mpr ⟨List.length_take_of_le hmn, w, hw, (List.take_prefix m x).trans hxw⟩

theorem pairwise_prefixes (hW : W.Pairwise Precedes) (n : ℕ) :
    (prefixes W n).Pairwise Precedes := by
  have hcut : ((W.filter fun w => n ≤ w.length).map (List.take n)).Pairwise
      (fun a b => a = b ∨ Precedes a b) := by
    rw [List.pairwise_map]
    apply List.Pairwise.imp_of_mem _ (hW.filter fun w => n ≤ w.length)
    intro v w hv hw hvw
    have hv : n ≤ v.length := by simpa using (List.mem_filter.mp hv).2
    have hw : n ≤ w.length := by simpa using (List.mem_filter.mp hw).2
    exact hvw.take hv hw
  have hdedup := hcut.sublist (List.dedup_sublist _)
  exact (hdedup.and (List.nodup_dedup _)).imp fun h => h.1.resolve_left h.2

theorem filter_mem_prefixes (hW : W.Pairwise Precedes) (n : ℕ) :
    (prefixes W n).filter (· ∈ W) = W.filter fun w => w.length = n := by
  apply eq_of_pairwise_of_mem_iff ((pairwise_prefixes hW n).filter _) (hW.filter _)
  intro x
  simp only [List.mem_filter, mem_prefixes, decide_eq_true_eq]
  constructor
  · intro h
    exact ⟨h.2, h.1.1⟩
  · intro h
    exact ⟨⟨h.2, x, h.1, List.prefix_rfl⟩, h.1⟩

def nodes (W : List (List α)) (n : ℕ) : List (List α) := (prefixes W n).filter (· ∉ W)

def kids (W : List (List α)) (p : List α) : List (List α) :=
  (prefixes W (p.length + 1)).filter (p <+: ·)

theorem mem_nodes {n : ℕ} {p : List α} : p ∈ nodes W n ↔ p ∈ prefixes W n ∧ p ∉ W := by
  simp [nodes]

theorem pairwise_nodes (hW : W.Pairwise Precedes) (n : ℕ) : (nodes W n).Pairwise Precedes :=
  (pairwise_prefixes hW n).filter _

theorem nodes_zero (hW : Ascending W) (hne : W ≠ []) : nodes W 0 = [[]] := by
  apply eq_of_pairwise_of_mem_iff (pairwise_nodes hW.pairwise 0) (List.pairwise_singleton _ _)
  intro x
  rw [mem_nodes, mem_prefixes, List.mem_singleton]
  constructor
  · intro h
    exact List.eq_nil_of_length_eq_zero h.1.1
  · intro h
    obtain ⟨w, hw⟩ := List.exists_mem_of_ne_nil W hne
    exact h ▸ ⟨⟨rfl, w, hw, List.nil_prefix⟩, fun hmem => hW.nonempty _ hmem rfl⟩

theorem mem_kids {p x : List α} : x ∈ kids W p ↔ ∃ a, x = p ++ [a] ∧ ∃ w ∈ W, x <+: w := by
  simp only [kids, List.mem_filter, mem_prefixes, decide_eq_true_eq]
  constructor
  · rintro ⟨⟨hlen, hw⟩, t, rfl⟩
    obtain ⟨a, rfl⟩ : ∃ a, t = [a] := List.length_eq_one_iff.mp (by simpa using hlen)
    exact ⟨a, rfl, hw⟩
  · rintro ⟨a, rfl, hw⟩
    exact ⟨⟨by simp, hw⟩, List.prefix_append p [a]⟩

theorem pairwise_kids (hW : W.Pairwise Precedes) (p : List α) : (kids W p).Pairwise Precedes :=
  (pairwise_prefixes hW _).filter _

theorem not_mem_of_kid (hW : Ascending W) {p : List α} {a : α} (hx : p ++ [a] ∈ kids W p) :
    p ∉ W := by
  intro hp
  obtain ⟨_, _, w, hw, hpre⟩ := mem_kids.mp hx
  have heq := hW.eq_of_isPrefix hp hw ((List.prefix_append p [a]).trans hpre)
  have hlen : (p ++ [a]).length ≤ p.length := heq ▸ hpre.length_le
  rw [List.length_append, List.length_singleton] at hlen
  omega

theorem exists_kid_of_isPrefix {p w : List α} (hp : p ∉ W) (hw : w ∈ W) (hpw : p <+: w) :
    ∃ a, p ++ [a] ∈ kids W p ∧ p ++ [a] <+: w := by
  obtain ⟨t, rfl⟩ := hpw
  cases t with
  | nil => exact absurd (by simpa using hw) hp
  | cons a t =>
    have hpre : p ++ [a] <+: p ++ a :: t := by simp
    exact ⟨a, mem_kids.mpr ⟨a, rfl, _, hw, hpre⟩, hpre⟩

theorem kids_ne_nil {n : ℕ} {p : List α} (hp : p ∈ nodes W n) : kids W p ≠ [] := by
  obtain ⟨hpre, hnot⟩ := mem_nodes.mp hp
  obtain ⟨_, w, hw, hpw⟩ := mem_prefixes.mp hpre
  obtain ⟨a, ha, _⟩ := exists_kid_of_isPrefix hnot hw hpw
  exact List.ne_nil_of_mem ha

theorem pairwise_flatMap_kids (hW : W.Pairwise Precedes) {V : List (List α)}
    (hV : V.Pairwise Precedes) : (V.flatMap (kids W)).Pairwise Precedes := by
  rw [List.pairwise_flatMap]
  refine ⟨fun p _ => pairwise_kids hW p, hV.imp fun {p q} hpq x hx y hy => ?_⟩
  obtain ⟨a, rfl, _⟩ := mem_kids.mp hx
  obtain ⟨b, rfl, _⟩ := mem_kids.mp hy
  exact hpq.extend [a] [b]

theorem flatMap_kids (hW : Ascending W) (n : ℕ) :
    (nodes W n).flatMap (kids W) = prefixes W (n + 1) := by
  apply eq_of_pairwise_of_mem_iff
    (pairwise_flatMap_kids hW.pairwise (pairwise_nodes hW.pairwise n))
    (pairwise_prefixes hW.pairwise _)
  intro x
  rw [List.mem_flatMap]
  constructor
  · rintro ⟨p, hp, hx⟩
    obtain ⟨a, rfl, hw⟩ := mem_kids.mp hx
    have hlen := length_of_mem_prefixes (mem_nodes.mp hp).1
    exact mem_prefixes.mpr ⟨by simp [hlen], hw⟩
  · intro hx
    obtain ⟨hlen, w, hw, hpre⟩ := mem_prefixes.mp hx
    have hne : x ≠ [] := List.ne_nil_of_length_eq_add_one hlen
    have hsnoc : x.dropLast ++ [x.getLast hne] = x := List.dropLast_append_getLast hne
    have hkid : x ∈ kids W x.dropLast := mem_kids.mpr ⟨_, hsnoc.symm, w, hw, hpre⟩
    have hdepth : x.dropLast ∈ prefixes W n :=
      mem_prefixes.mpr ⟨by simp [hlen], w, hw, (List.dropLast_prefix x).trans hpre⟩
    have hinner : x.dropLast ∉ W := not_mem_of_kid hW (a := x.getLast hne) (by rwa [hsnoc])
    exact ⟨x.dropLast, mem_nodes.mpr ⟨hdepth, hinner⟩, hkid⟩

def isFirst (W : List (List α)) (x : List α) : Bool :=
  decide (∀ y ∈ prefixes W x.length, y.dropLast = x.dropLast → ¬ Precedes y x)

def runBits : ℕ → List Bool
  | 0 => []
  | n + 1 => true :: List.replicate n false

theorem isFirst_kid_iff {p x : List α} (hx : x ∈ kids W p) :
    isFirst W x = true ↔ ∀ y ∈ kids W p, ¬ Precedes y x := by
  obtain ⟨a, rfl, _⟩ := mem_kids.mp hx
  simp only [isFirst, decide_eq_true_eq, List.length_append, List.length_singleton,
    List.dropLast_concat]
  refine forall_congr' fun y => ?_
  constructor
  · intro h hy
    obtain ⟨b, rfl, hw⟩ := mem_kids.mp hy
    exact h (mem_prefixes.mpr ⟨by simp, hw⟩) (by simp)
  · intro h hy hp
    obtain ⟨hlen, hw⟩ := mem_prefixes.mp hy
    have hne : y ≠ [] := List.ne_nil_of_length_eq_add_one hlen
    have hsnoc : p ++ [y.getLast hne] = y := hp ▸ List.dropLast_append_getLast hne
    exact h (mem_kids.mpr ⟨_, hsnoc.symm, hw⟩)

theorem map_isFirst_kids (hW : W.Pairwise Precedes) (p : List α) :
    (kids W p).map (isFirst W) = runBits (kids W p).length := by
  have hsorted := pairwise_kids hW p
  cases hkids : kids W p with
  | nil => rfl
  | cons x xs =>
    have hmem : ∀ y ∈ x :: xs, y ∈ kids W p := fun y hy => hkids ▸ hy
    rw [hkids, List.pairwise_cons] at hsorted
    have hfirst : isFirst W x = true := by
      rw [isFirst_kid_iff (hmem x (by simp))]
      intro y hy hlt
      rw [hkids, List.mem_cons] at hy
      rcases hy with rfl | hy
      · exact hlt.irrefl
      · exact hlt.asymm (hsorted.1 y hy)
    have hlater : ∀ y ∈ xs, isFirst W y = false := by
      intro y hy
      rw [← Bool.not_eq_true, isFirst_kid_iff (hmem y (List.mem_cons_of_mem x hy))]
      exact fun h => h x (hmem x (by simp)) (hsorted.1 y hy)
    simp only [List.map_cons, hfirst, List.length_cons, runBits, List.cons.injEq, true_and]
    rw [List.eq_replicate_iff]
    exact ⟨List.length_map _, by simpa using hlater⟩

section Snoc

variable {w : List α} {n : ℕ}

theorem mem_prefixes_snoc {x : List α} :
    x ∈ prefixes (W ++ [w]) n ↔ x ∈ prefixes W n ∨ n ≤ w.length ∧ x = w.take n := by
  simp only [mem_prefixes, List.mem_append, List.mem_singleton]
  constructor
  · rintro ⟨rfl, v, hv | rfl, hx⟩
    · exact Or.inl ⟨rfl, v, hv, hx⟩
    · exact Or.inr ⟨hx.length_le, List.prefix_iff_eq_take.mp hx⟩
  · rintro (⟨rfl, v, hv, hx⟩ | ⟨hn, rfl⟩)
    · exact ⟨rfl, v, Or.inl hv, hx⟩
    · exact ⟨List.length_take_of_le hn, w, Or.inr rfl, List.take_prefix n w⟩

theorem eq_or_precedes_take (hW : (W ++ [w]).Pairwise Precedes) (hn : n ≤ w.length) {x : List α}
    (hx : x ∈ prefixes W n) : x = w.take n ∨ Precedes x (w.take n) := by
  obtain ⟨rfl, v, hv, hxv⟩ := mem_prefixes.mp hx
  have hvw : Precedes v w := (List.pairwise_append.mp hW).2.2 v hv w (by simp)
  rw [List.prefix_iff_eq_take.mp hxv]
  have hlen : (v.take x.length).length = x.length := List.length_take_of_le hxv.length_le
  rw [hlen]
  exact hvw.take hxv.length_le hn

theorem prefixes_snoc_of_mem (hW : (W ++ [w]).Pairwise Precedes)
    (hold : n ≤ w.length → w.take n ∈ prefixes W n) : prefixes (W ++ [w]) n = prefixes W n := by
  apply eq_of_pairwise_of_mem_iff (pairwise_prefixes hW n)
    (pairwise_prefixes (List.pairwise_append.mp hW).1 n)
  intro x
  rw [mem_prefixes_snoc]
  constructor
  · rintro (hx | ⟨hn, rfl⟩)
    · exact hx
    · exact hold hn
  · exact Or.inl

theorem prefixes_snoc_of_notMem (hW : (W ++ [w]).Pairwise Precedes) (hn : n ≤ w.length)
    (hnew : w.take n ∉ prefixes W n) : prefixes (W ++ [w]) n = prefixes W n ++ [w.take n] := by
  apply eq_of_pairwise_of_mem_iff (pairwise_prefixes hW n)
  · refine List.pairwise_append.mpr ⟨pairwise_prefixes (List.pairwise_append.mp hW).1 n,
      List.pairwise_singleton _ _, ?_⟩
    intro x hx y hy
    rw [List.mem_singleton.mp hy]
    exact (eq_or_precedes_take hW hn hx).resolve_left fun heq => hnew (heq ▸ hx)
  · intro x
    rw [mem_prefixes_snoc, List.mem_append, List.mem_singleton]
    simp [hn]

theorem take_notMem (hW : (W ++ [w]).Pairwise Precedes) (n : ℕ) : w.take n ∉ W := by
  intro hmem
  have hlt : Precedes (w.take n) w := (List.pairwise_append.mp hW).2.2 _ hmem w (by simp)
  exact hlt.not_isPrefix (List.take_prefix n w)

theorem ne_of_mem_prefixes (hW : (W ++ [w]).Pairwise Precedes) {x : List α}
    (hx : x ∈ prefixes W n) : x ≠ w := by
  rintro rfl
  obtain ⟨_, v, hv, hxv⟩ := mem_prefixes.mp hx
  exact ((List.pairwise_append.mp hW).2.2 v hv x (by simp)).not_isPrefix_right hxv

/-- Below a prefix that the new word shares with the old ones, the last old item is its child. -/
theorem exists_getLast?_prefixes (hW : Ascending (W ++ [w])) (hn : n < w.length)
    (hold : w.take n ∈ prefixes W n) :
    ∃ a, (prefixes W (n + 1)).getLast? = some (w.take n ++ [a]) ∧
      (a = w[n] ↔ w.take (n + 1) ∈ prefixes W (n + 1)) := by
  have hpair := (List.pairwise_append.mp hW.pairwise).1
  have hsnoc : w.take (n + 1) = w.take n ++ [w[n]] := List.take_succ_eq_append_getElem hn
  obtain ⟨_, v, hv, hpre⟩ := mem_prefixes.mp hold
  obtain ⟨b, hb, _⟩ := exists_kid_of_isPrefix (take_notMem hW.pairwise n) hv hpre
  obtain ⟨_, _, hbw⟩ := mem_kids.mp hb
  have hb : w.take n ++ [b] ∈ prefixes W (n + 1) := mem_prefixes.mpr ⟨by simp [hn.le], hbw⟩
  have hne : prefixes W (n + 1) ≠ [] := List.ne_nil_of_mem hb
  obtain ⟨x, hlast⟩ : ∃ x, (prefixes W (n + 1)).getLast? = some x :=
    ⟨_, List.getLast?_eq_some_getLast hne⟩
  have hx : x ∈ prefixes W (n + 1) := List.mem_of_getLast? hlast
  -- the last item is not before the child found, so it is a child of the same node
  have hmax : ∀ y ∈ prefixes W (n + 1), y = x ∨ Precedes y x := by
    intro y hy
    obtain ⟨init, hinit⟩ := List.getLast?_eq_some_iff.mp hlast
    have hsorted := pairwise_prefixes hpair (n + 1)
    rw [hinit] at hy hsorted
    rcases List.mem_append.mp hy with hy | hy
    · exact Or.inr ((List.pairwise_append.mp hsorted).2.2 y hy x (by simp))
    · exact Or.inl (List.mem_singleton.mp hy)
  have hxlen := length_of_mem_prefixes hx
  have hparent : x.take n = w.take n := by
    rcases eq_or_precedes_take hW.pairwise hn.le (take_mem_prefixes hx (Nat.le_add_right n 1)) with
      heq | hlt
    · exact heq
    · have hbefore : Precedes x (w.take n ++ [b]) :=
        hlt.mono (List.take_prefix n x) (List.prefix_append _ _)
      rcases hmax _ hb with heq | hafter
      · exact absurd heq hbefore.ne.symm
      · exact absurd hafter hbefore.asymm
  obtain ⟨a, ha⟩ : ∃ a, x = w.take n ++ [a] := by
    refine ⟨x[n], ?_⟩
    rw [← hparent, ← List.take_succ_eq_append_getElem, List.take_of_length_le hxlen.le]
  subst ha
  refine ⟨a, hlast, ?_, ?_⟩
  · rintro rfl
    exact hsnoc ▸ hx
  · intro hmem
    rw [hsnoc] at hmem
    rcases hmax _ hmem with heq | hlt
    · exact (List.append_singleton_inj.mp heq).2.symm
    · rcases eq_or_precedes_take hW.pairwise hn hx with heq | hgt
      · rw [hsnoc] at heq
        exact (List.append_singleton_inj.mp heq).2
      · exact absurd hlt (hsnoc ▸ hgt).asymm

theorem isFirst_snoc (hW : (W ++ [w]).Pairwise Precedes) {x : List α} (hx : x ∈ prefixes W n) :
    isFirst (W ++ [w]) x = isFirst W x := by
  have hlen := length_of_mem_prefixes hx
  subst hlen
  simp only [isFirst, decide_eq_decide]
  constructor
  · exact fun h y hy => h y (mem_prefixes_snoc.mpr (Or.inl hy))
  · intro h y hy hp hlt
    rcases mem_prefixes_snoc.mp hy with hy | ⟨hn, rfl⟩
    · exact h y hy hp hlt
    · rcases eq_or_precedes_take hW hn hx with heq | hgt
      · exact hlt.ne heq.symm
      · exact hlt.asymm hgt

theorem isFirst_snoc_take (hW : Ascending (W ++ [w])) (hn : n < w.length)
    (hnew : w.take (n + 1) ∉ prefixes W (n + 1)) :
    isFirst (W ++ [w]) (w.take (n + 1)) = decide (w.take n ∉ prefixes W n) := by
  have hlen : (w.take (n + 1)).length = n + 1 := List.length_take_of_le hn
  have hdrop : (w.take (n + 1)).dropLast = w.take n := by
    rw [List.dropLast_eq_take, hlen, List.take_take, Nat.add_sub_cancel,
      Nat.min_eq_left (Nat.le_add_right n 1)]
  simp only [isFirst, decide_eq_decide, hlen, hdrop]
  constructor
  · intro h hold
    obtain ⟨_, v, hv, hpre⟩ := mem_prefixes.mp hold
    obtain ⟨a, ha, _⟩ := exists_kid_of_isPrefix (take_notMem hW.pairwise n) hv hpre
    obtain ⟨_, _, hw⟩ := mem_kids.mp ha
    have hy : w.take n ++ [a] ∈ prefixes W (n + 1) :=
      mem_prefixes.mpr ⟨by simp [hn.le], hw⟩
    refine h _ (mem_prefixes_snoc.mpr (Or.inl hy)) (by simp) ?_
    exact (eq_or_precedes_take hW.pairwise hn hy).resolve_left fun heq => hnew (heq ▸ hy)
  · intro h y hy hp hlt
    rcases mem_prefixes_snoc.mp hy with hy | ⟨_, rfl⟩
    · have hparent := take_mem_prefixes hy (Nat.le_add_right n 1)
      have hylen := length_of_mem_prefixes hy
      rw [← hp, List.dropLast_eq_take, hylen] at h
      exact h hparent
    · exact hlt.irrefl

end Snoc

section LevelOrder

def nodesFrom (W : List (List α)) (s n : ℕ) : List (List α) :=
  (List.range' s n).flatMap (nodes W)

/-- The items of `n` levels: the children of the nodes from depth `s` on. -/
def itemsFrom (W : List (List α)) (s n : ℕ) : List (List α) :=
  (List.range' s n).flatMap fun ℓ => prefixes W (ℓ + 1)

variable (s n : ℕ)

theorem kids_ne_nil_of_mem_nodesFrom {s n : ℕ} {p : List α} (hp : p ∈ nodesFrom W s n) :
    kids W p ≠ [] := by
  obtain ⟨_, _, hp⟩ := List.mem_flatMap.mp hp
  exact kids_ne_nil hp

theorem length_lt_of_mem_nodesFrom {s n : ℕ} {p : List α} (hp : p ∈ nodesFrom W s n) :
    p.length < s + n := by
  obtain ⟨i, hi, hp⟩ := List.mem_flatMap.mp hp
  rw [length_of_mem_prefixes (mem_nodes.mp hp).1]
  exact (List.mem_range'_1.mp hi).2

theorem nodesFrom_succ : nodesFrom W s (n + 1) = nodesFrom W s n ++ nodes W (s + n) := by
  simp [nodesFrom, List.range'_concat]

theorem itemsFrom_eq_flatMap_kids (hW : Ascending W) :
    itemsFrom W s n = (nodesFrom W s n).flatMap (kids W) := by
  simp only [itemsFrom, nodesFrom, List.flatMap_assoc, flatMap_kids hW]

theorem filter_itemsFrom : (itemsFrom W s n).filter (· ∉ W) = nodesFrom W (s + 1) n := by
  induction n generalizing s with
  | zero => rfl
  | succ n ih =>
    simp only [itemsFrom, nodesFrom, List.range'_succ, List.flatMap_cons, List.filter_append]
    exact congrArg (nodes W (s + 1) ++ ·) (ih (s + 1))

theorem nodesFrom_eq (hbottom : nodes W (s + n + 1) = []) :
    nodesFrom W s (n + 1) = nodes W s ++ (itemsFrom W s (n + 1)).filter (· ∉ W) := by
  have hlast : nodesFrom W (s + 1) (n + 1) = nodesFrom W (s + 1) n := by
    rw [nodesFrom, List.range'_concat, List.flatMap_append]
    simp [nodesFrom, Nat.add_right_comm s 1 n, hbottom]
  rw [filter_itemsFrom, hlast, nodesFrom, List.range'_succ, List.flatMap_cons, nodesFrom]

end LevelOrder

end Louds
