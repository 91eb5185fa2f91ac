import Spry.LoudsSparsePositions

/-!
# Seeking in the sparse levels

The iterator starts at a node of the start level and searches below it. It ends at the least word
below that node that is not before the query, or is invalid if there is none.
-/

namespace Spry

open Louds LabelVector

section Symbols

variable {W : List (List Symbol)} {p : List Symbol}

def kidSymbols (W : List (List Symbol)) (p : List Symbol) : List Symbol :=
  (kids W p).map fun x => x.getLastD ⊥

theorem map_itemLabel_kids : (kids W p).map itemLabel = (kidSymbols W p).map Symbol.label := by
  simp [kidSymbols, itemLabel, Function.comp_def]

theorem getElem?_kids {i : ℕ} {a : Symbol} (h : (kidSymbols W p)[i]? = some a) :
    (kids W p)[i]? = some (p ++ [a]) := by
  rw [kidSymbols, List.getElem?_map] at h
  obtain ⟨x, hx, hlast⟩ := Option.map_eq_some_iff.mp h
  obtain ⟨b, rfl, _⟩ := mem_kids.mp (List.mem_of_getElem? hx)
  rw [hx, ← hlast, List.getLastD_concat]

theorem getElem?_kidSymbols {i : ℕ} {a : Symbol} (h : (kids W p)[i]? = some (p ++ [a])) :
    (kidSymbols W p)[i]? = some a := by
  rw [kidSymbols, List.getElem?_map, h, Option.map_some, List.getLastD_concat]

theorem mem_kidSymbols {a : Symbol} : a ∈ kidSymbols W p ↔ p ++ [a] ∈ kids W p := by
  constructor
  · intro ha
    obtain ⟨i, hi⟩ := List.mem_iff_getElem?.mp ha
    exact List.mem_of_getElem? (getElem?_kids hi)
  · intro ha
    exact List.mem_map.mpr ⟨_, ha, List.getLastD_concat ..⟩

theorem TrieWords.nodeSymbols (hW : TrieWords W) (p : List Symbol) :
    NodeSymbols (kidSymbols W p) where
  pairwise := by
    rw [kidSymbols, List.pairwise_map]
    apply (pairwise_kids hW.pairwise p).imp_of_mem
    intro x y hx hy hxy
    obtain ⟨a, rfl, _⟩ := mem_kids.mp hx
    obtain ⟨b, rfl, _⟩ := mem_kids.mp hy
    simpa using hxy.lt_of_snoc
  sibling := by
    intro hbot
    obtain ⟨c, v, hv, hpre⟩ := hW.sibling p (hW.mem_of_bot_kid (mem_kidSymbols.mp hbot))
    have hc : (c : Symbol) ∈ kidSymbols W p :=
      mem_kidSymbols.mpr (mem_kids.mpr ⟨c, rfl, v, hv, hpre⟩)
    by_contra hlen
    have hone : (kidSymbols W p).length ≤ 1 := not_lt.mp hlen
    obtain ⟨a, ha⟩ := List.length_eq_one_iff.mp
      (le_antisymm hone (List.length_pos_of_mem hbot))
    rw [ha, List.mem_singleton] at hbot hc
    exact WithBot.bot_ne_coe (hbot.trans hc.symm)

theorem TrieWords.bot_iff_of_terminator (hW : TrieWords W) {i : ℕ} {a : Symbol}
    (h : (kidSymbols W p)[i]? = some a) (hlabel : a.label = kTerminator) :
    a = ⊥ ↔ i + 1 ≠ (kidSymbols W p).length := by
  have hS := hW.nodeSymbols p
  obtain ⟨hi, ha⟩ := List.getElem?_eq_some_iff.mp h
  have hlt {j k : ℕ} (hjk : j < k) (hk : k < (kidSymbols W p).length) :
      (kidSymbols W p)[j] < (kidSymbols W p)[k] :=
    List.pairwise_iff_getElem.mp hS.pairwise j k _ hk hjk
  induction a using WithBot.recBotCoe with
  | bot =>
    have hmany := hS.sibling (List.mem_of_getElem? h)
    have hfirst : i = 0 := by
      by_contra hne
      have hbefore := hlt (Nat.pos_of_ne_zero hne) hi
      rw [ha] at hbefore
      exact not_lt_bot hbefore
    simp only [true_iff]
    omega
  | coe c =>
    have hc : c = kTerminator := hlabel
    simp only [WithBot.coe_ne_bot, false_iff, not_not]
    by_contra hne
    have hnext := hlt (Nat.lt_succ_self i) (show i + 1 < (kidSymbols W p).length by omega)
    rw [ha, hc] at hnext
    obtain ⟨d, hd, hlarger⟩ := WithBot.lt_iff_exists_coe.mp hnext
    exact absurd (WithBot.coe_lt_coe.mp hlarger) (not_lt.mpr (Fin.le_last d))

end Symbols

namespace LoudsSparse

variable {t : LoudsSparse} {leaves : List Leaf} {n : ℕ} {p q r x : List Symbol} {pos start : ℕ}

section Labels

variable (ht : Encodes t leaves n)
include ht

theorem Encodes.isTerminator_eq (h : KidAt (words leaves) t.startLevel n p x pos) :
    (read t.labels pos == kTerminator && !t.isEndofNode pos) =
      decide (x.getLast? = some ⊥) := by
  rw [ht.read_eq h]
  obtain ⟨start, i, hrun, hi, rfl⟩ := h
  obtain ⟨hlt, hx⟩ := List.getElem?_eq_some_iff.mp hi
  obtain ⟨a, rfl, _⟩ := mem_kids.mp (List.mem_of_getElem? hi)
  have hlen : (kids (words leaves) p).length = (kidSymbols (words leaves) p).length := by
    rw [kidSymbols, List.length_map]
  have hlabel : itemLabel (p ++ [a]) = a.label := by rw [itemLabel, List.getLastD_concat]
  rw [ht.isEndofNode_eq hrun hlt, hlen, hlabel, Bool.eq_iff_iff]
  simp only [Bool.and_eq_true, beq_iff_eq, Bool.not_eq_true', decide_eq_false_iff_not,
    decide_eq_true_eq, List.getLast?_concat, Option.some.injEq]
  constructor
  · intro h
    exact (ht.trie.bot_iff_of_terminator (getElem?_kidSymbols hi) h.1).mpr h.2
  · intro hbot
    have hterm : a.label = kTerminator := by rw [hbot, Symbol.label_bot]
    exact ⟨hterm, (ht.trie.bot_iff_of_terminator (getElem?_kidSymbols hi) hterm).mp hbot⟩

theorem Encodes.search_eq (h : RunAt (words leaves) t.startLevel n p start)
    (hp : kids (words leaves) p ≠ []) (c : Fin 256) :
    (∃ found, search t.labels c start (t.nodeSize start) = some found ∧
        KidAt (words leaves) t.startLevel n p (p ++ [(c : Symbol)]) found) ∨
      (search t.labels c start (t.nodeSize start) = none ∧
        p ++ [(c : Symbol)] ∉ kids (words leaves) p) := by
  have hwindow := ht.window h
  rw [map_itemLabel_kids] at hwindow
  have hlen : t.nodeSize start = (kidSymbols (words leaves) p).length := by
    rw [ht.nodeSize_eq h hp, kidSymbols, List.length_map]
  rw [hlen, LabelVector.search_eq (ht.trie.nodeSymbols p) hwindow]
  cases hidx : (kidSymbols (words leaves) p).findIdx? fun a => a == (c : Symbol) with
  | none =>
    rw [List.findIdx?_eq_none_iff] at hidx
    refine Or.inr ⟨rfl, fun hmem => ?_⟩
    simpa using hidx c (mem_kidSymbols.mpr hmem)
  | some i =>
    obtain ⟨hi, hc, _⟩ := List.findIdx?_eq_some_iff_getElem.mp hidx
    have hget : (kidSymbols (words leaves) p)[i]? = some (c : Symbol) := by
      rw [List.getElem?_eq_getElem hi, beq_iff_eq.mp hc]
    exact Or.inl ⟨start + i, rfl, start, i, h, getElem?_kids hget, rfl⟩

theorem Encodes.searchGreaterThan_eq (h : RunAt (words leaves) t.startLevel n p start)
    (hp : kids (words leaves) p ≠ []) (c : Fin 256) :
    (∃ found b A B, searchGreaterThan t.labels c start (t.nodeSize start) = some found ∧
        KidAt (words leaves) t.startLevel n p (p ++ [b]) found ∧ (c : Symbol) < b ∧
        kids (words leaves) p = A ++ (p ++ [b]) :: B ∧ ∀ a, p ++ [a] ∈ A → a ≤ (c : Symbol)) ∨
      (searchGreaterThan t.labels c start (t.nodeSize start) = none ∧
        ∀ a, p ++ [a] ∈ kids (words leaves) p → a ≤ (c : Symbol)) := by
  have hwindow := ht.window h
  rw [map_itemLabel_kids] at hwindow
  have hlen : t.nodeSize start = (kidSymbols (words leaves) p).length := by
    rw [ht.nodeSize_eq h hp, kidSymbols, List.length_map]
  rw [hlen, LabelVector.searchGreaterThan_eq (ht.trie.nodeSymbols p) hwindow]
  cases hidx : (kidSymbols (words leaves) p).findIdx? fun a => (c : Symbol) < a with
  | none =>
    rw [List.findIdx?_eq_none_iff] at hidx
    refine Or.inr ⟨rfl, fun a ha => ?_⟩
    simpa using hidx a (mem_kidSymbols.mpr ha)
  | some i =>
    obtain ⟨hi, hb, hbefore⟩ := List.findIdx?_eq_some_iff_getElem.mp hidx
    have hget := getElem?_kids (List.getElem?_eq_getElem hi)
    obtain ⟨hlt, hx⟩ := List.getElem?_eq_some_iff.mp hget
    have hsplit : kids (words leaves) p = (kids (words leaves) p).take i ++
        (p ++ [(kidSymbols (words leaves) p)[i]]) :: (kids (words leaves) p).drop (i + 1) := by
      rw [← hx, List.getElem_cons_drop, List.take_append_drop]
    refine Or.inl ⟨start + i, _, _, _, rfl, ⟨start, i, h, hget, rfl⟩, by simpa using hb,
      hsplit, fun a ha => ?_⟩
    obtain ⟨j, hj⟩ := List.mem_iff_getElem?.mp ha
    rw [List.getElem?_take] at hj
    split_ifs at hj with hji
    obtain ⟨hjlt, hja⟩ := List.getElem?_eq_some_iff.mp (getElem?_kidSymbols hj)
    rw [← hja]
    simpa using hbefore j hji

end Labels

section Paths

/-- The entries of an iterator that has gone from the node `r` down to an item. -/
inductive PathTo (W : List (List Symbol)) (s n : ℕ) (r : List Symbol) :
    List Symbol → List (Fin 256 × ℕ) → Prop
  | root : PathTo W s n r r []
  | kid {p x : List Symbol} {path : List (Fin 256 × ℕ)} {pos : ℕ} (hp : PathTo W s n r p path)
      (hx : KidAt W s n p x pos) : PathTo W s n r x ((itemLabel x, pos) :: path)

variable {W : List (List Symbol)} {s : ℕ} {path : List (Fin 256 × ℕ)}

theorem PathTo.isPrefix (h : PathTo W s n r x path) : r <+: x := by
  induction h with
  | root => exact List.prefix_rfl
  | kid _ hx ih =>
    obtain ⟨a, rfl⟩ := hx.exists_snoc
    exact ih.trans (List.prefix_append _ _)

theorem PathTo.length_eq (h : PathTo W s n r x path) : x.length = r.length + path.length := by
  induction h with
  | root => simp
  | kid _ hx ih =>
    obtain ⟨a, rfl⟩ := hx.exists_snoc
    simp [ih, Nat.add_assoc]

theorem PathTo.labels_eq (h : PathTo W s n r x path) :
    (path.map Prod.fst).reverse = (x.drop r.length).map Symbol.label := by
  induction h with
  | root => simp
  | @kid p x path pos hp hx ih =>
    obtain ⟨a, rfl⟩ := hx.exists_snoc
    have hle : r.length ≤ p.length := hp.isPrefix.length_le
    simp [ih, itemLabel, List.drop_append_of_le_length hle]

structure At (t : LoudsSparse) (leaves : List Leaf) (n : ℕ) (r w : List Symbol) (iter : Iter) :
    Prop where
  mem : w ∈ words leaves
  isValid : iter.isValid = true
  path : PathTo (words leaves) t.startLevel n r w iter.path
  isAtTerminator : iter.isAtTerminator = decide (w.getLast? = some ⊥)

structure Exhausted (iter : Iter) : Prop where
  isValid : iter.isValid = false
  path : iter.path = []
  isAtTerminator : iter.isAtTerminator = false

end Paths

section Moves

variable (ht : Encodes t leaves n) {iter : Iter} {path : List (Fin 256 × ℕ)}
include ht

theorem Encodes.length_lt_of_notMem (hx : x ∉ words leaves)
    (hpre : ∃ w ∈ words leaves, x <+: w) : x.length < t.startLevel + n := by
  obtain ⟨w, hw, hxw⟩ := hpre
  by_contra hnot
  have hle : t.startLevel + n ≤ x.length := not_lt.mp hnot
  have hnode : x.take (t.startLevel + n) ∈ nodes (words leaves) (t.startLevel + n) := by
    rw [mem_nodes, mem_prefixes]
    refine ⟨⟨List.length_take_of_le hle, w, hw, (List.take_prefix _ _).trans hxw⟩, ?_⟩
    intro hmem
    have heq := ht.trie.eq_of_isPrefix hmem hw ((List.take_prefix _ _).trans hxw)
    have hxeq : x = w := hxw.eq_of_length_le (by
      rw [← heq]
      exact (List.take_prefix _ _).length_le)
    exact hx (hxeq ▸ hw)
  rw [ht.bottom] at hnode
  exact List.not_mem_nil hnode

theorem Encodes.finish_at (hp : PathTo (words leaves) t.startLevel n r p path)
    (hx : KidAt (words leaves) t.startLevel n p x pos) (hmem : x ∈ words leaves)
    (hpath : iter.path = (itemLabel x, pos) :: path) (hterm : iter.isAtTerminator = false) :
    At t leaves n r x (t.finish iter pos) where
  mem := hmem
  isValid := rfl
  path := by
    rw [finish, hpath]
    exact hp.kid hx
  isAtTerminator := by simp [finish, hterm, ht.isTerminator_eq hx]

theorem Encodes.exists_first_kid {num : ℕ} (hp : NodeAt (words leaves) t.startLevel n p num) :
    ∃ x B, kids (words leaves) p = x :: B ∧
      KidAt (words leaves) t.startLevel n p x (t.getFirstLabelPos num) := by
  have hrun := ht.getFirstLabelPos hp
  obtain ⟨A, C, hnodes, _⟩ := hp
  cases hkids : kids (words leaves) p with
  | nil =>
    have hmem : p ∈ nodesFrom (words leaves) t.startLevel n := by simp [hnodes]
    exact absurd hkids (kids_ne_nil_of_mem_nodesFrom hmem)
  | cons x B => exact ⟨x, B, rfl, _, 0, hrun, by simp [hkids], rfl⟩

theorem Encodes.descend_spec {fuel : ℕ} (hp : PathTo (words leaves) t.startLevel n r p path)
    (hx : KidAt (words leaves) t.startLevel n p x pos) (hinner : x ∉ words leaves)
    (hpath : iter.path = (itemLabel x, pos) :: path) (hterm : iter.isAtTerminator = false)
    (hfuel : t.startLevel + n ≤ x.length + fuel) :
    ∃ w, Least (words leaves) (x <+: ·) w ∧ At t leaves n r w (t.descend fuel pos iter) := by
  induction fuel generalizing p x pos path iter with
  | zero =>
    obtain ⟨_, _, hw⟩ := mem_kids.mp hx.mem_kids
    have hlt := ht.length_lt_of_notMem hinner hw
    omega
  | succ fuel ih =>
    obtain ⟨y, B, hkids, hy⟩ := ht.exists_first_kid (ht.getChildNodeNum hx hinner)
    have hpath' : (iter.append (itemLabel y)
        (t.getFirstLabelPos (t.getChildNodeNum pos))).path =
        (itemLabel y, t.getFirstLabelPos (t.getChildNodeNum pos)) ::
          (itemLabel x, pos) :: path := by
      rw [Iter.append, hpath]
    rw [descend, ht.read_eq hy, ht.hasChild_eq hy]
    by_cases hmem : y ∈ words leaves
    · have hleast := (ht.trie.least_self hmem).of_first_kid ht.trie.pairwise hinner hkids
      simp only [hmem, not_true_eq_false, decide_false, Bool.false_eq_true, if_false]
      exact ⟨y, hleast, ht.finish_at (hp.kid hx) hy hmem hpath' hterm⟩
    · obtain ⟨a, rfl⟩ := hy.exists_snoc
      obtain ⟨w, hleast, hat⟩ := ih (hp.kid hx) hy hmem hpath' hterm (by
        rw [List.length_append, List.length_singleton]
        omega)
      simp only [hmem, not_false_eq_true, decide_true, if_true]
      exact ⟨w, hleast.of_first_kid ht.trie.pairwise hinner hkids, hat⟩

theorem Encodes.moveToLeftMostKey_kid (hr : r.length = t.startLevel)
    (hp : PathTo (words leaves) t.startLevel n r p path)
    (hx : KidAt (words leaves) t.startLevel n p x pos)
    (hpath : iter.path = (itemLabel x, pos) :: path) (hterm : iter.isAtTerminator = false) :
    ∃ w, Least (words leaves) (x <+: ·) w ∧ At t leaves n r w (t.moveToLeftMostKey iter) := by
  have hne : iter.path ≠ [] := by simp [hpath]
  simp only [moveToLeftMostKey, hne, if_false]
  rw [hpath]
  simp only [ht.hasChild_eq hx]
  by_cases hmem : x ∈ words leaves
  · simp only [hmem, not_true_eq_false, decide_false, Bool.false_eq_true, if_false]
    exact ⟨x, ht.trie.least_self hmem, ht.finish_at hp hx hmem hpath hterm⟩
  · simp only [hmem, not_false_eq_true, decide_true, if_true]
    apply ht.descend_spec hp hx hmem hpath hterm
    have hlen := (hp.kid hx).length_eq
    rw [List.length_cons] at hlen
    rw [ht.height_eq]
    omega

theorem Encodes.moveToLeftMostKey_root (hr : r.length = t.startLevel) (hinner : r ∉ words leaves)
    (hnode : NodeAt (words leaves) t.startLevel n r iter.startNodeNum) (hpath : iter.path = [])
    (hterm : iter.isAtTerminator = false) :
    ∃ w, Least (words leaves) (r <+: ·) w ∧ At t leaves n r w (t.moveToLeftMostKey iter) := by
  obtain ⟨y, B, hkids, hy⟩ := ht.exists_first_kid hnode
  have happend : t.moveToLeftMostKey iter =
      t.moveToLeftMostKey (iter.append (itemLabel y) (t.getFirstLabelPos iter.startNodeNum)) := by
    simp [moveToLeftMostKey, hpath, Iter.append, ht.read_eq hy]
  have hpath' : (iter.append (itemLabel y) (t.getFirstLabelPos iter.startNodeNum)).path =
      [(itemLabel y, t.getFirstLabelPos iter.startNodeNum)] := by
    rw [Iter.append, hpath]
  obtain ⟨w, hleast, hat⟩ := ht.moveToLeftMostKey_kid hr PathTo.root hy hpath' hterm
  rw [happend]
  exact ⟨w, hleast.of_first_kid ht.trie.pairwise hinner hkids, hat⟩

theorem Encodes.moveToLeftMostKey_spec (hr : r.length = t.startLevel)
    (hp : PathTo (words leaves) t.startLevel n r p iter.path) (hinner : p ∉ words leaves)
    (hroot : NodeAt (words leaves) t.startLevel n r iter.startNodeNum)
    (hterm : iter.isAtTerminator = false) :
    ∃ w, Least (words leaves) (p <+: ·) w ∧ At t leaves n r w (t.moveToLeftMostKey iter) := by
  cases hpath : iter.path with
  | nil =>
    rw [hpath] at hp
    cases hp with
    | root => exact ht.moveToLeftMostKey_root hr hinner hroot hpath hterm
  | cons entry path =>
    rw [hpath] at hp
    cases hp with
    | kid hp hx => exact ht.moveToLeftMostKey_kid hr hp hx hpath hterm

end Moves

section Next

variable (ht : Encodes t leaves n) {iter : Iter} {path : List (Fin 256 × ℕ)}
include ht

theorem Encodes.le_of_index_le {i j : ℕ} {a b : Symbol}
    (hi : (kids (words leaves) p)[i]? = some (p ++ [a]))
    (hj : (kids (words leaves) p)[j]? = some (p ++ [b])) (hij : i ≤ j) : a ≤ b := by
  have hS := ht.trie.nodeSymbols p
  obtain ⟨hilt, rfl⟩ := List.getElem?_eq_some_iff.mp (getElem?_kidSymbols hi)
  obtain ⟨hjlt, rfl⟩ := List.getElem?_eq_some_iff.mp (getElem?_kidSymbols hj)
  rcases hij.eq_or_lt with rfl | hlt
  · exact le_rfl
  · exact (List.pairwise_iff_getElem.mp hS.pairwise i j hilt hjlt hlt).le

theorem Encodes.backtrack_spec (h : PathTo (words leaves) t.startLevel n r x path) :
    (t.backtrack path = [] ∧ ∀ v ∈ words leaves, r <+: v → ¬ Precedes x v) ∨
      ∃ p y pos rest, t.backtrack path = (itemLabel y, pos) :: rest ∧
        PathTo (words leaves) t.startLevel n r p rest ∧
        KidAt (words leaves) t.startLevel n p y pos ∧
        ∀ w, Least (words leaves) (y <+: ·) w →
          Least (words leaves) (fun v => r <+: v ∧ Precedes x v) w := by
  induction h with
  | root => exact Or.inl ⟨rfl, fun v _ hpre hlt => hlt.not_isPrefix hpre⟩
  | @kid p x path pos hp hx ih =>
    obtain ⟨start, i, hrun, hi, rfl⟩ := hx
    obtain ⟨hlt, _⟩ := List.getElem?_eq_some_iff.mp hi
    obtain ⟨a, rfl, _⟩ := mem_kids.mp (List.mem_of_getElem? hi)
    have hbehind := ht.behind_iff hrun hlt
    rw [backtrack]
    by_cases hlast : i + 1 = (kids (words leaves) p).length
    · rw [if_pos (hbehind.mpr hlast)]
      have hall : ∀ c, p ++ [c] ∈ kids (words leaves) p → c ≤ a := by
        intro c hc
        obtain ⟨j, hj⟩ := List.mem_iff_getElem?.mp hc
        obtain ⟨hjlt, _⟩ := List.getElem?_eq_some_iff.mp hj
        exact ht.le_of_index_le hj hi (by omega)
      have hup : ∀ v ∈ words leaves, Precedes (p ++ [a]) v ↔ Precedes p v := fun v hv =>
        precedes_snoc_iff_of_no_later_kid hall hv
      rcases ih with ⟨hnil, hnone⟩ | ⟨p', y, pos, rest, hcons, hp', hy, hleast⟩
      · exact Or.inl ⟨hnil, fun v hv hpre h => hnone v hv hpre ((hup v hv).mp h)⟩
      · refine Or.inr ⟨p', y, pos, rest, hcons, hp', hy, fun w hw => ?_⟩
        apply (hleast w hw).congr
        intro v hv
        rw [hup v hv]
    · rw [if_neg fun h => hlast (hbehind.mp h)]
      have hnext : i + 1 < (kids (words leaves) p).length := by omega
      have hget := List.getElem?_eq_getElem hnext
      obtain ⟨b, hb, _⟩ := mem_kids.mp (List.mem_of_getElem? hget)
      rw [hb] at hget
      have hy : KidAt (words leaves) t.startLevel n p (p ++ [b]) (start + i + 1) :=
        ⟨start, i + 1, hrun, hget, rfl⟩
      rw [ht.read_eq hy]
      refine Or.inr ⟨p, p ++ [b], start + i + 1, path, rfl, hp, hy, fun w hw => ?_⟩
      have hsplit : kids (words leaves) p = (kids (words leaves) p).take (i + 1) ++
          (p ++ [b]) :: (kids (words leaves) p).drop (i + 2) := by
        rw [← hb, List.getElem_cons_drop, List.take_append_drop]
      have hbefore : ∀ c, p ++ [c] ∈ (kids (words leaves) p).take (i + 1) → c ≤ a := by
        intro c hc
        obtain ⟨j, hj⟩ := List.mem_iff_getElem?.mp hc
        rw [List.getElem?_take] at hj
        split_ifs at hj with hji
        exact ht.le_of_index_le hj hi (by omega)
      have hab : a < b := by
        have hsorted := pairwise_kids ht.trie.pairwise p
        have hlt := List.pairwise_iff_getElem.mp hsorted i (i + 1) hlt hnext (by omega)
        rw [hb, (List.getElem?_eq_some_iff.mp hi).2] at hlt
        exact hlt.lt_of_snoc
      apply (hw.of_later_kid ht.trie.pairwise hsplit hbefore hab).below
      exact hp.isPrefix.trans ((List.prefix_append _ _).trans hw.prop)

def Found (t : LoudsSparse) (leaves : List Leaf) (n : ℕ) (r : List Symbol)
    (P : List Symbol → Prop) (iter : Iter) : Prop :=
  (∃ w, Least (words leaves) (fun v => r <+: v ∧ P v) w ∧ At t leaves n r w iter) ∨
    ((∀ v ∈ words leaves, r <+: v → ¬ P v) ∧ Exhausted iter)

omit ht in
theorem Found.congr {P Q : List Symbol → Prop} (h : Found t leaves n r P iter)
    (hPQ : ∀ v ∈ words leaves, r <+: v → (P v ↔ Q v)) : Found t leaves n r Q iter := by
  rcases h with ⟨w, hleast, hat⟩ | ⟨hnone, hex⟩
  · refine Or.inl ⟨w, hleast.congr fun v hv => ?_, hat⟩
    exact and_congr_right fun hr => hPQ v hv hr
  · exact Or.inr ⟨fun v hv hr hQ => hnone v hv hr ((hPQ v hv hr).mpr hQ), hex⟩

theorem Encodes.next_spec (hr : r.length = t.startLevel)
    (h : PathTo (words leaves) t.startLevel n r x iter.path) :
    Found t leaves n r (Precedes x) (t.next iter) := by
  rcases ht.backtrack_spec h with ⟨hnil, hnone⟩ | ⟨p, y, pos, rest, hcons, hp, hy, hleast⟩
  · refine Or.inr ⟨hnone, ?_⟩
    simp only [next, hnil, if_true]
    exact ⟨rfl, rfl, rfl⟩
  · simp only [next, hcons, reduceCtorEq, if_false]
    have hmove : ∃ w, Least (words leaves) (y <+: ·) w ∧ At t leaves n r w (t.moveToLeftMostKey
        { iter with path := (itemLabel y, pos) :: rest, isAtTerminator := false }) :=
      ht.moveToLeftMostKey_kid hr hp hy rfl rfl
    obtain ⟨w, hw, hat⟩ := hmove
    exact Or.inl ⟨w, hleast w hw, hat⟩

end Next

section Seek

variable (ht : Encodes t leaves n) {iter : Iter}
include ht

theorem Encodes.moveToLeftInNextSubtrie_spec (hr : r.length = t.startLevel)
    (hp : PathTo (words leaves) t.startLevel n r p iter.path)
    (hrun : RunAt (words leaves) t.startLevel n p start) (hkids : kids (words leaves) p ≠ [])
    (hterm : iter.isAtTerminator = false) (c : Fin 256) :
    Found t leaves n r (Precedes (p ++ [(c : Symbol)]))
      (t.moveToLeftInNextSubtrie start (t.nodeSize start) c iter) := by
  rw [moveToLeftInNextSubtrie]
  rcases ht.searchGreaterThan_eq hrun hkids c with
    ⟨found, b, A, B, hfound, hkid, hcb, hsplit, hA⟩ | ⟨hnone, hall⟩
  · rw [hfound]
    simp only [ht.read_eq hkid]
    obtain ⟨w, hw, hat⟩ := ht.moveToLeftMostKey_kid hr hp hkid
      (show (iter.append (itemLabel (p ++ [b])) found).path = _ from rfl) hterm
    refine Or.inl ⟨w, (hw.of_later_kid ht.trie.pairwise hsplit hA hcb).below ?_, hat⟩
    exact hp.isPrefix.trans ((List.prefix_append _ _).trans hw.prop)
  · rw [hnone]
    have hpos := List.length_pos_of_ne_nil hkids
    have hlast := List.getElem?_eq_getElem
      (show (kids (words leaves) p).length - 1 < (kids (words leaves) p).length by omega)
    obtain ⟨a, ha, _⟩ := mem_kids.mp (List.mem_of_getElem? hlast)
    rw [ha] at hlast
    have hkid : KidAt (words leaves) t.startLevel n p (p ++ [a])
        (start + t.nodeSize start - 1) := by
      refine ⟨start, _, hrun, hlast, ?_⟩
      rw [ht.nodeSize_eq hrun hkids]
      omega
    simp only [ht.read_eq hkid]
    have hnext := ht.next_spec hr
      (show PathTo (words leaves) t.startLevel n r (p ++ [a])
        (iter.append (itemLabel (p ++ [a])) (start + t.nodeSize start - 1)).path from hp.kid hkid)
    apply hnext.congr
    intro v hv _
    -- no child lies behind the missing byte, nor behind the last child
    have hle : ∀ b, p ++ [b] ∈ kids (words leaves) p → b ≤ a := by
      intro b hb
      obtain ⟨j, hj⟩ := List.mem_iff_getElem?.mp hb
      obtain ⟨hjlt, _⟩ := List.getElem?_eq_some_iff.mp hj
      exact ht.le_of_index_le hj hlast (by omega)
    rw [precedes_snoc_iff_of_no_later_kid hle hv, precedes_snoc_iff_of_no_later_kid hall hv]

theorem Encodes.seekFrom_nil (direct : Bool) (hr : r.length = t.startLevel) {level : ℕ}
    (hp : PathTo (words leaves) t.startLevel n r p iter.path)
    (hrun : RunAt (words leaves) t.startLevel n p start) (hinner : p ∉ words leaves)
    (hkids : kids (words leaves) p ≠ [])
    (hroot : NodeAt (words leaves) t.startLevel n r iter.startNodeNum)
    (hterm : iter.isAtTerminator = false) :
    Found t leaves n r (Reaches p) (t.seekFrom direct [] level start none iter) := by
  obtain ⟨y, B, hcons⟩ := List.exists_cons_of_ne_nil hkids
  have hy : KidAt (words leaves) t.startLevel n p y start :=
    ⟨start, 0, hrun, by simp [hcons], rfl⟩
  rw [seekFrom]
  simp only
  split_ifs with hcond
  · obtain ⟨hlabel, hleaf, hend⟩ := hcond
    rw [ht.hasChild_eq hy] at hleaf
    have hmem : y ∈ words leaves := by simpa using hleaf
    have hbot := ht.isTerminator_eq hy
    rw [hlabel, hend, beq_self_eq_true, Bool.and_self] at hbot
    have hleast := (ht.trie.least_self hmem).of_first_kid ht.trie.pairwise hinner hcons
    refine Or.inl ⟨y, hleast.reaches.below (hp.isPrefix.trans hleast.prop), hmem, rfl, ?_, hbot⟩
    rw [← hlabel, ht.read_eq hy]
    exact hp.kid hy
  · obtain ⟨w, hleast, hat⟩ := ht.moveToLeftMostKey_spec hr hp hinner hroot hterm
    exact Or.inl ⟨w, hleast.reaches.below (hp.isPrefix.trans hleast.prop), hat.mem, rfl, hat.path,
      hat.isAtTerminator⟩

theorem Encodes.terminator_iff (hrun : RunAt (words leaves) t.startLevel n p start)
    (hkids : kids (words leaves) p ≠ []) :
    (1 < t.nodeSize start ∧ LabelVector.read t.labels start = kTerminator) ↔
      p ++ [⊥] ∈ words leaves := by
  rw [ht.nodeSize_eq hrun hkids]
  obtain ⟨y, B, hcons⟩ := List.exists_cons_of_ne_nil hkids
  have hget : (kids (words leaves) p)[0]? = some y := by simp [hcons]
  have hy : KidAt (words leaves) t.startLevel n p y start := ⟨start, 0, hrun, hget, rfl⟩
  have hlast := ht.isEndofNode_eq hrun (show 0 < (kids (words leaves) p).length by simp [hcons])
  have hbot := ht.isTerminator_eq hy
  rw [Nat.add_zero] at hlast
  rw [hlast] at hbot
  obtain ⟨a, rfl⟩ := hy.exists_snoc
  constructor
  · rintro ⟨hsize, hlabel⟩
    rw [hlabel, decide_eq_false (by omega), beq_self_eq_true] at hbot
    have ha : a = ⊥ := by simpa using hbot
    rw [ha] at hy
    exact ht.trie.mem_of_bot_kid hy.mem_kids
  · intro hmem
    -- nothing comes before the terminator, and a byte follows it
    have hsymbol : ⊥ ∈ kidSymbols (words leaves) p :=
      mem_kidSymbols.mpr (mem_kids.mpr ⟨⊥, rfl, _, hmem, List.prefix_rfl⟩)
    have hS := ht.trie.nodeSymbols p
    have hmany := hS.sibling hsymbol
    rw [kidSymbols, List.length_map] at hmany
    have ha : a = ⊥ := by
      obtain ⟨i, hi⟩ := List.mem_iff_getElem?.mp hsymbol
      exact le_bot_iff.mp (ht.le_of_index_le hget (getElem?_kids hi) (Nat.zero_le i))
    refine ⟨hmany, ?_⟩
    rw [ht.read_eq hy, ha, itemLabel, List.getLastD_concat, Symbol.label_bot]

/-- What a seek ends with: in direct mode the word that is a prefix of the query, if there is one,
and else the least word that reaches it. -/
def Sought (t : LoudsSparse) (leaves : List Leaf) (n : ℕ) (r : List Symbol) (direct : Bool)
    (q : List Symbol) (iter : Iter) : Prop :=
  (direct = true ∧ ∃ w, w <+: q ∧ At t leaves n r w iter) ∨
    ((direct = true → ∀ w ∈ words leaves, ¬ w <+: q) ∧ Found t leaves n r (Reaches q) iter)

omit ht in
/-- Following the byte `c` takes the path to the child of that byte. -/
theorem PathTo.append {c : Fin 256} {found : ℕ}
    (hp : PathTo (words leaves) t.startLevel n r p iter.path)
    (hkid : KidAt (words leaves) t.startLevel n p (p ++ [(c : Symbol)]) found) :
    PathTo (words leaves) t.startLevel n r (p ++ [(c : Symbol)]) (iter.append c found).path := by
  have hlabel : itemLabel (p ++ [(c : Symbol)]) = c := by simp [itemLabel]
  have hkidpath := hp.kid hkid
  rwa [hlabel] at hkidpath

theorem Encodes.runAt_child {x : List Symbol} {found : ℕ}
    (hkid : KidAt (words leaves) t.startLevel n p x found) (hx : x ∉ words leaves) :
    RunAt (words leaves) t.startLevel n x (t.getFirstLabelPos (t.getChildNodeNum found)) ∧
      kids (words leaves) x ≠ [] := by
  have hnode := ht.getChildNodeNum hkid hx
  obtain ⟨y, B, hcons, _⟩ := ht.exists_first_kid hnode
  exact ⟨ht.getFirstLabelPos hnode, by simp [hcons]⟩

/-- Where the node has no child for the byte, the words that reach the query are those behind the
byte. -/
theorem Encodes.found_missing (hr : r.length = t.startLevel) {c : Fin 256} (rest : Bytes)
    (hp : PathTo (words leaves) t.startLevel n r p iter.path)
    (hrun : RunAt (words leaves) t.startLevel n p start) (hkids : kids (words leaves) p ≠ [])
    (hterm : iter.isAtTerminator = false)
    (hmissing : p ++ [(c : Symbol)] ∉ kids (words leaves) p) :
    Found t leaves n r (Reaches (p ++ symbols (c :: rest)))
      (t.moveToLeftInNextSubtrie start (t.nodeSize start) c iter) := by
  have hassoc : p ++ symbols (c :: rest) = p ++ [(c : Symbol)] ++ symbols rest := by
    simp [symbols]
  apply (ht.moveToLeftInNextSubtrie_spec hr hp hrun hkids hterm c).congr
  intro v hv _
  constructor
  · intro h
    rw [hassoc]
    exact Or.inr (h.mono (List.prefix_append _ _) List.prefix_rfl)
  · exact Reaches.of_missing_kid hmissing hv

/-- What the loop does with the next byte: it ends at a leaf, goes on at a child and remembers a
terminator there, or finds no child. -/
theorem Encodes.seekFrom_cons (hrun : RunAt (words leaves) t.startLevel n p start)
    (hkids : kids (words leaves) p ≠ []) (direct : Bool) (c : Fin 256) (rest : Bytes) (level : ℕ)
    (matched : Option ℕ) (iter : Iter) :
    (∃ found, KidAt (words leaves) t.startLevel n p (p ++ [(c : Symbol)]) found ∧
        p ++ [(c : Symbol)] ∈ words leaves ∧
        t.seekFrom direct (c :: rest) level start matched iter =
          if direct || rest.isEmpty then { iter.append c found with isValid := true }
          else t.next (iter.append c found)) ∨
      (∃ found next, KidAt (words leaves) t.startLevel n p (p ++ [(c : Symbol)]) found ∧
        p ++ [(c : Symbol)] ∉ words leaves ∧
        RunAt (words leaves) t.startLevel n (p ++ [(c : Symbol)]) next ∧
        kids (words leaves) (p ++ [(c : Symbol)]) ≠ [] ∧
        t.seekFrom direct (c :: rest) level start matched iter =
          t.seekFrom direct rest (level + 1) next
            (if direct = true ∧ p ++ [(c : Symbol)] ++ [⊥] ∈ words leaves then some level
              else matched) (iter.append c found)) ∨
      (p ++ [(c : Symbol)] ∉ kids (words leaves) p ∧
        t.seekFrom direct (c :: rest) level start matched iter =
          matched.elim (t.moveToLeftInNextSubtrie start (t.nodeSize start) c iter)
            fun m => { iter with isValid := true }.setKeyLen m) := by
  rcases ht.search_eq hrun hkids c with ⟨found, hfound, hkid⟩ | ⟨hnone, hmissing⟩
  · by_cases hmem : p ++ [(c : Symbol)] ∈ words leaves
    · refine Or.inl ⟨found, hkid, hmem, ?_⟩
      simp only [seekFrom, hfound, ht.hasChild_eq hkid, hmem, not_true_eq_false, decide_false,
        Bool.not_false, if_true]
    · obtain ⟨hrun', hkids'⟩ := ht.runAt_child hkid hmem
      refine Or.inr (Or.inl ⟨found, _, hkid, hmem, hrun', hkids', ?_⟩)
      simp only [seekFrom, hfound, ht.hasChild_eq hkid, hmem, not_false_eq_true, decide_true,
        Bool.not_true, Bool.false_eq_true, if_false, ht.terminator_iff hrun' hkids']
  · refine Or.inr (Or.inr ⟨hmissing, ?_⟩)
    cases matched with
    | none => simp only [seekFrom, hnone, Option.elim_none]
    | some m => simp only [seekFrom, hnone, Option.elim_some]

theorem Encodes.seekFrom_spec {direct : Bool}
    (hdirect : direct = true → ∀ p, p ++ [⊥] ∉ words leaves) (hr : r.length = t.startLevel)
    {rest : Bytes} {level : ℕ}
    (hp : PathTo (words leaves) t.startLevel n r p iter.path)
    (hrun : RunAt (words leaves) t.startLevel n p start) (hinner : p ∉ words leaves)
    (hkids : kids (words leaves) p ≠ [])
    (hroot : NodeAt (words leaves) t.startLevel n r iter.startNodeNum)
    (hterm : iter.isAtTerminator = false) :
    Sought t leaves n r direct (p ++ symbols rest)
      (t.seekFrom direct rest level start none iter) := by
  have hW := ht.trie.toAscending
  induction rest generalizing p start level iter with
  | nil =>
    have hq : p ++ symbols [] = p := by simp [symbols]
    rw [hq]
    exact Or.inr ⟨fun _ w hw => hW.not_isPrefix_of_kid hinner hkids hw,
      ht.seekFrom_nil direct hr hp hrun hinner hkids hroot hterm⟩
  | cons c rest ih =>
    have hassoc : p ++ symbols (c :: rest) = p ++ [(c : Symbol)] ++ symbols rest := by
      simp [symbols]
    rcases ht.seekFrom_cons hrun hkids direct c rest level none iter with
      ⟨found, hkid, hmem, heq⟩ | ⟨found, next, hkid, hmem, hrun', hkids', heq⟩ | ⟨hmissing, heq⟩
    · -- the query goes on behind a word, or is that word
      have hpath := hp.append hkid
      have hat : At t leaves n r (p ++ [(c : Symbol)])
          { iter.append c found with isValid := true } := by
        refine ⟨hmem, rfl, hpath, ?_⟩
        simpa [Iter.append] using hterm
      rw [heq]
      cases hmode : direct with
      | true =>
        simp only [Bool.true_or, if_true]
        rw [hassoc]
        exact Or.inl ⟨rfl, _, List.prefix_append _ _, hat⟩
      | false =>
        refine Or.inr ⟨fun h => absurd h Bool.false_ne_true, ?_⟩
        cases rest with
        | nil =>
          simp only [List.isEmpty_nil, Bool.false_or, if_true]
          have hleast := (ht.trie.least_self hmem).reaches
          exact Or.inl ⟨_, hleast.below hpath.isPrefix, hat⟩
        | cons d rest =>
          simp only [List.isEmpty_cons, Bool.false_or, Bool.false_eq_true, if_false]
          apply (ht.next_spec hr hpath).congr
          intro v hv _
          rw [hassoc]
          exact (reaches_iff_precedes hW hmem (List.prefix_append _ _)
            (by simp [symbols]) hv).symm
    · rw [heq, if_neg fun h => hdirect h.1 _ h.2, hassoc]
      exact ih (hp.append hkid) hrun' hmem hkids' hroot hterm
    · rw [heq, Option.elim_none]
      exact Or.inr ⟨fun _ w hw => hW.not_isPrefix_of_missing_kid hinner hkids hmissing hw,
        ht.found_missing hr rest hp hrun hkids hterm hmissing⟩

theorem Encodes.moveToNextCommonPrefixKey_spec {direct : Bool} {key : Bytes}
    (hdirect : direct = true → ∀ p, p ++ [⊥] ∉ words leaves) (hr : r.length = t.startLevel)
    (hinner : r ∉ words leaves)
    (hroot : NodeAt (words leaves) t.startLevel n r iter.startNodeNum) (hpath : iter.path = [])
    (hterm : iter.isAtTerminator = false) :
    Sought t leaves n r direct (r ++ symbols (key.drop t.startLevel))
      (t.moveToNextCommonPrefixKey direct key iter) := by
  obtain ⟨y, B, hcons, _⟩ := ht.exists_first_kid hroot
  apply ht.seekFrom_spec hdirect hr _ (ht.getFirstLabelPos hroot) hinner (by simp [hcons]) hroot
    hterm
  rw [hpath]
  exact PathTo.root

end Seek

section Result

variable {iter : Iter} {w : List Symbol}

theorem At.getKey_eq {key : Bytes} (h : At t leaves n r w iter) (hr : r.length < w.length)
    (hw : w = symbols key ∨ w = symbols key ++ [⊥]) : iter.getKey = key.drop r.length := by
  have hlabels := h.path.labels_eq
  have hbytes : ((symbols key).drop r.length).map Symbol.label = key.drop r.length := by
    rw [symbols, ← List.map_drop, List.map_map]
    exact List.map_id _
  rw [Iter.getKey, h.isValid, h.isAtTerminator]
  rcases hw with rfl | rfl
  · have hlast : (symbols key).getLast? ≠ some ⊥ := fun hlast =>
      bot_notMem_symbols key (List.mem_of_getLast? hlast)
    simp only [hlast, decide_false, Bool.false_eq_true, if_false, if_true]
    rw [hlabels, hbytes]
  · have hle : r.length ≤ (symbols key).length := by
      rw [List.length_append, List.length_singleton] at hr
      omega
    simp only [List.getLast?_concat, decide_true, if_true]
    rw [List.map_tail, ← List.dropLast_reverse, hlabels, List.drop_append_of_le_length hle,
      List.map_append, List.map_singleton, List.dropLast_concat, hbytes]

theorem At.exists_kid (h : At t leaves n r w iter) (hr : r.length < w.length) :
    ∃ p pos path, iter.path = (itemLabel w, pos) :: path ∧
      KidAt (words leaves) t.startLevel n p w pos := by
  have hpath := h.path
  generalize iter.path = entries at hpath
  cases hpath with
  | root => exact absurd hr (Nat.lt_irrefl _)
  | kid _ hx => exact ⟨_, _, _, rfl, hx⟩

theorem At.getParentheses_eq (ht : Encodes t leaves n) {e : Leaf} (he : e ∈ leaves)
    (h : At t leaves n r e.word iter) (hr : r.length < e.word.length) :
    t.getLeftParenthesis iter = some e.left ∧ t.getRightParenthesis iter = some e.right := by
  obtain ⟨p, pos, path, hpath, hkid⟩ := h.exists_kid hr
  rw [LoudsSparse.getLeftParenthesis, LoudsSparse.getRightParenthesis, hpath, List.head?_cons,
    Option.map_some, Option.map_some, ht.getLeftParenthesis_eq he hkid,
    ht.getRightParenthesis_eq he hkid]
  exact ⟨rfl, rfl⟩

end Result

end LoudsSparse

end Spry
