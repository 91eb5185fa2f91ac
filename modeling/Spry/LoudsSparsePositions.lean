import Spry.Louds.Search
import Spry.LoudsSparse
import Spry.SuRFLevels

/-!
# Positions in the sparse levels

The arrays of the sparse levels, read at a position, give the item there: its label, whether it is
a word, whether it is the last child of its node, and where its own children start.
-/

namespace Spry

open Louds HalfOpen

namespace Bitvector

/-- The last node ends in the word in which its second label would be, so that no padding counts
to its size. -/
def LastNodeFits (bits : List Bool) : Prop :=
  ∀ pos < bits.length, readBit bits pos = true →
    (∀ q < bits.length, pos < q → readBit bits q = false) →
      pos + 1 = bits.length ∨ (pos + 1) / kWordSize = numWords bits - 1 ∨
        bits.length % kWordSize = 0

instance (bits : List Bool) : Decidable (LastNodeFits bits) := by
  unfold LastNodeFits
  infer_instance

variable {A B : List Bool} {k : ℕ}

theorem readBit_run (i : ℕ) (hi : i < k) :
    readBit (A ++ (runBits k ++ B)) (A.length + i) = decide (i = 0) := by
  obtain ⟨n, rfl⟩ := Nat.exists_eq_add_of_lt (show 0 < k by omega)
  rw [readBit, List.getD_append_right _ _ _ _ (by omega), Nat.add_sub_cancel_left,
    List.getD_append _ _ _ _ (by rwa [length_runBits])]
  cases i with
  | zero => simp [runBits]
  | succ i =>
    have hin : i < n := by omega
    simp [runBits, List.getD_eq_getElem?_getD, hin]

theorem readBit_behind_run (hB : B = [] ∨ ∃ B', B = true :: B') :
    (A ++ (runBits k ++ B)).length ≤ A.length + k ∨
      readBit (A ++ (runBits k ++ B)) (A.length + k) = true := by
  rcases hB with rfl | ⟨B', rfl⟩
  · exact Or.inl (by simp [length_runBits])
  · refine Or.inr ?_
    rw [readBit, List.getD_append_right _ _ _ _ (by omega), Nat.add_sub_cancel_left,
      List.getD_append_right _ _ _ _ (by rw [length_runBits]), length_runBits, Nat.sub_self]
    rfl

theorem distanceToNextSetBit_run (hk : 0 < k) (hB : B = [] ∨ ∃ B', B = true :: B')
    (hfits : LastNodeFits (A ++ (runBits k ++ B)))
    (hlast : A.length ≠ (A ++ (runBits k ++ B)).length - 1) :
    distanceToNextSetBit (A ++ (runBits k ++ B)) A.length = k := by
  obtain ⟨n, rfl⟩ := Nat.exists_eq_add_of_lt hk
  have hdrop : (A ++ (runBits (0 + n + 1) ++ B)).drop (A.length + 1) =
      List.replicate n false ++ B := by
    rw [Nat.zero_add, runBits, List.cons_append, List.drop_append]
    simp
  have hnone : (List.replicate n false).findIdx? id = none := by simp
  rw [distanceToNextSetBit, nextSetBit, hdrop, List.findIdx?_append, hnone]
  rcases hB with rfl | ⟨B', rfl⟩
  · have hlen : (A ++ (runBits (0 + n + 1) ++ [])).length = A.length + (n + 1) := by
      simp [length_runBits]
    have hbit (i : ℕ) (hi : i < 0 + n + 1) :
        readBit (A ++ (runBits (0 + n + 1) ++ [])) (A.length + i) = decide (i = 0) :=
      readBit_run i hi
    have hpadding := hfits A.length (by omega) (hbit 0 hk) (by
      intro q hq hlt
      obtain ⟨i, rfl⟩ := Nat.exists_eq_add_of_lt hlt
      exact (hbit (i + 1) (by omega)).trans (by simp))
    rw [hlen] at hpadding hlast ⊢
    simp only [List.findIdx?_nil, Option.map_none, Option.or_none]
    rcases hpadding with hend | hword | hfull
    · omega
    · rw [if_pos hword]
      omega
    · have hwords : kWordSize * numWords (A ++ (runBits (0 + n + 1) ++ [])) =
          A.length + (n + 1) := by
        rw [numWords, hlen, if_pos hfull]
        exact Nat.mul_div_cancel' (Nat.dvd_of_mod_eq_zero hfull)
      rw [hwords]
      split_ifs
      · omega
      · omega
  · simp only [List.findIdx?_cons, id_eq, if_true, Option.map_some, Option.none_or,
      List.length_replicate]
    omega

end Bitvector

namespace LoudsSparse

variable {t : LoudsSparse} {leaves : List Leaf} {n : ℕ}

/-- The sparse levels of the trie of the leaves: `n` levels from the start level on, down to the
bottom. -/
structure Encodes (t : LoudsSparse) (leaves : List Leaf) (n : ℕ) : Prop where
  trie : TrieWords (words leaves)
  height_eq : t.height = t.startLevel + n
  levels_pos : 0 < n
  bottom : nodes (words leaves) (t.startLevel + n) = []
  nodeCountDense_eq : t.nodeCountDense = (nodesFrom (words leaves) 0 t.startLevel).length
  childCountDense_eq : t.childCountDense + 1 =
    (nodesFrom (words leaves) 0 t.startLevel).length +
      (nodes (words leaves) t.startLevel).length
  labels_eq : t.labels = (itemsFrom (words leaves) t.startLevel n).map itemLabel
  childIndicatorBits_eq : t.childIndicatorBits =
    (itemsFrom (words leaves) t.startLevel n).map fun x => decide (x ∉ words leaves)
  loudsBits_eq : t.loudsBits =
    Louds.loudsBits (kids (words leaves)) (nodesFrom (words leaves) t.startLevel n)
  leftParentheses_eq : t.leftParentheses =
    ((List.range' t.startLevel n).flatMap fun i =>
      leaves.filter fun e => e.word.length = i + 1).map Leaf.left
  rightParentheses_eq : t.rightParentheses =
    ((List.range' t.startLevel n).flatMap fun i =>
      leaves.filter fun e => e.word.length = i + 1).map Leaf.right
  fits : Bitvector.LastNodeFits t.loudsBits

theorem encodes_ofBuilder {b : SuRFBuilder} {s : ℕ} (hb : SuRFBuilder.Built leaves b)
    (hW : TrieWords (words leaves)) (hne : words leaves ≠ []) (hs : s < b.getTreeHeight)
    (hfits : Bitvector.LastNodeFits (ofBuilder b s).loudsBits) :
    Encodes (ofBuilder b s) leaves (b.getTreeHeight - s) := by
  have hheight : s + (b.getTreeHeight - s) = b.getTreeHeight := Nat.add_sub_cancel' hs.le
  have hcount (i : ℕ) : (b.level i).nodeCount = (nodes (words leaves) i).length := by
    rw [hb.level]
    exact countP_isFirst hW.toAscending i
  have hdense : (ofBuilder b s).nodeCountDense = (nodesFrom (words leaves) 0 s).length := by
    simp only [ofBuilder, hcount, nodesFrom, List.length_flatMap, List.range_eq_range']
  have hlevels : (List.range' s (b.getTreeHeight - s)).map b.level =
      (List.range' s (b.getTreeHeight - s)).map (levelOf leaves) :=
    List.map_congr_left fun i _ => hb.level i
  refine ⟨hW, hheight.symm, by omega, ?_, hdense, ?_, ?_, ?_, ?_, ?_, ?_, hfits⟩
  · show nodes (words leaves) (s + (b.getTreeHeight - s)) = []
    rw [hheight, List.eq_nil_iff_forall_not_mem]
    intro x hx
    obtain ⟨hlen, w, hw, hxw⟩ := mem_prefixes.mp (mem_nodes.mp hx).1
    obtain ⟨e, he, rfl⟩ := List.mem_map.mp hw
    have hle := hxw.length_le
    have hlt := hb.height e he
    omega
  · have hroot := nodes_zero hW.toAscending hne
    have hdense' := hdense
    simp only [ofBuilder] at hdense' ⊢
    rw [hdense', hcount]
    split_ifs with hzero
    · subst hzero
      simp [nodesFrom, hroot]
    · obtain ⟨m, rfl⟩ := Nat.exists_eq_succ_of_ne_zero hzero
      have hpos : 0 < (nodesFrom (words leaves) 0 m.succ).length := by
        simp [nodesFrom, List.range'_succ, hroot]
      omega
  · simp only [ofBuilder, hlevels, itemsFrom, List.flatMap_map, List.map_flatMap]
    rfl
  · simp only [ofBuilder, hlevels, itemsFrom, List.flatMap_map, List.map_flatMap]
    rfl
  · simp only [ofBuilder, hlevels, List.flatMap_map, levelOf, itemArrays,
      map_isFirst_prefixes hW.toAscending, nodesFrom, Louds.loudsBits, List.flatMap_assoc]
  · simp only [ofBuilder, hlevels, List.flatMap_map, levelOf, List.map_flatMap]
  · simp only [ofBuilder, hlevels, List.flatMap_map, levelOf, List.map_flatMap]

section Positions

variable (W : List (List Symbol)) (s n : ℕ)

def RunAt (p : List Symbol) (pos : ℕ) : Prop :=
  ∃ A B, nodesFrom W s n = A ++ p :: B ∧ pos = (A.flatMap (kids W)).length

def NodeAt (p : List Symbol) (num : ℕ) : Prop :=
  ∃ A B, nodesFrom W s n = A ++ p :: B ∧ num = (nodesFrom W 0 s).length + A.length

def KidAt (p x : List Symbol) (pos : ℕ) : Prop :=
  ∃ start i, RunAt W s n p start ∧ (kids W p)[i]? = some x ∧ pos = start + i

variable {W s n}

theorem KidAt.exists_snoc {p x : List Symbol} {pos : ℕ} (h : KidAt W s n p x pos) :
    ∃ a, x = p ++ [a] := by
  obtain ⟨_, i, _, hi, _⟩ := h
  obtain ⟨a, rfl, _⟩ := mem_kids.mp (List.mem_of_getElem? hi)
  exact ⟨a, rfl⟩

theorem KidAt.mem_kids {p x : List Symbol} {pos : ℕ} (h : KidAt W s n p x pos) :
    x ∈ kids W p := by
  obtain ⟨_, i, _, hi, _⟩ := h
  exact List.mem_of_getElem? hi

theorem RunAt.exists_items (hW : Ascending W) {p : List Symbol} {pos : ℕ}
    (h : RunAt W s n p pos) :
    ∃ A B, itemsFrom W s n = A ++ (kids W p ++ B) ∧ A.length = pos := by
  obtain ⟨A, B, hnodes, rfl⟩ := h
  refine ⟨A.flatMap (kids W), B.flatMap (kids W), ?_, rfl⟩
  rw [itemsFrom_eq_flatMap_kids s n hW, hnodes, List.flatMap_append, List.flatMap_cons]

theorem KidAt.exists_items (hW : Ascending W) {p x : List Symbol} {pos : ℕ}
    (h : KidAt W s n p x pos) : ∃ A B, itemsFrom W s n = A ++ x :: B ∧ A.length = pos := by
  obtain ⟨start, i, hrun, hi, rfl⟩ := h
  obtain ⟨A, B, hitems, rfl⟩ := hrun.exists_items hW
  obtain ⟨A', B', hkids, rfl⟩ := exists_append_cons_of_getElem? hi
  exact ⟨A ++ A', B' ++ B, by simp [hitems, hkids], by simp⟩

theorem RunAt.exists_louds {p : List Symbol} {pos : ℕ} (h : RunAt W s n p pos) :
    ∃ A B, Louds.loudsBits (kids W) (nodesFrom W s n) =
        A ++ (runBits (kids W p).length ++ B) ∧ A.length = pos ∧
      (B = [] ∨ ∃ B', B = true :: B') := by
  obtain ⟨A, B, hnodes, rfl⟩ := h
  refine ⟨Louds.loudsBits (kids W) A, Louds.loudsBits (kids W) B, ?_, length_loudsBits A, ?_⟩
  · simp [hnodes, Louds.loudsBits]
  · apply loudsBits_eq_nil_or_cons
    intro q hq
    have hmem : q ∈ nodesFrom W s n := by simp [hnodes, hq]
    exact kids_ne_nil_of_mem_nodesFrom hmem

end Positions

section Arrays

variable (ht : Encodes t leaves n) {p x : List Symbol} {pos start i num : ℕ}
include ht

theorem Encodes.nodeSize_eq (h : RunAt (words leaves) t.startLevel n p pos)
    (hp : kids (words leaves) p ≠ []) : t.nodeSize pos = (kids (words leaves) p).length := by
  have hfits := ht.fits
  obtain ⟨A, B, hbits, rfl, hB⟩ := h.exists_louds
  have hpos := List.length_pos_of_ne_nil hp
  rw [ht.loudsBits_eq, hbits] at hfits
  rw [nodeSize, ht.loudsBits_eq, hbits]
  split_ifs with hlast
  · rw [List.length_append, List.length_append, length_runBits] at hlast
    omega
  · exact Bitvector.distanceToNextSetBit_run hpos hB hfits hlast

theorem Encodes.window (h : RunAt (words leaves) t.startLevel n p pos) :
    LabelVector.Window t.labels pos ((kids (words leaves) p).map itemLabel) := by
  obtain ⟨A, B, hitems, rfl⟩ := h.exists_items ht.trie.toAscending
  intro i hi
  rw [LabelVector.read, ht.labels_eq, hitems, List.map_append, List.map_append,
    List.getD_append_right _ _ _ _ (by simp), List.length_map, Nat.add_sub_cancel_left,
    List.getD_append _ _ _ _ hi]

theorem Encodes.read_eq (h : KidAt (words leaves) t.startLevel n p x pos) :
    LabelVector.read t.labels pos = itemLabel x := by
  obtain ⟨A, B, hitems, rfl⟩ := h.exists_items ht.trie.toAscending
  simp [LabelVector.read, ht.labels_eq, hitems, List.getD_eq_getElem?_getD]

theorem Encodes.hasChild_eq (h : KidAt (words leaves) t.startLevel n p x pos) :
    t.hasChild pos = decide (x ∉ words leaves) := by
  obtain ⟨A, B, hitems, rfl⟩ := h.exists_items ht.trie.toAscending
  simp [hasChild, Bitvector.readBit, ht.childIndicatorBits_eq, hitems,
    List.getD_eq_getElem?_getD]

theorem Encodes.behind_iff (h : RunAt (words leaves) t.startLevel n p start)
    (hi : i < (kids (words leaves) p).length) :
    (t.loudsBits.length ≤ start + i + 1 ∨
        Bitvector.readBit t.loudsBits (start + i + 1) = true) ↔
      i + 1 = (kids (words leaves) p).length := by
  obtain ⟨A, B, hbits, rfl, hB⟩ := h.exists_louds
  rw [ht.loudsBits_eq, hbits]
  constructor
  · intro hbehind
    by_contra hne
    have hbit := Bitvector.readBit_run (A := A) (B := B) (i + 1)
      (show i + 1 < (kids (words leaves) p).length by omega)
    rcases hbehind with hlen | hset
    · rw [List.length_append, List.length_append, length_runBits] at hlen
      omega
    · rw [← Nat.add_assoc, hset] at hbit
      simp at hbit
  · intro hlast
    have hbehind := Bitvector.readBit_behind_run (A := A) (k := (kids (words leaves) p).length) hB
    rwa [← hlast, ← Nat.add_assoc, hlast] at hbehind

theorem Encodes.isEndofNode_eq (h : RunAt (words leaves) t.startLevel n p start)
    (hi : i < (kids (words leaves) p).length) :
    t.isEndofNode (start + i) = decide (i + 1 = (kids (words leaves) p).length) := by
  have hlen : start + i < t.loudsBits.length := by
    obtain ⟨A, B, hbits, rfl, hB⟩ := h.exists_louds
    rw [ht.loudsBits_eq, hbits, List.length_append, List.length_append, length_runBits]
    omega
  have hbehind := ht.behind_iff h hi
  rw [Bool.eq_iff_iff, isEndofNode, Bool.or_eq_true, decide_eq_true_eq, ← hbehind, beq_iff_eq]
  have hend : start + i = t.loudsBits.length - 1 ↔ t.loudsBits.length ≤ start + i + 1 := by omega
  rw [hend]

theorem Encodes.getFirstLabelPos (h : NodeAt (words leaves) t.startLevel n p num) :
    RunAt (words leaves) t.startLevel n p (t.getFirstLabelPos num) := by
  obtain ⟨A, B, hnodes, rfl⟩ := h
  refine ⟨A, B, hnodes, ?_⟩
  have hkids : ∀ q ∈ A ++ p :: B, kids (words leaves) q ≠ [] := fun q hq =>
    kids_ne_nil_of_mem_nodesFrom (hnodes ▸ hq)
  have hrank : (nodesFrom (words leaves) 0 t.startLevel).length + A.length + 1 -
      (nodesFrom (words leaves) 0 t.startLevel).length = A.length + 1 := by omega
  rw [LoudsSparse.getFirstLabelPos, ht.loudsBits_eq, hnodes, ht.nodeCountDense_eq, hrank]
  exact select_loudsBits (fun q hq => hkids q (by simp [hq])) (hkids p (by simp))

theorem Encodes.getChildNodeNum (h : KidAt (words leaves) t.startLevel n p x pos)
    (hx : x ∉ words leaves) :
    NodeAt (words leaves) t.startLevel n x (t.getChildNodeNum pos) := by
  obtain ⟨m, hm⟩ := Nat.exists_eq_succ_of_ne_zero ht.levels_pos.ne'
  obtain ⟨A, B, hitems, rfl⟩ := h.exists_items ht.trie.toAscending
  have hbottom := ht.bottom
  have hchild := ht.childCountDense_eq
  rw [hm, Nat.succ_eq_add_one, ← Nat.add_assoc] at hbottom
  have hnodes := nodesFrom_eq t.startLevel m hbottom
  rw [hm] at hitems
  rw [hitems, List.filter_append, List.filter_cons_of_pos (by simpa using hx)] at hnodes
  refine ⟨nodes (words leaves) t.startLevel ++ A.filter (· ∉ words leaves),
    B.filter (· ∉ words leaves), ?_, ?_⟩
  · rw [hm, hnodes]
    simp
  · have hrank : rank t.childIndicatorBits A.length =
        (A.filter (· ∉ words leaves)).length + 1 := by
      rw [ht.childIndicatorBits_eq, hm, hitems, List.map_append, List.map_cons]
      have hsplit := rank_append_cons (A.map fun x => decide (x ∉ words leaves))
        (B.map fun x => decide (x ∉ words leaves)) (decide (x ∉ words leaves))
      rw [List.length_map] at hsplit
      rw [hsplit, count_map_decide]
      simp [hx]
    rw [LoudsSparse.getChildNodeNum, hrank, List.length_append]
    omega

theorem Encodes.getElem?_getSuffixPos {e : Leaf} (he : e ∈ leaves)
    (h : KidAt (words leaves) t.startLevel n p e.word pos) :
    ((List.range' t.startLevel n).flatMap fun i =>
      leaves.filter fun e => e.word.length = i + 1)[t.getSuffixPos pos]? = some e := by
  have hW := ht.trie.toAscending
  have hmem : e.word ∈ words leaves := List.mem_map_of_mem he
  obtain ⟨A, B, hitems, rfl⟩ := h.exists_items hW
  have hwords : ((List.range' t.startLevel n).flatMap fun i =>
      leaves.filter fun e => e.word.length = i + 1).map Leaf.word =
        (itemsFrom (words leaves) t.startLevel n).filter (· ∈ words leaves) := by
    rw [itemsFrom, List.map_flatMap, List.filter_flatMap]
    congr 1
    funext i
    rw [filter_mem_prefixes hW.pairwise, words, List.filter_map]
    rfl
  have hcount : t.getSuffixPos A.length = (A.filter (· ∈ words leaves)).length := by
    have hsplit := rank_append_cons (A.map fun x => decide (x ∉ words leaves))
      (B.map fun x => decide (x ∉ words leaves)) (decide (e.word ∉ words leaves))
    rw [List.length_map, count_map_decide] at hsplit
    have hparts := List.length_eq_length_filter_add (l := A) (· ∈ words leaves)
    rw [getSuffixPos, ht.childIndicatorBits_eq, hitems, List.map_append, List.map_cons, hsplit]
    simp only [hmem, not_true_eq_false, decide_false, Bool.toNat_false, Nat.add_zero]
    simp only [decide_not] at hparts ⊢
    omega
  rw [hitems, List.filter_append, List.filter_cons_of_pos (by simpa using hmem)] at hwords
  have hword := congrArg (fun l => l[(A.filter (· ∈ words leaves)).length]?) hwords
  simp only [List.getElem?_map, List.getElem?_append_right le_rfl, Nat.sub_self,
    List.getElem?_cons_zero] at hword
  obtain ⟨e', he', heq⟩ := Option.map_eq_some_iff.mp hword
  rw [hcount, he']
  -- a word has only one leaf
  obtain ⟨_, _, hmem'⟩ := List.mem_flatMap.mp (List.mem_of_getElem? he')
  have hnodup : (leaves.map Leaf.word).Nodup := hW.pairwise.imp Precedes.ne
  exact congrArg some (List.inj_on_of_nodup_map hnodup (List.mem_filter.mp hmem').1 he heq)

theorem Encodes.getLeftParenthesis_eq {e : Leaf} (he : e ∈ leaves)
    (h : KidAt (words leaves) t.startLevel n p e.word pos) :
    Bitvector.readBit t.leftParentheses (t.getSuffixPos pos) = e.left := by
  rw [Bitvector.readBit, ht.leftParentheses_eq, List.getD_eq_getElem?_getD, List.getElem?_map,
    ht.getElem?_getSuffixPos he h]
  rfl

theorem Encodes.getRightParenthesis_eq {e : Leaf} (he : e ∈ leaves)
    (h : KidAt (words leaves) t.startLevel n p e.word pos) :
    Bitvector.readBit t.rightParentheses (t.getSuffixPos pos) = e.right := by
  rw [Bitvector.readBit, ht.rightParentheses_eq, List.getD_eq_getElem?_getD, List.getElem?_map,
    ht.getElem?_getSuffixPos he h]
  rfl

end Arrays

end LoudsSparse

end Spry
