import Spry.Louds.Bits
import Spry.LoudsDense
import Spry.SuRFLevels

/-!
# The bitmaps of the dense levels

The bitmaps have one block for each node of the dense levels, in level order. A byte's bit in the
child bitmap tells that the node has a child for it which is no word. Its bit in the label bitmap
tells that the node has a child for it, except for the largest byte where it ends a word and opens
the node: that child is taken for a terminator and marks the node as a prefix key.
-/

namespace Spry

open Louds

section Blocks

def blockBits (P : Fin 256 → Prop) [DecidablePred P] : List Bool :=
  (List.finRange 256).map fun c => decide (P c)

theorem length_blockBits (P : Fin 256 → Prop) [DecidablePred P] :
    (blockBits P).length = kFanout := by
  rw [blockBits, List.length_map, List.length_finRange]
  rfl

theorem blockBits_congr {P Q : Fin 256 → Prop} [DecidablePred P] [DecidablePred Q]
    (h : ∀ c, P c ↔ Q c) : blockBits P = blockBits Q := by
  rw [blockBits, blockBits]
  apply List.map_congr_left
  intro c _
  rw [decide_eq_decide]
  exact h c

theorem blockBits_false : blockBits (fun _ => False) = List.replicate kFanout false := by
  simp [blockBits, List.map_const', kFanout]

theorem set_blockBits (labels : List (Fin 256)) (c : Fin 256) :
    (blockBits (· ∈ labels)).set c true = blockBits (· ∈ c :: labels) := by
  apply List.ext_getElem
  · simp [blockBits]
  · intro i h₁ h₂
    have hi : i < 256 := by simpa [blockBits] using h₂
    have hiff : (⟨i, hi⟩ : Fin 256) = c ↔ (c : ℕ) = i := by
      rw [Fin.ext_iff]
      exact eq_comm
    simp only [blockBits, List.getElem_set, List.getElem_map, List.getElem_finRange,
      List.mem_cons, Fin.cast_mk, hiff]
    split_ifs with hc
    · simp [hc]
    · simp [hc]

def setBits (num : ℕ) (labels : List (Fin 256)) (bits : List Bool) : List Bool :=
  labels.foldl (fun (bits : List Bool) (c : Fin 256) => bits.set (num * kFanout + c) true) bits

theorem setBits_block {A B : List Bool} {num : ℕ} (hA : A.length = num * kFanout)
    (labels : List (Fin 256)) :
    setBits num labels (A ++ (blockBits (fun _ => False) ++ B)) =
      A ++ (blockBits (· ∈ labels) ++ B) := by
  have hfold (done : List (Fin 256)) :
      setBits num labels (A ++ (blockBits (· ∈ done) ++ B)) =
        A ++ (blockBits (· ∈ labels.reverse ++ done) ++ B) := by
    induction labels generalizing done with
    | nil => rfl
    | cons c labels ih =>
      have hset : (A ++ (blockBits (· ∈ done) ++ B)).set (num * kFanout + c) true =
          A ++ (blockBits (· ∈ c :: done) ++ B) := by
        rw [← hA, List.set_append_right _ _ (by omega), Nat.add_sub_cancel_left,
          List.set_append_left _ _ (by simp [blockBits]), set_blockBits]
      rw [setBits, List.foldl_cons, hset]
      simpa [setBits] using ih (c :: done)
  have hnone : blockBits (fun _ => False) = blockBits (· ∈ ([] : List (Fin 256))) :=
    blockBits_congr fun c => by simp
  rw [hnone, hfold []]
  congr 2
  exact blockBits_congr fun c => by simp

end Blocks

section Items

variable (W : List (List Symbol)) (p : List Symbol)

/-- An item that is taken for a terminator: it opens its node, has the terminator's label and no
child. -/
def isTerminatorItem (x : List Symbol) : Bool :=
  isFirst W x && (itemLabel x == kTerminator && decide (x ∈ W))

def labelItems : List (List Symbol) := (kids W p).filter fun x => !isTerminatorItem W x

def innerItems : List (List Symbol) := (kids W p).filter (· ∉ W)

def labelBits : List Bool := blockBits fun c => p ++ [(c : Symbol)] ∈ labelItems W p

def childBits : List Bool := blockBits fun c => p ++ [(c : Symbol)] ∈ innerItems W p

def prefixKeyBit : Bool := (kids W p).any (isTerminatorItem W)

variable {W p}

theorem mem_innerItems {x : List Symbol} : x ∈ innerItems W p ↔ x ∈ kids W p ∧ x ∉ W := by
  simp [innerItems]

theorem mem_labelItems {x : List Symbol} :
    x ∈ labelItems W p ↔ x ∈ kids W p ∧ isTerminatorItem W x = false := by
  simp [labelItems]

theorem mem_labelItems_of_inner {x : List Symbol} (hx : x ∈ innerItems W p) :
    x ∈ labelItems W p := by
  obtain ⟨hkid, hnot⟩ := mem_innerItems.mp hx
  exact mem_labelItems.mpr ⟨hkid, by simp [isTerminatorItem, hnot]⟩

variable (hW : TrieWords W)
include hW

theorem isTerminatorItem_bot (hx : p ++ [⊥] ∈ kids W p) : isTerminatorItem W (p ++ [⊥]) = true := by
  have hfirst : isFirst W (p ++ [⊥]) = true := by
    rw [isFirst_kid_iff hx]
    intro y hy hlt
    obtain ⟨b, rfl, _⟩ := mem_kids.mp hy
    exact not_lt_bot hlt.lt_of_snoc
  simp [isTerminatorItem, hfirst, itemLabel, hW.mem_of_bot_kid hx]

theorem exists_byte_of_mem_labelItems {x : List Symbol} (hx : x ∈ labelItems W p) :
    ∃ c : Fin 256, x = p ++ [(c : Symbol)] := by
  obtain ⟨hkid, hterm⟩ := mem_labelItems.mp hx
  obtain ⟨a, rfl, _⟩ := mem_kids.mp hkid
  have hbot : a ≠ ⊥ := by
    rintro rfl
    rw [isTerminatorItem_bot hW hkid] at hterm
    exact Bool.false_ne_true hterm.symm
  obtain ⟨c, hc⟩ := WithBot.ne_bot_iff_exists.mp hbot
  exact ⟨c, by rw [hc]⟩

theorem mem_map_itemLabel {items : List (List Symbol)} (hitems : ∀ x ∈ items, x ∈ labelItems W p)
    (c : Fin 256) : c ∈ items.map itemLabel ↔ p ++ [(c : Symbol)] ∈ items := by
  rw [List.mem_map]
  constructor
  · rintro ⟨x, hx, rfl⟩
    obtain ⟨c, rfl⟩ := exists_byte_of_mem_labelItems hW (hitems x hx)
    simpa [itemLabel] using hx
  · intro hc
    exact ⟨_, hc, by simp [itemLabel]⟩

theorem setBits_labelItems {A B : List Bool} {num : ℕ} (hA : A.length = num * kFanout) :
    setBits num ((labelItems W p).map itemLabel) (A ++ (blockBits (fun _ => False) ++ B)) =
      A ++ (labelBits W p ++ B) := by
  rw [setBits_block hA, labelBits, blockBits_congr (mem_map_itemLabel hW fun x hx => hx)]

theorem setBits_innerItems {A B : List Bool} {num : ℕ} (hA : A.length = num * kFanout) :
    setBits num ((innerItems W p).map itemLabel) (A ++ (blockBits (fun _ => False) ++ B)) =
      A ++ (childBits W p ++ B) := by
  rw [setBits_block hA, childBits,
    blockBits_congr (mem_map_itemLabel hW fun x hx => mem_labelItems_of_inner hx)]

end Items

namespace DenseLevel

variable {W : List (List Symbol)} {p : List Symbol}

def itemEntry (W : List (List Symbol)) (x : List Symbol) : Fin 256 × Bool × Bool :=
  (itemLabel x, decide (x ∉ W), isFirst W x)

def setItems (W : List (List Symbol)) (d : DenseLevel) (num : ℕ) (items : List (List Symbol)) :
    DenseLevel :=
  { d with
    bitmapLabels := setBits num (items.map itemLabel) d.bitmapLabels
    bitmapChildIndicatorBits :=
      setBits num ((items.filter (· ∉ W)).map itemLabel) d.bitmapChildIndicatorBits }

theorem setItems_cons (d : DenseLevel) (num : ℕ) (x : List Symbol) (items : List (List Symbol)) :
    setItems W (d.setLabelAndChildIndicatorBitmap num (itemLabel x) (decide (x ∉ W))) num items =
      setItems W d num (x :: items) := by
  by_cases hx : x ∈ W
  · simp [setItems, setLabelAndChildIndicatorBitmap, setBits, hx]
  · simp [setItems, setLabelAndChildIndicatorBitmap, setBits, hx]

theorem foldl_insertItem_later (d : DenseLevel) (num : ℕ) {items : List (List Symbol)}
    (hitems : ∀ x ∈ items, isFirst W x = false) :
    (items.map (itemEntry W)).foldl insertItem (d, num + 1) =
      (setItems W d num items, num + 1) := by
  induction items generalizing d with
  | nil => rfl
  | cons x items ih =>
    have hstep : insertItem (d, num + 1) (itemEntry W x) =
        (d.setLabelAndChildIndicatorBitmap num (itemLabel x) (decide (x ∉ W)), num + 1) := by
      simp [insertItem, itemEntry, hitems x (by simp)]
    rw [List.map_cons, List.foldl_cons, hstep,
      ih _ fun y hy => hitems y (List.mem_cons_of_mem x hy), setItems_cons]

def setNode (W : List (List Symbol)) (d : DenseLevel) (num : ℕ) (p : List Symbol) : DenseLevel where
  bitmapLabels := setBits num ((labelItems W p).map itemLabel) d.bitmapLabels
  bitmapChildIndicatorBits :=
    setBits num ((innerItems W p).map itemLabel) d.bitmapChildIndicatorBits
  prefixkeyIndicatorBits :=
    if prefixKeyBit W p then d.prefixkeyIndicatorBits.set num true else d.prefixkeyIndicatorBits

theorem foldl_insertItem_kids (hW : W.Pairwise Precedes) (d : DenseLevel) (num : ℕ)
    (hkids : kids W p ≠ []) :
    ((kids W p).map (itemEntry W)).foldl insertItem (d, num) = (setNode W d num p, num + 1) := by
  have hbits := map_isFirst_kids hW p
  obtain ⟨x, xs, hcons⟩ := List.exists_cons_of_ne_nil hkids
  rw [hcons] at hbits
  simp only [List.map_cons, List.length_cons, runBits, List.cons.injEq] at hbits
  have hlater : ∀ y ∈ xs, isFirst W y = false := by
    intro y hy
    have hmem : isFirst W y ∈ List.replicate xs.length false := hbits.2 ▸ List.mem_map_of_mem hy
    exact List.eq_of_mem_replicate hmem
  have hplain : ∀ y ∈ xs, isTerminatorItem W y = false := by
    intro y hy
    simp [isTerminatorItem, hlater y hy]
  have hkeep : xs.filter (fun y => !isTerminatorItem W y) = xs :=
    List.filter_eq_self.mpr fun y hy => by simp [hplain y hy]
  have hany : xs.any (isTerminatorItem W) = false := by
    rw [List.any_eq_false]
    intro y hy
    simp [hplain y hy]
  rw [hcons, List.map_cons, List.foldl_cons]
  by_cases hterm : isTerminatorItem W x = true
  · -- the first child is taken for a terminator
    obtain ⟨_, hlabel, hmem⟩ : isFirst W x = true ∧ itemLabel x = kTerminator ∧ x ∈ W := by
      simpa [isTerminatorItem] using hterm
    have hstep : insertItem (d, num) (itemEntry W x) =
        ({ d with prefixkeyIndicatorBits := d.prefixkeyIndicatorBits.set num true }, num + 1) := by
      simp [insertItem, itemEntry, hbits.1, hlabel, hmem]
    rw [hstep, foldl_insertItem_later _ _ hlater]
    simp [setItems, setNode, labelItems, innerItems, prefixKeyBit, hcons, hterm, hkeep, hmem]
  · have hstep : insertItem (d, num) (itemEntry W x) =
        (d.setLabelAndChildIndicatorBitmap num (itemLabel x) (decide (x ∉ W)), num + 1) := by
      have hnot : ¬ (itemLabel x = kTerminator ∧ x ∈ W) := by
        simpa [isTerminatorItem, hbits.1] using hterm
      simp [insertItem, itemEntry, hbits.1, hnot]
    rw [hstep, foldl_insertItem_later _ _ hlater, setItems_cons]
    simp [setItems, setNode, labelItems, innerItems, prefixKeyBit, hcons, hterm, hkeep, hany]

theorem replicate_succ_block (n : ℕ) :
    List.replicate ((n + 1) * kFanout) false =
      blockBits (fun _ => False) ++ List.replicate (n * kFanout) false := by
  rw [blockBits_false, Nat.add_mul, Nat.one_mul, Nat.add_comm, List.replicate_add]

theorem foldl_insertItem_nodes (hW : TrieWords W) {V : List (List Symbol)}
    {labels children prefixkeys : List Bool} {num : ℕ} (hV : ∀ p ∈ V, kids W p ≠ [])
    (hlabels : labels.length = num * kFanout) (hchildren : children.length = num * kFanout)
    (hprefixkeys : prefixkeys.length = num) :
    (V.flatMap fun p => (kids W p).map (itemEntry W)).foldl insertItem
        (⟨labels ++ List.replicate (V.length * kFanout) false,
          children ++ List.replicate (V.length * kFanout) false,
          prefixkeys ++ List.replicate V.length false⟩, num) =
      (⟨labels ++ V.flatMap (labelBits W), children ++ V.flatMap (childBits W),
        prefixkeys ++ V.map (prefixKeyBit W)⟩, num + V.length) := by
  induction V generalizing labels children prefixkeys num with
  | nil => simp
  | cons p V ih =>
    have hset : (if prefixKeyBit W p then (prefixkeys ++ List.replicate (V.length + 1) false).set
          num true else prefixkeys ++ List.replicate (V.length + 1) false) =
        prefixkeys ++ [prefixKeyBit W p] ++ List.replicate V.length false := by
      cases hbit : prefixKeyBit W p with
      | false => simp [List.replicate_succ]
      | true => simp [List.replicate_succ, ← hprefixkeys]
    have hnext : num * kFanout + kFanout = (num + 1) * kFanout := by
      rw [Nat.add_mul, Nat.one_mul]
    have hrest := ih (fun q hq => hV q (List.mem_cons_of_mem p hq))
      (show (labels ++ labelBits W p).length = (num + 1) * kFanout by
        rw [List.length_append, hlabels, labelBits, length_blockBits, hnext])
      (show (children ++ childBits W p).length = (num + 1) * kFanout by
        rw [List.length_append, hchildren, childBits, length_blockBits, hnext])
      (show (prefixkeys ++ [prefixKeyBit W p]).length = num + 1 by
        rw [List.length_append, hprefixkeys, List.length_singleton])
    rw [List.flatMap_cons, List.foldl_append,
      foldl_insertItem_kids hW.pairwise _ _ (hV p List.mem_cons_self), setNode,
      List.length_cons, replicate_succ_block]
    simp only
    rw [setBits_labelItems hW hlabels, setBits_innerItems hW hchildren, hset,
      ← List.append_assoc labels, ← List.append_assoc children, hrest]
    simp [Nat.add_assoc, Nat.add_comm 1]

theorem zip_levelOf (hW : Ascending W) (n : ℕ) :
    ((prefixes W (n + 1)).map itemLabel).zip
        (((prefixes W (n + 1)).map fun x => decide (x ∉ W)).zip
          ((prefixes W (n + 1)).map (isFirst W))) =
      (nodes W n).flatMap fun p => (kids W p).map (itemEntry W) := by
  rw [← List.map_flatMap, flatMap_kids hW, List.zip_map', List.zip_map']
  rfl

theorem ofLevel_levelOf {leaves : List Leaf} (hW : TrieWords (words leaves)) (n : ℕ) :
    ofLevel (levelOf leaves n) =
      ⟨(nodes (words leaves) n).flatMap (labelBits (words leaves)),
        (nodes (words leaves) n).flatMap (childBits (words leaves)),
        (nodes (words leaves) n).map (prefixKeyBit (words leaves))⟩ := by
  have hfold := foldl_insertItem_nodes hW (fun p hp => kids_ne_nil hp)
    (show ([] : List Bool).length = 0 * kFanout by simp)
    (show ([] : List Bool).length = 0 * kFanout by simp) (show ([] : List Bool).length = 0 from rfl)
    (V := nodes (words leaves) n)
  simp only [List.nil_append] at hfold
  simp only [ofLevel, levelOf, itemArrays, zip_levelOf hW.toAscending,
    countP_isFirst hW.toAscending, initDenseVectors]
  rw [hfold]

end DenseLevel

namespace Bitvector

variable {bits : List Bool} {pos start q : ℕ}

theorem nextSetBit_eq (hq : start ≤ q) (hset : readBit bits q = true)
    (hclear : ∀ j, start ≤ j → j < q → readBit bits j = false) : nextSetBit bits start = q := by
  obtain ⟨k, rfl⟩ := Nat.exists_eq_add_of_le hq
  have hlen : start + k < bits.length := by
    by_contra hnot
    rw [readBit, List.getD_eq_default _ _ (not_lt.mp hnot)] at hset
    exact Bool.false_ne_true hset
  have hidx : (bits.drop start).findIdx? id = some k := by
    rw [List.findIdx?_eq_some_iff_getElem]
    refine ⟨by rw [List.length_drop]; omega, ?_, fun j hj => ?_⟩
    · rw [readBit, List.getD_eq_getElem _ _ hlen] at hset
      simpa using hset
    · have hbit := hclear (start + j) (by omega) (by omega)
      rw [readBit, List.getD_eq_getElem _ _ (by omega)] at hbit
      simpa using hbit
  rw [nextSetBit, hidx]

theorem le_nextSetBit (hwords : bits.length % kWordSize = 0) (hq : q ≤ bits.length)
    (hclear : ∀ j, start ≤ j → j < q → readBit bits j = false) : q ≤ nextSetBit bits start := by
  rw [nextSetBit]
  cases hidx : (bits.drop start).findIdx? id with
  | none =>
    have hnum : kWordSize * numWords bits = bits.length := by
      rw [numWords, if_pos hwords]
      exact Nat.mul_div_cancel' (Nat.dvd_of_mod_eq_zero hwords)
    simpa only [hnum, ite_self] using hq
  | some k =>
    obtain ⟨hk, hset, _⟩ := List.findIdx?_eq_some_iff_getElem.mp hidx
    rw [List.length_drop] at hk
    by_contra hlt
    have hbit := hclear (start + k) (by omega) (not_le.mp hlt)
    rw [readBit, List.getD_eq_getElem _ _ (by omega)] at hbit
    rw [List.getElem_drop] at hset
    exact Bool.false_ne_true (hbit.symm.trans hset)

theorem add_distanceToNextSetBit (hwords : bits.length % kWordSize = 0) (hpos : pos < bits.length) :
    pos + distanceToNextSetBit bits pos = nextSetBit bits (pos + 1) := by
  have hle : pos + 1 ≤ nextSetBit bits (pos + 1) :=
    le_nextSetBit hwords hpos fun j hj hlt => absurd hj (not_le.mpr hlt)
  rw [distanceToNextSetBit]
  omega

end Bitvector

namespace LoudsDense

variable {d : LoudsDense} {leaves : List Leaf} {p x : List Symbol} {num : ℕ}

structure Encodes (d : LoudsDense) (leaves : List Leaf) : Prop where
  trie : TrieWords (words leaves)
  nonempty : words leaves ≠ []
  height_pos : 0 < d.height
  labelBitmaps_eq : d.labelBitmaps =
    (nodesFrom (words leaves) 0 d.height).flatMap (labelBits (words leaves))
  childIndicatorBitmaps_eq : d.childIndicatorBitmaps =
    (nodesFrom (words leaves) 0 d.height).flatMap (childBits (words leaves))
  prefixkeyIndicatorBits_eq : d.prefixkeyIndicatorBits =
    (nodesFrom (words leaves) 0 d.height).map (prefixKeyBit (words leaves))

theorem encodes_ofBuilder {b : SuRFBuilder} {s : ℕ} (hb : SuRFBuilder.Built leaves b)
    (hW : TrieWords (words leaves)) (hne : words leaves ≠ []) (hs : 0 < s) :
    Encodes (ofBuilder b s) leaves := by
  have hlevels : ((List.range s).map fun i => DenseLevel.ofLevel (b.level i)) =
      (List.range s).map fun i =>
        ⟨(nodes (words leaves) i).flatMap (labelBits (words leaves)),
          (nodes (words leaves) i).flatMap (childBits (words leaves)),
          (nodes (words leaves) i).map (prefixKeyBit (words leaves))⟩ := by
    apply List.map_congr_left
    intro i _
    rw [hb.level, DenseLevel.ofLevel_levelOf hW]
  have hnodes : nodesFrom (words leaves) 0 s = (List.range s).flatMap (nodes (words leaves)) := by
    rw [nodesFrom, List.range_eq_range']
  refine ⟨hW, hne, hs, ?_, ?_, ?_⟩
  · simp only [ofBuilder, hlevels, hnodes, List.flatMap_map, List.flatMap_assoc]
  · simp only [ofBuilder, hlevels, hnodes, List.flatMap_map, List.flatMap_assoc]
  · simp only [ofBuilder, hlevels, hnodes, List.flatMap_map, List.map_flatMap]

def NumOf (d : LoudsDense) (leaves : List Leaf) (p : List Symbol) (num : ℕ) : Prop :=
  (nodesFrom (words leaves) 0 (d.height + 1))[num]? = some p

theorem NumOf.exists_split (hnum : NumOf d leaves p num) (hp : p.length < d.height) :
    ∃ A B, nodesFrom (words leaves) 0 d.height = A ++ p :: B ∧ A.length = num := by
  apply exists_append_cons_of_getElem?
  rw [NumOf, nodesFrom_succ, List.getElem?_append] at hnum
  split_ifs at hnum with hlt
  · exact hnum
  · have hlen := length_of_mem_prefixes (mem_nodes.mp (List.mem_of_getElem? hnum)).1
    omega

section Blocks

variable {P : List Symbol → Fin 256 → Prop} [∀ p, DecidablePred (P p)]

theorem length_flatMap_blockBits (V : List (List Symbol)) :
    (V.flatMap fun p => blockBits (P p)).length = V.length * kFanout := by
  induction V with
  | nil => simp
  | cons q V ih =>
    rw [List.flatMap_cons, List.length_append, length_blockBits, ih, List.length_cons,
      Nat.add_mul, Nat.one_mul, Nat.add_comm]

theorem readBit_flatMap_blockBits {V : List (List Symbol)} (hV : V[num]? = some p) (c : Fin 256) :
    Bitvector.readBit (V.flatMap fun p => blockBits (P p)) (num * kFanout + c) =
      decide (P p c) := by
  obtain ⟨A, B, rfl, rfl⟩ := exists_append_cons_of_getElem? hV
  have hc : (c : ℕ) < (blockBits (P p)).length := by
    rw [length_blockBits]
    exact c.isLt
  rw [Bitvector.readBit, List.flatMap_append, List.flatMap_cons,
    List.getD_append_right _ _ _ _ (by rw [length_flatMap_blockBits]; omega),
    length_flatMap_blockBits, Nat.add_sub_cancel_left, List.getD_append _ _ _ _ hc,
    List.getD_eq_getElem _ _ hc]
  simp [blockBits]

end Blocks

section Bits

variable (hd : Encodes d leaves)
include hd

theorem Encodes.length_labelBitmaps :
    d.labelBitmaps.length = (nodesFrom (words leaves) 0 d.height).length * kFanout := by
  rw [hd.labelBitmaps_eq]
  exact length_flatMap_blockBits _

theorem Encodes.hasLabel_eq (hp : p.length < d.height) (hnum : NumOf d leaves p num)
    (c : Fin 256) :
    d.hasLabel (num * kFanout + c) =
      decide (p ++ [(c : Symbol)] ∈ labelItems (words leaves) p) := by
  obtain ⟨A, B, hV, rfl⟩ := hnum.exists_split hp
  rw [hasLabel, hd.labelBitmaps_eq]
  exact readBit_flatMap_blockBits (by simp [hV]) c

theorem Encodes.hasChild_eq (hp : p.length < d.height) (hnum : NumOf d leaves p num)
    (c : Fin 256) :
    d.hasChild (num * kFanout + c) =
      decide (p ++ [(c : Symbol)] ∈ innerItems (words leaves) p) := by
  obtain ⟨A, B, hV, rfl⟩ := hnum.exists_split hp
  rw [hasChild, hd.childIndicatorBitmaps_eq]
  exact readBit_flatMap_blockBits (by simp [hV]) c

theorem Encodes.nodesFrom_eq_cons :
    nodesFrom (words leaves) 0 (d.height + 1) =
      [] :: (nodesFrom (words leaves) 0 d.height).flatMap (innerItems (words leaves)) := by
  have hinner : (nodesFrom (words leaves) 0 d.height).flatMap (innerItems (words leaves)) =
      nodesFrom (words leaves) 1 d.height := by
    rw [← filter_itemsFrom, itemsFrom_eq_flatMap_kids 0 d.height hd.trie.toAscending,
      List.filter_flatMap]
    rfl
  rw [hinner, nodesFrom, List.range'_succ, List.flatMap_cons,
    nodes_zero hd.trie.toAscending hd.nonempty]
  rfl

theorem Encodes.innerItems_eq (p : List Symbol) :
    innerItems (words leaves) p =
      ((List.finRange 256).filter fun c : Fin 256 =>
        p ++ [(c : Symbol)] ∈ innerItems (words leaves) p).map
          fun c : Fin 256 => p ++ [(c : Symbol)] := by
  apply eq_of_pairwise_of_mem_iff ((pairwise_kids hd.trie.pairwise p).filter _)
  · rw [List.pairwise_map]
    apply ((List.pairwise_lt_finRange 256).filter _).imp
    intro a b hab
    simpa [WithBot.coe_lt_coe] using hab
  · intro x
    change x ∈ innerItems (words leaves) p ↔ _
    simp only [List.mem_map, List.mem_filter, List.mem_finRange, true_and, decide_eq_true_eq]
    constructor
    · intro hx
      obtain ⟨c, rfl⟩ := exists_byte_of_mem_labelItems hd.trie (mem_labelItems_of_inner hx)
      exact ⟨c, hx, rfl⟩
    · rintro ⟨c, hc, rfl⟩
      exact hc

theorem Encodes.count_childBits (p : List Symbol) :
    (childBits (words leaves) p).count true = (innerItems (words leaves) p).length := by
  rw [hd.innerItems_eq p, List.length_map, childBits, blockBits, count_map_decide]

theorem Encodes.count_flatMap_childBits (A : List (List Symbol)) :
    (A.flatMap (childBits (words leaves))).count true =
      (A.flatMap (innerItems (words leaves))).length := by
  induction A with
  | nil => rfl
  | cons q A ih =>
    rw [List.flatMap_cons, List.count_append, List.flatMap_cons, List.length_append,
      hd.count_childBits, ih]

theorem Encodes.getChildNodeNum (hp : p.length < d.height) (hnum : NumOf d leaves p num)
    {c : Fin 256} (hc : p ++ [(c : Symbol)] ∈ innerItems (words leaves) p) :
    NumOf d leaves (p ++ [(c : Symbol)]) (d.getChildNodeNum (num * kFanout + c)) := by
  obtain ⟨A, B, hV, rfl⟩ := hnum.exists_split hp
  obtain ⟨C, D, hbytes, hlen⟩ := exists_append_cons_of_getElem?
    (show (List.finRange 256)[(c : ℕ)]? = some c by simp)
  have hitems := hd.innerItems_eq p
  rw [hbytes, List.filter_append, List.filter_cons_of_pos (by simpa using hc), List.map_append,
    List.map_cons] at hitems
  -- the set bits up to the label: those of the nodes before, and the labels before it
  have hrank : d.getChildNodeNum (A.length * kFanout + c) =
      (A.flatMap (innerItems (words leaves))).length +
        (C.filter fun c : Fin 256 =>
          p ++ [(c : Symbol)] ∈ innerItems (words leaves) p).length + 1 := by
    have hsplit : d.childIndicatorBitmaps =
        (A.flatMap (childBits (words leaves)) ++
          C.map fun c : Fin 256 =>
            decide (p ++ [(c : Symbol)] ∈ innerItems (words leaves) p)) ++
        true :: ((D.map fun c : Fin 256 =>
            decide (p ++ [(c : Symbol)] ∈ innerItems (words leaves) p)) ++
          B.flatMap (childBits (words leaves))) := by
      simp [hd.childIndicatorBitmaps_eq, hV, childBits, blockBits, hbytes, hc]
    have hpos : A.length * kFanout + c = (A.flatMap (childBits (words leaves)) ++
        C.map fun c : Fin 256 =>
          decide (p ++ [(c : Symbol)] ∈ innerItems (words leaves) p)).length := by
      have hblocks : (A.flatMap (childBits (words leaves))).length = A.length * kFanout :=
        length_flatMap_blockBits A
      rw [List.length_append, hblocks, List.length_map, hlen]
    rw [LoudsDense.getChildNodeNum, hsplit, hpos, rank_append_cons, List.count_append,
      hd.count_flatMap_childBits, count_map_decide]
    rfl
  obtain ⟨m, hm⟩ : ∃ m, (C.filter fun c : Fin 256 =>
      p ++ [(c : Symbol)] ∈ innerItems (words leaves) p).length = m := ⟨_, rfl⟩
  have hget : (innerItems (words leaves) p)[m]? = some (p ++ [(c : Symbol)]) := by
    rw [hitems, List.getElem?_append_right (by simp [hm]), List.length_map, hm, Nat.sub_self,
      List.getElem?_cons_zero]
  obtain ⟨hlt, _⟩ := List.getElem?_eq_some_iff.mp hget
  rw [NumOf, hd.nodesFrom_eq_cons, hrank, hm, List.getElem?_cons_succ, hV, List.flatMap_append,
    List.flatMap_cons, List.getElem?_append_right (by omega), Nat.add_sub_cancel_left,
    List.getElem?_append_left hlt, hget]

end Bits

section Deep

def Deep (d : LoudsDense) (leaves : List Leaf) : Prop :=
  ∀ w ∈ words leaves, d.height < w.length

variable (hdeep : Deep d leaves)
include hdeep

theorem Deep.notMem (hx : x.length ≤ d.height) : x ∉ words leaves := fun hmem =>
  absurd (hdeep x hmem) (not_lt.mpr hx)

theorem Deep.kid_notMem (hp : p.length < d.height) (hx : x ∈ kids (words leaves) p) :
    x ∉ words leaves := by
  obtain ⟨a, rfl, _⟩ := mem_kids.mp hx
  apply hdeep.notMem
  rw [List.length_append, List.length_singleton]
  exact hp

theorem Deep.innerItems_eq_kids (hp : p.length < d.height) :
    innerItems (words leaves) p = kids (words leaves) p :=
  List.filter_eq_self.mpr fun _ hx => decide_eq_true (hdeep.kid_notMem hp hx)

theorem Deep.isTerminatorItem_eq_false (hp : p.length < d.height)
    (hx : x ∈ kids (words leaves) p) : isTerminatorItem (words leaves) x = false := by
  simp [isTerminatorItem, hdeep.kid_notMem hp hx]

theorem Deep.labelItems_eq_kids (hp : p.length < d.height) :
    labelItems (words leaves) p = kids (words leaves) p :=
  List.filter_eq_self.mpr fun _ hx => by simp [hdeep.isTerminatorItem_eq_false hp hx]

theorem Deep.not_prefixkey (hd : Encodes d leaves) (num : ℕ) :
    Bitvector.readBit d.prefixkeyIndicatorBits num = false := by
  rw [Bitvector.readBit, List.getD_eq_getElem?_getD, hd.prefixkeyIndicatorBits_eq]
  cases hget : ((nodesFrom (words leaves) 0 d.height).map (prefixKeyBit (words leaves)))[num]? with
  | none => rfl
  | some bit =>
    obtain ⟨p, hp, rfl⟩ := List.mem_map.mp (List.mem_of_getElem? hget)
    have hlen := length_lt_of_mem_nodesFrom hp
    rw [Nat.zero_add] at hlen
    rw [Option.getD_some, prefixKeyBit, List.any_eq_false]
    intro x hx
    simp [hdeep.isTerminatorItem_eq_false hlen hx]

end Deep

end LoudsDense

end Spry
