import Spry.Louds.Search
import Spry.LoudsDenseBitmaps

/-!
# Seeking in the dense levels

The seek follows the query through the dense levels. It either comes to a node below them, where
the sparse levels go on with the query, or leaves the query and sends out the first node behind it,
whose least word is the one looked for, or finds nothing.
-/

namespace Spry.LoudsDense

open Louds

variable {d : LoudsDense} {leaves : List Leaf} {p r x : List Symbol} {num pos : ℕ} {iter : Iter}
  {path : List ℕ}

section Next

variable (hd : Encodes d leaves)
include hd

theorem Encodes.nextPosFrom_eq (hp : p.length < d.height) (hnum : NumOf d leaves p num)
    {b : Fin 256} (hb : p ++ [(b : Symbol)] ∈ labelItems (words leaves) p) {lo : ℕ} (hlo : lo ≤ b)
    (hclear : ∀ e : Fin 256, lo ≤ e → e < b →
      p ++ [(e : Symbol)] ∉ labelItems (words leaves) p) :
    d.nextPosFrom (num * kFanout + lo) = num * kFanout + b := by
  apply Bitvector.nextSetBit_eq (by omega)
  · have hset := hd.hasLabel_eq hp hnum b
    rw [hasLabel] at hset
    simp [hset, hb]
  · intro j hj hjb
    obtain ⟨e, rfl⟩ := Nat.exists_eq_add_of_le (show num * kFanout ≤ j by omega)
    have heb : e < b := by omega
    have hbit := hd.hasLabel_eq hp hnum ⟨e, heb.trans b.isLt⟩
    rw [hasLabel] at hbit
    rw [hbit, decide_eq_false_iff_not]
    exact hclear ⟨e, heb.trans b.isLt⟩ (by simp only; omega) heb

theorem Encodes.length_mod_kWordSize : d.labelBitmaps.length % kWordSize = 0 := by
  rw [hd.length_labelBitmaps]
  simp [kFanout, kWordSize, Nat.mul_mod]

theorem Encodes.block_le (hp : p.length < d.height) (hnum : NumOf d leaves p num) :
    (num + 1) * kFanout ≤ d.labelBitmaps.length := by
  obtain ⟨A, B, hV, rfl⟩ := hnum.exists_split hp
  rw [hd.length_labelBitmaps, hV]
  apply Nat.mul_le_mul_right
  simp

theorem Encodes.le_nextPosFrom (hp : p.length < d.height) (hnum : NumOf d leaves p num) {lo : ℕ}
    (hclear : ∀ e : Fin 256, lo ≤ e → p ++ [(e : Symbol)] ∉ labelItems (words leaves) p) :
    (num + 1) * kFanout ≤ d.nextPosFrom (num * kFanout + lo) := by
  apply Bitvector.le_nextSetBit hd.length_mod_kWordSize (hd.block_le hp hnum)
  intro j hj hjend
  obtain ⟨e, rfl⟩ := Nat.exists_eq_add_of_le (show num * kFanout ≤ j by omega)
  have he : e < 256 := by
    rw [Nat.add_mul, Nat.one_mul] at hjend
    exact Nat.lt_of_add_lt_add_left hjend
  have hbit := hd.hasLabel_eq hp hnum ⟨e, he⟩
  rw [hasLabel] at hbit
  rw [hbit, decide_eq_false_iff_not]
  exact hclear ⟨e, he⟩ (by simp only; omega)

theorem Encodes.getNextPos_eq (hp : p.length < d.height) (hnum : NumOf d leaves p num)
    (c : Fin 256) :
    d.getNextPos (num * kFanout + c) = d.nextPosFrom (num * kFanout + (c + 1)) := by
  have hle := hd.block_le hp hnum
  have hc : (c : ℕ) < kFanout := c.isLt
  rw [Nat.add_mul, Nat.one_mul] at hle
  have hpos : num * kFanout + c < d.labelBitmaps.length := by omega
  rw [← Nat.add_assoc]
  exact Bitvector.add_distanceToNextSetBit hd.length_mod_kWordSize hpos

theorem Encodes.numOf_root : NumOf d leaves [] 0 := by
  rw [NumOf, hd.nodesFrom_eq_cons, List.getElem?_cons_zero]

theorem Encodes.exists_first_label (hp : p.length < d.height) (hnum : NumOf d leaves p num)
    (hlabels : labelItems (words leaves) p ≠ []) :
    ∃ (b : Fin 256) (B : List (List Symbol)),
      labelItems (words leaves) p = (p ++ [(b : Symbol)]) :: B ∧
      d.nextPosFrom (num * kFanout) = num * kFanout + b := by
  obtain ⟨x, B, hitems⟩ := List.exists_cons_of_ne_nil hlabels
  have hx : x ∈ labelItems (words leaves) p := by simp [hitems]
  obtain ⟨b, rfl⟩ := exists_byte_of_mem_labelItems hd.trie hx
  have hclear : ∀ e : Fin 256, 0 ≤ (e : ℕ) → e < b →
      p ++ [(e : Symbol)] ∉ labelItems (words leaves) p := by
    intro e _ heb he
    have hsorted : (labelItems (words leaves) p).Pairwise Precedes :=
      (pairwise_kids hd.trie.pairwise p).filter _
    rw [hitems, List.pairwise_cons] at hsorted
    rw [hitems, List.mem_cons] at he
    rcases he with heq | he
    · have heb' : (e : Symbol) = b := (List.append_singleton_inj.mp heq).2
      exact heb.ne (WithBot.coe_injective heb')
    · exact absurd (WithBot.coe_lt_coe.mpr heb) (hsorted.1 _ he).lt_of_snoc.not_gt
  have hnext : d.nextPosFrom (num * kFanout + 0) = num * kFanout + b :=
    hd.nextPosFrom_eq hp hnum hx (Nat.zero_le _) hclear
  rw [Nat.add_zero] at hnext
  exact ⟨b, B, hitems, hnext⟩

end Next

section Paths

/-- The positions of an iterator that has gone from the root down to a byte of a node, whether the
node has that label or not. -/
inductive PathTo (d : LoudsDense) (leaves : List Leaf) : List Symbol → List ℕ → Prop
  | root : PathTo d leaves [] []
  | snoc {p : List Symbol} {path : List ℕ} {num : ℕ} (c : Fin 256) (hp : PathTo d leaves p path)
      (hlt : p.length < d.height) (hnum : NumOf d leaves p num) :
      PathTo d leaves (p ++ [(c : Symbol)]) ((num * kFanout + c) :: path)

theorem PathTo.length_eq (h : PathTo d leaves x path) : x.length = path.length := by
  induction h with
  | root => rfl
  | snoc c _ _ _ ih => simp [ih]

theorem PathTo.symbols_eq (h : PathTo d leaves x path) :
    symbols (path.map fun pos => Fin.ofNat 256 pos).reverse = x := by
  induction h with
  | root => rfl
  | @snoc p path num c _ _ _ ih =>
    have hbyte : Fin.ofNat 256 (num * kFanout + c) = c := by
      apply Fin.ext
      simp [Fin.ofNat, kFanout, Nat.mod_eq_of_lt c.isLt]
    rw [List.map_cons, List.reverse_cons, symbols_append, ih, hbyte]
    rfl

/-- The dense part is done with the search: the least word looked for is the least one below the
node `r` that it sends out. -/
structure Sent (d : LoudsDense) (leaves : List Leaf) (r : List Symbol) (iter : Iter) : Prop where
  isValid : iter.isValid = true
  isSearchComplete : iter.isSearchComplete = true
  isMoveLeftComplete : iter.isMoveLeftComplete = false
  isAtPrefixKey : iter.isAtPrefixKey = false
  length_eq : r.length = d.height
  path : PathTo d leaves r iter.posInTrie
  num : NumOf d leaves r iter.sendOutNodeNum

/-- The dense part ran out of levels on the query: the sparse part goes on with it at the node
`r`. -/
structure Handed (d : LoudsDense) (leaves : List Leaf) (r : List Symbol) (iter : Iter) : Prop where
  isValid : iter.isValid = true
  isSearchComplete : iter.isSearchComplete = false
  isAtPrefixKey : iter.isAtPrefixKey = false
  length_eq : r.length = d.height
  path : PathTo d leaves r iter.posInTrie
  num : NumOf d leaves r iter.sendOutNodeNum

theorem PathTo.symbols_getKey (h : PathTo d leaves r iter.posInTrie)
    (hvalid : iter.isValid = true) (hplain : iter.isAtPrefixKey = false) :
    symbols iter.getKey = r := by
  rw [Iter.getKey, hvalid, hplain]
  exact h.symbols_eq

end Paths

section Moves

variable (hd : Encodes d leaves) (hdeep : Deep d leaves)
include hd hdeep

theorem Encodes.exists_first_kid (hp : p.length < d.height) (hnum : NumOf d leaves p num) :
    ∃ (b : Fin 256) (B : List (List Symbol)), kids (words leaves) p = (p ++ [(b : Symbol)]) :: B ∧
      d.nextPosFrom (num * kFanout) = num * kFanout + b := by
  have hlabels := hdeep.labelItems_eq_kids hp
  rw [← hlabels]
  apply hd.exists_first_label hp hnum
  obtain ⟨A, C, hV, _⟩ := hnum.exists_split hp
  have hmem : p ∈ nodesFrom (words leaves) 0 d.height := by simp [hV]
  rw [hlabels]
  exact kids_ne_nil_of_mem_nodesFrom hmem

theorem Encodes.getChildNodeNum_kid (hp : p.length < d.height) (hnum : NumOf d leaves p num)
    {c : Fin 256} (hc : p ++ [(c : Symbol)] ∈ kids (words leaves) p) :
    NumOf d leaves (p ++ [(c : Symbol)]) (d.getChildNodeNum (num * kFanout + c)) := by
  rw [← hdeep.innerItems_eq_kids hp] at hc
  exact hd.getChildNodeNum hp hnum hc

theorem Encodes.hasLabel_eq_kid (hp : p.length < d.height) (hnum : NumOf d leaves p num)
    (c : Fin 256) :
    d.hasLabel (num * kFanout + c) = decide (p ++ [(c : Symbol)] ∈ kids (words leaves) p) := by
  rw [hd.hasLabel_eq hp hnum, hdeep.labelItems_eq_kids hp]

theorem Encodes.hasChild_eq_kid (hp : p.length < d.height) (hnum : NumOf d leaves p num)
    (c : Fin 256) :
    d.hasChild (num * kFanout + c) = decide (p ++ [(c : Symbol)] ∈ kids (words leaves) p) := by
  rw [hd.hasChild_eq hp hnum, hdeep.innerItems_eq_kids hp]

/-- From an item of a dense level the descent along first children ends at the node below the dense
levels that has the least word below the item. -/
theorem Encodes.descend_spec {fuel : ℕ} {c : Fin 256} (hp : PathTo d leaves p path)
    (hnum : NumOf d leaves p num) (hc : p ++ [(c : Symbol)] ∈ kids (words leaves) p)
    (hpath : iter.posInTrie = (num * kFanout + c) :: path) (hplain : iter.isAtPrefixKey = false)
    (hfuel : p.length + 1 + fuel = d.height) :
    ∃ r, Sent d leaves r (d.descend fuel (num * kFanout + c) iter) ∧
      ∀ w, Least (words leaves) (r <+: ·) w →
        Least (words leaves) (p ++ [(c : Symbol)] <+: ·) w := by
  have hlt : p.length < d.height := by omega
  have hchild := hd.getChildNodeNum_kid hdeep hlt hnum hc
  induction fuel generalizing p num c path iter with
  | zero =>
    refine ⟨p ++ [(c : Symbol)], ⟨rfl, rfl, rfl, hplain, by simpa using hfuel, ?_, hchild⟩,
      fun w hw => hw⟩
    show PathTo d leaves _ iter.posInTrie
    rw [hpath]
    exact hp.snoc c hlt hnum
  | succ fuel ih =>
    have hlt' : (p ++ [(c : Symbol)]).length < d.height := by
      rw [List.length_append, List.length_singleton]
      omega
    obtain ⟨b, B, hkids, hnext⟩ := hd.exists_first_kid hdeep hlt' hchild
    have hb : p ++ [(c : Symbol)] ++ [(b : Symbol)] ∈
        kids (words leaves) (p ++ [(c : Symbol)]) := by simp [hkids]
    rw [descend]
    simp only [hdeep.not_prefixkey hd, hnext, hd.hasChild_eq_kid hdeep hlt' hchild, hb,
      decide_true, Bool.not_true, Bool.false_eq_true, if_false]
    have hpath' : (iter.append (d.getChildNodeNum (num * kFanout + c) * kFanout + b)).posInTrie =
        (d.getChildNodeNum (num * kFanout + c) * kFanout + b) ::
          (num * kFanout + c) :: path := by
      rw [Iter.append, hpath]
    obtain ⟨r, hsent, hleast⟩ := ih (hp.snoc c hlt hnum) hchild hb hpath' hplain (by
      rw [List.length_append, List.length_singleton]
      omega) hlt' (hd.getChildNodeNum_kid hdeep hlt' hchild hb)
    refine ⟨r, hsent, fun w hw => ?_⟩
    exact (hleast w hw).of_first_kid hd.trie.pairwise (hdeep.notMem hlt'.le) hkids

theorem Encodes.moveToLeftMostKey_spec {c : Fin 256} (hp : PathTo d leaves p path)
    (hlt : p.length < d.height) (hnum : NumOf d leaves p num)
    (hc : p ++ [(c : Symbol)] ∈ kids (words leaves) p)
    (hpath : iter.posInTrie = (num * kFanout + c) :: path)
    (hplain : iter.isAtPrefixKey = false) :
    ∃ r, Sent d leaves r (d.moveToLeftMostKey iter) ∧
      ∀ w, Least (words leaves) (r <+: ·) w →
        Least (words leaves) (p ++ [(c : Symbol)] <+: ·) w := by
  have hlen := hp.length_eq
  rw [moveToLeftMostKey, hpath]
  simp only [hd.hasChild_eq_kid hdeep hlt hnum, hc, decide_true, Bool.not_true,
    Bool.false_eq_true, if_false]
  exact hd.descend_spec hdeep hp hnum hc hpath hplain (by omega)

theorem Encodes.exists_byte {a : Symbol} (hp : p.length < d.height)
    (ha : p ++ [a] ∈ kids (words leaves) p) : ∃ c : Fin 256, a = c := by
  rw [← hdeep.labelItems_eq_kids hp] at ha
  obtain ⟨c, hc⟩ := exists_byte_of_mem_labelItems hd.trie ha
  exact ⟨c, (List.append_singleton_inj.mp hc).2⟩

theorem Encodes.exists_later_kid {c : Fin 256} (hlt : p.length < d.height)
    (hnum : NumOf d leaves p num) (hlater : ∃ b : Fin 256, c < b ∧
      p ++ [(b : Symbol)] ∈ kids (words leaves) p) :
    ∃ (b : Fin 256) (A B : List (List Symbol)), c < b ∧
      d.getNextPos (num * kFanout + c) = num * kFanout + b ∧
      kids (words leaves) p = A ++ (p ++ [(b : Symbol)]) :: B ∧
      ∀ a, p ++ [a] ∈ A → a ≤ (c : Symbol) := by
  obtain ⟨b, ⟨hcb, hb⟩, hmin⟩ := WellFounded.has_min
    (wellFounded_lt : WellFounded ((· < ·) : Fin 256 → Fin 256 → Prop))
    {b | c < b ∧ p ++ [(b : Symbol)] ∈ kids (words leaves) p} hlater
  obtain ⟨A, B, hsplit⟩ := List.append_of_mem hb
  have hlabels := hdeep.labelItems_eq_kids hlt
  refine ⟨b, A, B, hcb, ?_, hsplit, fun a ha => ?_⟩
  · rw [hd.getNextPos_eq hlt hnum]
    apply hd.nextPosFrom_eq hlt hnum (hlabels ▸ hb) (Nat.succ_le_of_lt hcb)
    intro e hce heb he
    exact hmin e ⟨Fin.lt_def.mpr (by omega), hlabels ▸ he⟩ heb
  · have hmem : p ++ [a] ∈ kids (words leaves) p := by simp [hsplit, ha]
    obtain ⟨e, rfl⟩ := hd.exists_byte hdeep hlt hmem
    have hsorted := pairwise_kids hd.trie.pairwise p
    rw [hsplit] at hsorted
    have heb := ((List.pairwise_append.mp hsorted).2.2 _ ha _ List.mem_cons_self).lt_of_snoc
    by_contra hnot
    exact hmin e ⟨WithBot.coe_lt_coe.mp (not_le.mp hnot), hmem⟩ (WithBot.coe_lt_coe.mp heb)

theorem Encodes.backtrack_spec (h : PathTo d leaves x path) :
    (d.backtrack path = [] ∧ ∀ v ∈ words leaves, ¬ Precedes x v) ∨
      ∃ (p : List Symbol) (num : ℕ) (b : Fin 256) (rest : List ℕ),
        d.backtrack path = (num * kFanout + b) :: rest ∧ PathTo d leaves p rest ∧
        p.length < d.height ∧ NumOf d leaves p num ∧
        p ++ [(b : Symbol)] ∈ kids (words leaves) p ∧
        ∀ w, Least (words leaves) (p ++ [(b : Symbol)] <+: ·) w →
          Least (words leaves) (Precedes x) w := by
  induction h with
  | root => exact Or.inl ⟨rfl, fun v _ hlt => hlt.not_isPrefix List.nil_prefix⟩
  | @snoc p path num c hp hlt hnum ih =>
    have hnode (e : Fin 256) : (num * kFanout + e) / kFanout = num := by
      have he : (e : ℕ) < kFanout := e.isLt
      rw [Nat.mul_comm, Nat.mul_add_div (by decide), Nat.div_eq_of_lt he, Nat.add_zero]
    rw [backtrack]
    by_cases hlater : ∃ b : Fin 256, c < b ∧ p ++ [(b : Symbol)] ∈ kids (words leaves) p
    · obtain ⟨b, A, B, hcb, hnext, hsplit, hA⟩ := hd.exists_later_kid hdeep hlt hnum hlater
      simp only [hnext, hnode, Nat.lt_irrefl, if_false]
      refine Or.inr ⟨p, num, b, path, rfl, hp, hlt, hnum, by simp [hsplit], fun w hw => ?_⟩
      exact hw.of_later_kid hd.trie.pairwise hsplit hA (WithBot.coe_lt_coe.mpr hcb)
    · have hle : (num + 1) * kFanout ≤ d.getNextPos (num * kFanout + c) := by
        rw [hd.getNextPos_eq hlt hnum]
        apply hd.le_nextPosFrom hlt hnum
        intro e hce he
        exact hlater ⟨e, Fin.lt_def.mpr (by omega), hdeep.labelItems_eq_kids hlt ▸ he⟩
      have hcross : num < d.getNextPos (num * kFanout + c) / kFanout :=
        (Nat.le_div_iff_mul_le (by decide)).mpr hle
      simp only [hnode, hcross, if_true]
      have hall : ∀ a, p ++ [a] ∈ kids (words leaves) p → a ≤ (c : Symbol) := by
        intro a ha
        obtain ⟨e, rfl⟩ := hd.exists_byte hdeep hlt ha
        by_contra hnot
        exact hlater ⟨e, WithBot.coe_lt_coe.mp (not_le.mp hnot), ha⟩
      have hup : ∀ v ∈ words leaves, Precedes (p ++ [(c : Symbol)]) v ↔ Precedes p v :=
        fun v hv => precedes_snoc_iff_of_no_later_kid hall hv
      rcases ih with ⟨hnil, hnone⟩ | ⟨p', num', b, rest, hcons, hp', hlt', hnum', hb, hleast⟩
      · exact Or.inl ⟨hnil, fun v hv h => hnone v hv ((hup v hv).mp h)⟩
      · refine Or.inr ⟨p', num', b, rest, hcons, hp', hlt', hnum', hb, fun w hw => ?_⟩
        exact (hleast w hw).congr fun v hv => (hup v hv).symm

theorem Encodes.next_spec (h : PathTo d leaves x iter.posInTrie)
    (hplain : iter.isAtPrefixKey = false) :
    (∃ r, Sent d leaves r (d.next iter) ∧ ∀ w, Least (words leaves) (r <+: ·) w →
        Least (words leaves) (Precedes x) w) ∨
      ((∀ v ∈ words leaves, ¬ Precedes x v) ∧ (d.next iter).isValid = false) := by
  rcases hd.backtrack_spec hdeep h with
    ⟨hnil, hnone⟩ | ⟨p, num, b, rest, hcons, hp, hlt, hnum, hb, hleast⟩
  · refine Or.inr ⟨hnone, ?_⟩
    simp [next, hplain, hnil]
  · have hnext : d.next iter =
        d.moveToLeftMostKey { iter with posInTrie := (num * kFanout + b) :: rest } := by
      simp [next, hplain, hcons]
    rw [hnext]
    have hmove : ∃ r, Sent d leaves r (d.moveToLeftMostKey
        { iter with posInTrie := (num * kFanout + b) :: rest }) ∧
        ∀ w, Least (words leaves) (r <+: ·) w →
          Least (words leaves) (p ++ [(b : Symbol)] <+: ·) w :=
      hd.moveToLeftMostKey_spec hdeep hp hlt hnum hb rfl hplain
    obtain ⟨r, hsent, hr⟩ := hmove
    exact Or.inl ⟨r, hsent, fun w hw => hleast w (hr w hw)⟩

end Moves

section Seek

def Sought (d : LoudsDense) (leaves : List Leaf) (key : Bytes) (iter : Iter) : Prop :=
  Handed d leaves (symbols (key.take d.height)) iter ∨
    ((∀ w ∈ words leaves, ¬ w <+: symbols key) ∧
      ((∃ r, Sent d leaves r iter ∧ ∀ w, Least (words leaves) (r <+: ·) w →
          Least (words leaves) (Reaches (symbols key)) w) ∨
        ((∀ v ∈ words leaves, ¬ Reaches (symbols key) v) ∧ iter.isValid = false)))

variable (hd : Encodes d leaves) (hdeep : Deep d leaves) {key : Bytes} {direct : Bool}
include hd hdeep

theorem Encodes.seekFrom_end (hp : PathTo d leaves (symbols key) iter.posInTrie)
    (hlt : key.length < d.height) (hnum : NumOf d leaves (symbols key) num)
    (hplain : iter.isAtPrefixKey = false) :
    Sought d leaves key
      (d.moveToLeftMostKey (iter.append (d.nextPosFrom (num * kFanout)))) := by
  have hlt' : (symbols key).length < d.height := by rwa [length_symbols]
  obtain ⟨b, B, hkids, hnext⟩ := hd.exists_first_kid hdeep hlt' hnum
  have hb : symbols key ++ [(b : Symbol)] ∈ kids (words leaves) (symbols key) := by simp [hkids]
  have hpath : (iter.append (num * kFanout + b)).posInTrie =
      (num * kFanout + b) :: iter.posInTrie := rfl
  obtain ⟨r, hsent, hleast⟩ := hd.moveToLeftMostKey_spec hdeep hp hlt' hnum hb hpath hplain
  rw [hnext]
  refine Or.inr ⟨fun w hw hpre => ?_, Or.inl ⟨r, hsent, fun w hw => ?_⟩⟩
  · exact absurd (hdeep w hw) (not_lt.mpr (hpre.length_le.trans hlt'.le))
  · exact ((hleast w hw).of_first_kid hd.trie.pairwise (hdeep.notMem hlt'.le) hkids).reaches

theorem Encodes.next_of_missing {level : ℕ} (hin : level < key.length) (hlt : level < d.height)
    (hmissing : symbols (key.take level) ++ [(key[level] : Symbol)] ∉
      kids (words leaves) (symbols (key.take level)))
    (hpath : PathTo d leaves (symbols (key.take level) ++ [(key[level] : Symbol)])
      iter.posInTrie) (hplain : iter.isAtPrefixKey = false) :
    Sought d leaves key (d.next iter) := by
  have hquery : symbols key = symbols (key.take level) ++
      (key[level] : Symbol) :: symbols (key.drop (level + 1)) := by
    conv_lhs => rw [← List.take_append_drop level key, symbols_append,
      List.drop_eq_getElem_cons hin]
    rfl
  have hpre : symbols (key.take level) ++ [(key[level] : Symbol)] <+: symbols key := by
    rw [hquery]
    simp
  have hreach : ∀ v ∈ words leaves, Reaches (symbols key) v ↔
      Precedes (symbols (key.take level) ++ [(key[level] : Symbol)]) v := by
    intro v hv
    constructor
    · intro h
      rw [hquery] at h
      exact h.of_missing_kid hmissing hv
    · intro h
      exact Or.inr (h.mono hpre List.prefix_rfl)
  refine Or.inr ⟨fun w hw hwq => ?_, ?_⟩
  · have hlen : (symbols (key.take level) ++ [(key[level] : Symbol)]).length ≤ w.length := by
      have hdeepw := hdeep w hw
      rw [List.length_append, length_symbols, List.length_take_of_le hin.le,
        List.length_singleton]
      omega
    exact hmissing (mem_kids.mpr ⟨_, rfl, w, hw, List.prefix_of_prefix_length_le hpre hwq hlen⟩)
  · rcases hd.next_spec hdeep hpath hplain with ⟨r, hsent, hleast⟩ | ⟨hnone, hinvalid⟩
    · refine Or.inl ⟨r, hsent, fun w hw => ?_⟩
      exact (hleast w hw).congr fun v hv => (hreach v hv).symm
    · exact Or.inr ⟨fun v hv h => hnone v hv ((hreach v hv).mp h), hinvalid⟩

theorem Encodes.seekFrom_spec {fuel level : ℕ} (hlevel : level ≤ key.length)
    (hfuel : level + fuel = d.height)
    (hp : PathTo d leaves (symbols (key.take level)) iter.posInTrie)
    (hnum : NumOf d leaves (symbols (key.take level)) num)
    (hplain : iter.isAtPrefixKey = false) :
    Sought d leaves key (d.seekFrom direct key fuel level num none iter) := by
  have hlen : (symbols (key.take level)).length = level := by
    rw [length_symbols, List.length_take_of_le hlevel]
  induction fuel generalizing level num iter with
  | zero =>
    have hheight : level = d.height := by omega
    subst hheight
    exact Or.inl ⟨rfl, rfl, hplain, hlen, hp, hnum⟩
  | succ fuel ih =>
    have hlt : (symbols (key.take level)).length < d.height := by omega
    rw [seekFrom]
    cases hc : key[level]? with
    | none =>
      have hend : level = key.length :=
        le_antisymm hlevel (List.getElem?_eq_none_iff.mp hc)
      subst hend
      rw [List.take_length] at hp hnum hlt
      rw [length_symbols] at hlt
      exact hd.seekFrom_end hdeep hp hlt hnum hplain
    | some c =>
      obtain ⟨hin, rfl⟩ := List.getElem?_eq_some_iff.mp hc
      have hpath : PathTo d leaves (symbols (key.take level) ++ [(key[level] : Symbol)])
          (iter.append (num * kFanout + key[level])).posInTrie :=
        hp.snoc key[level] hlt hnum
      simp only [hd.hasLabel_eq_kid hdeep hlt hnum, hd.hasChild_eq_kid hdeep hlt hnum,
        hdeep.not_prefixkey hd, Bool.false_eq_true, and_false, if_false]
      by_cases hmem : symbols (key.take level) ++ [(key[level] : Symbol)] ∈
          kids (words leaves) (symbols (key.take level))
      · have htake : symbols (key.take (level + 1)) =
            symbols (key.take level) ++ [(key[level] : Symbol)] := by
          rw [← List.take_append_getElem hin, symbols_append]
          rfl
        simp only [hmem, decide_true, Bool.not_true, Bool.false_eq_true, if_false]
        have hchild := hd.getChildNodeNum_kid hdeep hlt hnum hmem
        rw [← htake] at hpath hchild
        apply ih (Nat.succ_le_of_lt hin) (by omega) hpath hchild hplain
        rw [length_symbols, List.length_take_of_le (by omega)]
      · simp only [hmem, decide_false, Bool.not_false, if_true]
        exact hd.next_of_missing hdeep hin (by omega) hmem hpath hplain

theorem Encodes.moveToNextCommonPrefixKey_spec :
    Sought d leaves key (d.moveToNextCommonPrefixKey direct key {}) :=
  hd.seekFrom_spec hdeep (Nat.zero_le _) (Nat.zero_add _) PathTo.root hd.numOf_root rfl

end Seek

end Spry.LoudsDense
