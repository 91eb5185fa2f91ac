import Spry.SuRFTrieSeek

/-!
# Keys that end in a dense level

Whatever the keys are, the seek through the dense levels hands the query to the sparse ones, or
completes at the query itself, or leaves it: then no key it goes on to is a prefix of the query. A
key that ends in a dense level is never handed over. At a complete iterator its parentheses are
looked for in the sparse levels, where it has none, and an iterator that left the query misses it.
-/

namespace Spry

open HalfOpen Louds

namespace LoudsDense

variable {d : LoudsDense} {leaves : List Leaf} {p x : List Symbol} {num : ℕ} {iter : Iter}
  {path : List ℕ} {key : Bytes}

def pathBytes (path : List ℕ) : Bytes := (path.map fun pos => Fin.ofNat 256 pos).reverse

theorem pathBytes_cons (pos : ℕ) (path : List ℕ) :
    pathBytes (pos :: path) = pathBytes path ++ [Fin.ofNat 256 pos] := by
  rw [pathBytes, List.map_cons, List.reverse_cons, pathBytes]

/-- A finished search whose key goes on from the positions of the path. -/
structure Extends (path : List ℕ) (iter : Iter) : Prop where
  isValid : iter.isValid = true
  isSearchComplete : iter.isSearchComplete = true
  isPrefix : pathBytes path <+: iter.getKey

theorem Extends.of_cons {pos : ℕ} (h : Extends (pos :: path) iter) : Extends path iter := by
  refine ⟨h.isValid, h.isSearchComplete, List.IsPrefix.trans ?_ h.isPrefix⟩
  rw [pathBytes_cons]
  exact List.prefix_append _ _

theorem descend_extends (fuel pos : ℕ) (iter : Iter) (hplain : iter.isAtPrefixKey = false) :
    Extends iter.posInTrie (d.descend fuel pos iter) := by
  induction fuel generalizing pos iter with
  | zero =>
    refine ⟨rfl, rfl, ?_⟩
    simp [descend, Iter.getKey, Iter.setFlags, hplain, pathBytes]
  | succ fuel ih =>
    rw [descend]
    dsimp only
    split_ifs
    · refine ⟨rfl, rfl, ?_⟩
      simp [Iter.getKey, Iter.setFlags, Iter.append, pathBytes]
    · refine ⟨rfl, rfl, ?_⟩
      simp [Iter.getKey, Iter.setFlags, Iter.append, hplain, pathBytes]
    · exact (ih _ (iter.append _) hplain).of_cons

theorem moveToLeftMostKey_extends (iter : Iter) (hpath : iter.posInTrie ≠ [])
    (hplain : iter.isAtPrefixKey = false) :
    Extends iter.posInTrie (d.moveToLeftMostKey iter) := by
  obtain ⟨pos, rest, hcons⟩ := List.exists_cons_of_ne_nil hpath
  simp only [moveToLeftMostKey, hcons]
  rw [← hcons]
  split_ifs
  · refine ⟨rfl, rfl, ?_⟩
    simp [Iter.getKey, Iter.setFlags, hplain, pathBytes]
  · exact descend_extends _ _ _ hplain

def Left (key : Bytes) (iter : Iter) : Prop :=
  iter.isValid = true → iter.isSearchComplete = true ∧ ¬ iter.getKey <+: key

theorem Extends.left (h : Extends path iter) (hnot : ¬ pathBytes path <+: key) : Left key iter :=
  fun _ => ⟨h.isSearchComplete, fun hpre => hnot (h.isPrefix.trans hpre)⟩

section Walk

variable (hd : Encodes d leaves)
include hd

theorem Encodes.exists_later_byte (hp : p.length < d.height) (hnum : NumOf d leaves p num)
    (c : Fin 256) (hsame : ¬ (num * kFanout + c) / kFanout <
      d.getNextPos (num * kFanout + c) / kFanout) :
    Fin.ofNat 256 (d.getNextPos (num * kFanout + c)) ≠ c := by
  have hle := hd.block_le hp hnum
  have hc : (c : ℕ) < 256 := c.isLt
  have hlater : num * kFanout + (c + 1) ≤ d.getNextPos (num * kFanout + c) := by
    rw [hd.getNextPos_eq hp hnum]
    apply Bitvector.le_nextSetBit hd.length_mod_kWordSize
    · simp only [kFanout] at hle ⊢
      omega
    · intro j hj hlt
      exact absurd hj (not_le.mpr hlt)
  intro heq
  have hbyte : d.getNextPos (num * kFanout + c) % 256 = c := congrArg Fin.val heq
  simp only [kFanout] at hsame hlater hbyte
  omega

theorem Encodes.backtrack_left (h : PathTo d leaves x path) (hx : x <+: symbols key) :
    d.backtrack path = [] ∨ ¬ pathBytes (d.backtrack path) <+: key := by
  induction h with
  | root => exact Or.inl rfl
  | @snoc p path num c hp hlt hnum ih =>
    rw [backtrack]
    split_ifs with hsame
    · exact ih ((List.prefix_append _ _).trans hx)
    · right
      intro hpre
      rw [← isPrefix_symbols, pathBytes_cons, symbols_append,
        show symbols (pathBytes path) = p from hp.symbols_eq] at hpre
      have heq := List.prefix_of_prefix_length_le hpre hx (by simp [symbols])
      have hsnoc := heq.eq_of_length (by simp [symbols])
      have hbyte := (List.append_singleton_inj.mp hsnoc).2
      exact hd.exists_later_byte hlt hnum c hsame (WithBot.coe_injective hbyte)

theorem Encodes.next_left (h : PathTo d leaves x iter.posInTrie) (hx : x <+: symbols key)
    (hplain : iter.isAtPrefixKey = false) : Left key (d.next iter) := by
  simp only [next, hplain, Bool.false_eq_true, if_false]
  split_ifs with hnil
  · intro hvalid
    exact absurd hvalid Bool.false_ne_true
  · have hnot := (hd.backtrack_left h hx).resolve_left hnil
    exact (moveToLeftMostKey_extends _ hnil rfl).left hnot

/-- The ends of the seek in the dense levels: the query is handed over below them, or the iterator
is complete at the query, or the seek has left it. -/
def Ended (d : LoudsDense) (leaves : List Leaf) (key : Bytes) (iter : Iter) : Prop :=
  (d.height ≤ key.length ∧ symbols (key.take d.height) ∉ words leaves) ∨
    (iter.isValid = true ∧ iter.isComplete = true ∧ iter.getKey = key) ∨ Left key iter

omit hd in
theorem NumOf.notMem (hnum : NumOf d leaves p num) : p ∉ words leaves := by
  have hmem := List.mem_of_getElem? hnum
  rw [nodesFrom, List.mem_flatMap] at hmem
  obtain ⟨i, _, hp⟩ := hmem
  exact (mem_nodes.mp hp).2

theorem Encodes.seekFrom_ended {fuel level : ℕ} (hlevel : level ≤ key.length)
    (hfuel : level + fuel = d.height)
    (hp : PathTo d leaves (symbols (key.take level)) iter.posInTrie)
    (hnum : NumOf d leaves (symbols (key.take level)) num) (hplain : iter.isAtPrefixKey = false) :
    Ended d leaves key (d.seekFrom false key fuel level num none iter) := by
  induction fuel generalizing level num iter with
  | zero =>
    rw [Nat.add_zero] at hfuel
    rw [hfuel] at hlevel hnum
    exact Or.inl ⟨hlevel, hnum.notMem⟩
  | succ fuel ih =>
    have hlt : (symbols (key.take level)).length < d.height := by
      rw [length_symbols, List.length_take]
      omega
    rw [seekFrom]
    rcases hlevel.eq_or_lt with hend | hin
    · -- the bytes of the query have run out, and one more position goes beyond it
      simp only [hend, List.getElem?_length]
      right
      right
      apply (moveToLeftMostKey_extends (iter.append _) (List.cons_ne_nil _ _) hplain).left
      intro hpre
      have hlen := hpre.length_le
      rw [Iter.append, pathBytes, List.length_reverse, List.length_map, List.length_cons,
        ← hp.length_eq, length_symbols, hend, List.take_length] at hlen
      omega
    · rw [List.getElem?_eq_getElem hin]
      have htake : symbols (key.take (level + 1)) =
          symbols (key.take level) ++ [((key[level] : Fin 256) : Symbol)] := by
        rw [List.take_succ_eq_append_getElem hin, symbols_append]
        rfl
      have hstep : PathTo d leaves (symbols (key.take (level + 1)))
          (iter.append (num * kFanout + key[level])).posInTrie := by
        rw [htake]
        exact hp.snoc _ hlt hnum
      have hx : symbols (key.take (level + 1)) <+: symbols key := by
        rw [isPrefix_symbols]
        exact List.take_prefix _ _
      have hnext := hd.next_left hstep hx hplain
      simp only [Bool.false_eq_true, false_and, if_false, Bool.false_or, decide_eq_true_eq]
      split_ifs with hlabel hchild hlast
      · exact Or.inr (Or.inr hnext)
      · refine Or.inr (Or.inl ⟨rfl, rfl, ?_⟩)
        have hkey : symbols ((iter.append (num * kFanout + key[level])).setFlags
            true true true true).getKey = symbols (key.take (level + 1)) :=
          PathTo.symbols_getKey hstep rfl hplain
        rw [hlast, List.take_length] at hkey
        exact symbols_injective hkey
      · exact Or.inr (Or.inr hnext)
      · have hc : symbols (key.take level) ++ [((key[level] : Fin 256) : Symbol)] ∈
            innerItems (words leaves) (symbols (key.take level)) := by
          have hbit := hd.hasChild_eq hlt hnum key[level]
          rw [Bool.not_eq_true', Bool.not_eq_false] at hchild
          rw [hchild] at hbit
          simpa using hbit.symm
        apply ih hin (by omega) hstep
        · rw [htake]
          exact hd.getChildNodeNum hlt hnum hc
        · exact hplain

theorem Encodes.moveToNextCommonPrefixKey_ended (key : Bytes) :
    Ended d leaves key (d.moveToNextCommonPrefixKey false key {}) := by
  apply hd.seekFrom_ended (Nat.zero_le _) (Nat.zero_add _)
  · exact PathTo.root
  · exact hd.numOf_root
  · rfl

end Walk

end LoudsDense

namespace SuRFTrie

variable {t : SuRFTrie} {leaves : List Leaf} {keys : List (ParenKey Bytes)} {key : Bytes}

theorem verdict_ne_of_miss {iter : LoudsSparse.Iter} {keyFound : Bytes} (hmiss : keyFound ≠ key)
    (bypassIfSameKey : Bool) : t.verdict iter keyFound key bypassIfSameKey ≠ some (true, true) := by
  rw [verdict]
  intro heq
  split_ifs at heq
  · simp at heq
  · cases hright : t.loudsSparse.getRightParenthesis iter <;> simp [hright] at heq
  · cases hleft : t.loudsSparse.getLeftParenthesis iter <;>
      cases hright : t.loudsSparse.getRightParenthesis iter <;> simp [hleft, hright] at heq
    split_ifs at heq <;> simp at heq

theorem moveToNextCommonPrefixKey_ne_of_left (hpos : 0 < t.loudsDense.height)
    (hleft : LoudsDense.Left key (t.loudsDense.moveToNextCommonPrefixKey false key {})) :
    (t.moveToNextCommonPrefixKey false key).isValid = true →
      (t.moveToNextCommonPrefixKey false key).getKey ≠ key := by
  intro hvalid heq
  have hdense : (t.moveToNextCommonPrefixKey false key).denseIter =
      t.loudsDense.moveToNextCommonPrefixKey false key {} := by
    simp only [moveToNextCommonPrefixKey, hpos.ne', if_false]
    cases hdenseValid : (t.loudsDense.moveToNextCommonPrefixKey false key {}).isValid with
    | false => simp
    | true =>
      have hcomplete := (hleft hdenseValid).1
      simp only [hcomplete, Bool.not_true, Bool.false_or, Bool.false_eq_true, if_false]
      split_ifs <;> rfl
  have hdenseValid : (t.loudsDense.moveToNextCommonPrefixKey false key {}).isValid = true := by
    rw [Iter.isValid, hdense, Bool.and_eq_true] at hvalid
    exact hvalid.1
  apply (hleft hdenseValid).2
  rw [← hdense]
  rw [Iter.getKey, hvalid] at heq
  simp only [Bool.not_true, Bool.false_eq_true, if_false] at heq
  split_ifs at heq
  · rw [heq]
  · exact ⟨_, heq⟩

/-- The query of a key that ends in a dense level misses the key, or reads no parentheses. -/
theorem isEntryAlive_shallow (hd : LoudsDense.Encodes t.loudsDense leaves) {w : List Symbol}
    (hw : w ∈ words leaves) (hword : w = symbols key ∨ w = symbols key ++ [⊥])
    (hshallow : w.length ≤ t.loudsDense.height) {surfKeyLength : ℕ}
    (hcut : key.length ≤ surfKeyLength) :
    t.isEntryAlive false surfKeyLength key true ≠ some (true, true) ∨
      t.isEntryAlive false surfKeyLength key false = none := by
  have hpos := hd.height_pos
  have hwhole : key.take surfKeyLength = key := List.take_of_length_le hcut
  simp only [isEntryAlive, Bool.false_eq_true, if_false, hwhole, hpos, if_true]
  rcases hd.moveToNextCommonPrefixKey_ended key with
    ⟨hlen, hnode⟩ | ⟨hvalid, hcomplete, hkey⟩ | hleft
  · -- the whole query would have been handed over, but it is a leaf
    exfalso
    have hle : (symbols key).length ≤ w.length := by
      rcases hword with rfl | rfl
      · exact le_rfl
      · rw [List.length_append]
        omega
    rw [length_symbols] at hle
    rw [List.take_of_length_le (hle.trans hshallow)] at hnode
    rcases hword with rfl | rfl
    · exact hnode hw
    · rw [List.length_append, length_symbols, List.length_singleton] at hshallow
      omega
  · right
    have hiter : t.moveToNextCommonPrefixKey false key =
        ⟨t.loudsDense.moveToNextCommonPrefixKey false key {}, {}⟩ := by
      simp only [moveToNextCommonPrefixKey, hpos.ne', if_false, hvalid, hcomplete, Bool.not_true,
        Bool.or_true, if_true]
    rw [hiter]
    have hvalid' : (Iter.mk (t.loudsDense.moveToNextCommonPrefixKey false key {}) {}).isValid =
        true := by
      simp [Iter.isValid, hvalid, hcomplete]
    have hkey' : (Iter.mk (t.loudsDense.moveToNextCommonPrefixKey false key {}) {}).getKey =
        key := by
      rw [Iter.getKey, hvalid']
      simp [hcomplete, hkey]
    rw [if_pos hvalid', hkey', verdict, if_neg (lt_irrefl key), if_pos rfl]
    rfl
  · left
    split_ifs with hvalid
    · exact verdict_ne_of_miss (moveToNextCommonPrefixKey_ne_of_left hpos hleft hvalid) true
    · simp

section Create

variable {sparseDenseRatio maxNumLevel surfKeyLength : ℕ} {useSuRFBase : Bool}
  (hkeys : keys.Pairwise fun a b => a.key < b.key) (hne : ∀ k ∈ keys, k.key ≠ [])
  (hmax : ∀ k ∈ keys, k.key.length ≤ maxNumLevel)

include hkeys hne hmax

theorem isEntryAlive_create (hnonempty : keys ≠ []) {includeDense : Bool}
    (hdeep : ∀ w ∈ words (leavesOf keys),
      (SuRFBuilder.build maxNumLevel keys).sparseStartLevel includeDense sparseDenseRatio <
        w.length)
    (hbase : useSuRFBase = true → ∀ p, p ++ [⊥] ∉ words (leavesOf keys))
    (hfits : Bitvector.LastNodeFits
      (create keys includeDense sparseDenseRatio maxNumLevel).loudsSparse.loudsBits)
    (bypassIfSameKey : Bool) :
    (create keys includeDense sparseDenseRatio maxNumLevel).isEntryAlive useSuRFBase surfKeyLength
        key bypassIfSameKey =
      some (SuRF.answer keys useSuRFBase surfKeyLength key bypassIfSameKey) := by
  obtain ⟨k, hk⟩ := List.exists_mem_of_ne_nil keys hnonempty
  obtain ⟨next, hleaf⟩ := exists_leaf_of_mem hk
  have hheight := (hdeep _ (List.mem_map_of_mem hleaf)).trans
    ((SuRFBuilder.built_build hkeys hne hmax).height _ hleaf)
  obtain ⟨n, ht⟩ := encodes_create hkeys hnonempty hne hmax hheight hfits
  exact ht.isEntryAlive_eq hdeep hkeys hbase surfKeyLength

theorem exists_isEntryAlive_ne {w : List Symbol} (hw : w ∈ words (leavesOf keys))
    (hshallow : w.length ≤
      (SuRFBuilder.build maxNumLevel keys).sparseStartLevel true sparseDenseRatio)
    (hcut : ∀ k ∈ keys, k.key.length ≤ surfKeyLength) :
    ∃ key bypassIfSameKey,
      (create keys true sparseDenseRatio maxNumLevel).isEntryAlive false surfKeyLength key
          bypassIfSameKey ≠
        some (SuRF.answer keys false surfKeyLength key bypassIfSameKey) := by
  have hW := trieWords_leavesOf hkeys hne
  obtain ⟨e, he, rfl⟩ := List.mem_map.mp hw
  obtain ⟨k, hk, next, rfl⟩ := exists_key_of_mem_leavesOf he
  have hstart : 0 < (SuRFBuilder.build maxNumLevel keys).sparseStartLevel true sparseDenseRatio :=
    (List.length_pos_of_ne_nil (hW.nonempty _ hw)).trans_le hshallow
  have hd := LoudsDense.encodes_ofBuilder (SuRFBuilder.built_build hkeys hne hmax) hW
    (List.ne_nil_of_mem hw) hstart
  have hanswer : SuRF.answer keys false surfKeyLength k.key true = (true, true) := by
    have hseek : seekEnd keys k.key = some k := seekEnd_self hkeys hk
    simp [SuRF.answer, SuRF.seekKey, SuRF.verdict, List.take_of_length_le (hcut k hk), hseek]
  rcases isEntryAlive_shallow (t := create keys true sparseDenseRatio maxNumLevel) hd hw
    (wordOf_shape _ _) hshallow (hcut k hk) with hmiss | hnone
  · exact ⟨k.key, true, hanswer ▸ hmiss⟩
  · exact ⟨k.key, false, by simp [hnone]⟩

end Create

end SuRFTrie

namespace SuRFTrieRDF

open SuRFTrie

end SuRFTrieRDF

end Spry
