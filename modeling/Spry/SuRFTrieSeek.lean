import Spry.LoudsDenseSeek
import Spry.LoudsSparseSeek
import Spry.SuRFPoints
import Spry.SuRFTrie

/-!
# The stored trie answers as the list of its keys

A seek in the stored trie ends at the leaf of the least word that reaches the query, or in direct
mode at a leaf that is a prefix of it, whether the trie has dense levels or not, as long as every
key ends below them. The query of a file's filter then gives the verdict of the list of its keys.
-/

namespace Spry

open HalfOpen Louds

namespace SuRF

def verdict (found : ParenKey Bytes) (key : Bytes) (bypassIfSameKey : Bool) :
    Bool × Bool :=
  if found.key = key then (bypassIfSameKey || !found.left, bypassIfSameKey)
  else (!found.right, false)

def seekKey (surf : SuRF Bytes) (direct : Bool) (key : Bytes) : Option (ParenKey Bytes) :=
  if direct then (surf.find? fun k => k.key <+: key).or (seekEnd surf key) else seekEnd surf key

def answer (surf : SuRF Bytes) (useSuRFBase : Bool) (surfKeyLength : ℕ) (key : Bytes)
    (bypassIfSameKey : Bool) : Bool × Bool :=
  let key := if useSuRFBase then key else key.take surfKeyLength
  match surf.seekKey useSuRFBase key with
  | none => (true, false)
  | some found =>
    verdict found (if useSuRFBase then key.take found.key.length else key) bypassIfSameKey

theorem answer_eq (surf : SuRF Bytes) (surfKeyLength : ℕ) (key : Bytes) (bypassIfSameKey : Bool) :
    surf.answer false surfKeyLength key bypassIfSameKey =
      (surf.isEntryAlive (key.take surfKeyLength) bypassIfSameKey,
        surf.flagKeyMayDeleted (key.take surfKeyLength) bypassIfSameKey) := by
  simp only [answer, seekKey, Bool.false_eq_true, if_false]
  cases hseek : seekEnd surf (key.take surfKeyLength) with
  | none => simp [isEntryAlive, flagKeyMayDeleted, hseek]
  | some found =>
    by_cases heq : found.key = key.take surfKeyLength
    · rw [isEntryAlive_of_hit bypassIfSameKey hseek heq]
      simp [verdict, flagKeyMayDeleted, hseek, heq]
    · rw [isEntryAlive_of_miss bypassIfSameKey hseek heq]
      simp [verdict, flagKeyMayDeleted, hseek, heq]

end SuRF

section Keys

variable {keys : List (ParenKey Bytes)} {key next q : Bytes}

theorem le_of_isPrefix {a b : Bytes} (h : a <+: b) : a ≤ b := by
  by_contra hnot
  have hlt : b < a := not_le.mp hnot
  by_cases hpre : b <+: a
  · exact hlt.ne (hpre.eq_of_length_le h.length_le)
  · exact (precedes_symbols.mpr ⟨hlt, hpre⟩).not_isPrefix_right (isPrefix_symbols.mpr h)

theorem le_of_isPrefix_wordOf (h : symbols q <+: wordOf key next) : q ≤ key := by
  apply le_of_isPrefix
  rcases wordOf_shape key next with hword | hword
  · rwa [hword, isPrefix_symbols] at h
  · rw [hword, List.prefix_concat_iff, isPrefix_symbols] at h
    rcases h with heq | hpre
    · have hbot : (⊥ : Symbol) ∈ symbols q := by simp [heq]
      exact absurd hbot (bot_notMem_symbols q)
    · exact hpre

theorem le_of_precedes_wordOf (h : Precedes (symbols q) (wordOf key next)) : q ≤ key := by
  rcases h.of_append_right with hlt | hpre
  · exact (precedes_symbols.mp hlt).1.le
  · -- the query goes on behind the key, where the word has at most a terminator
    obtain ⟨rest, rfl⟩ := isPrefix_symbols.mp hpre
    rw [symbols_append, wordOf, Precedes.append_append] at h
    cases rest with
    | nil => simp
    | cons c rest =>
      split_ifs at h
      · simp [symbols] at h
      · simp [symbols] at h

theorem reaches_wordOf_iff : Reaches (symbols q) (wordOf key next) ↔ q ≤ key := by
  constructor
  · intro h
    rcases h with hpre | hlt
    · exact le_of_isPrefix_wordOf hpre
    · exact le_of_precedes_wordOf hlt
  · intro hle
    by_cases hpre : q <+: key
    · exact Or.inl ((isPrefix_symbols.mpr hpre).trans (List.prefix_append _ _))
    · have hlt : q < key := lt_of_le_of_ne hle fun heq => hpre (heq ▸ List.prefix_rfl)
      exact Or.inr ((precedes_symbols.mpr ⟨hlt, hpre⟩).mono List.prefix_rfl
        (List.prefix_append _ _))

theorem eq_of_wordOf_eq
    (h : wordOf key next = symbols q ∨ wordOf key next = symbols q ++ [⊥]) : key = q := by
  have hnot {a b : Bytes} : symbols a ≠ symbols b ++ [⊥] := fun heq =>
    bot_notMem_symbols a (by simp [heq])
  apply symbols_injective
  rcases wordOf_shape key next with hword | hword
  · rw [hword] at h
    exact h.resolve_right hnot
  · rw [hword] at h
    exact List.append_cancel_right (h.resolve_left hnot.symm)

theorem exists_leaf_of_mem {k : ParenKey Bytes} (hk : k ∈ keys) :
    ∃ next, ⟨wordOf k.key next, k.left, k.right⟩ ∈ leavesOf keys := by
  induction keys with
  | nil => exact absurd hk List.not_mem_nil
  | cons k' rest ih =>
    rcases List.mem_cons.mp hk with rfl | hk
    · exact ⟨_, List.mem_cons_self⟩
    · obtain ⟨next, hnext⟩ := ih hk
      exact ⟨next, List.mem_cons_of_mem _ hnext⟩

theorem eq_of_key_eq (hkeys : keys.Pairwise fun a b => a.key < b.key) {a b : ParenKey Bytes}
    (ha : a ∈ keys) (hb : b ∈ keys) (heq : a.key = b.key) : a = b := by
  have hnodup : (keys.map ParenKey.key).Nodup := by
    rw [List.Nodup, List.pairwise_map]
    exact hkeys.imp fun h => h.ne
  exact List.inj_on_of_nodup_map hnodup ha hb heq

theorem seekEnd_self (hkeys : keys.Pairwise fun a b => a.key < b.key) {k : ParenKey Bytes}
    (hk : k ∈ keys) : seekEnd keys k.key = some k := by
  cases hseek : seekEnd keys k.key with
  | none =>
    rw [seekEnd, List.find?_eq_none] at hseek
    exact absurd (decide_eq_true le_rfl) (hseek k hk)
  | some p =>
    obtain ⟨hp, hle, hfirst⟩ := seekEnd_least hkeys hseek
    exact congrArg some (eq_of_key_eq hkeys hp hk (le_antisymm (hfirst k hk le_rfl) hle))

theorem seekEnd_of_least (hkeys : keys.Pairwise fun a b => a.key < b.key) {e : Leaf}
    (he : e ∈ leavesOf keys)
    (hleast : Least (words (leavesOf keys)) (Reaches (symbols q)) e.word) :
    ∃ k next, seekEnd keys q = some k ∧ e = ⟨wordOf k.key next, k.left, k.right⟩ := by
  obtain ⟨k, hk, next, rfl⟩ := exists_key_of_mem_leavesOf he
  have hreach := reaches_wordOf_iff.mp hleast.prop
  refine ⟨k, next, ?_, rfl⟩
  cases hseek : seekEnd keys q with
  | none =>
    rw [seekEnd, List.find?_eq_none] at hseek
    exact absurd (decide_eq_true hreach) (hseek k hk)
  | some p =>
    obtain ⟨hp, hqp, hfirst⟩ := seekEnd_least hkeys hseek
    obtain ⟨next', hleaf⟩ := exists_leaf_of_mem hp
    have hmem : wordOf p.key next' ∈ words (leavesOf keys) := List.mem_map_of_mem hleaf
    have hkp : k.key ≤ p.key := by
      apply reaches_wordOf_iff.mp
      rcases hleast.le _ hmem (reaches_wordOf_iff.mpr hqp) with heq | hlt
      · rw [heq]
        exact reaches_wordOf_iff.mpr le_rfl
      · exact hlt.of_append_left.symm
    have heq : p.key = k.key := le_antisymm (hfirst k hk hreach) hkp
    exact congrArg some (eq_of_key_eq hkeys hp hk heq)

theorem seekEnd_eq_none (hnone : ∀ w ∈ words (leavesOf keys), ¬ Reaches (symbols q) w) :
    seekEnd keys q = none := by
  rw [seekEnd, List.find?_eq_none]
  intro k hk hle
  obtain ⟨next, hleaf⟩ := exists_leaf_of_mem hk
  exact hnone _ (List.mem_map_of_mem hleaf) (reaches_wordOf_iff.mpr (by simpa using hle))

theorem wordOf_eq_symbols (hfree : ∀ p, p ++ [⊥] ∉ words (leavesOf keys))
    (hmem : wordOf key next ∈ words (leavesOf keys)) : wordOf key next = symbols key := by
  rcases wordOf_shape key next with hword | hword
  · exact hword
  · exact absurd (hword ▸ hmem) (hfree _)

theorem find?_isPrefix_of_leaf (hkeys : keys.Pairwise fun a b => a.key < b.key)
    (hW : Ascending (words (leavesOf keys))) (hfree : ∀ p, p ++ [⊥] ∉ words (leavesOf keys))
    {e : Leaf} (he : e ∈ leavesOf keys) (hpre : e.word <+: symbols q) :
    ∃ k next, keys.find? (fun k => k.key <+: q) = some k ∧ k.key <+: q ∧
      e = ⟨wordOf k.key next, k.left, k.right⟩ := by
  obtain ⟨k, hk, next, rfl⟩ := exists_key_of_mem_leavesOf he
  have hmem : wordOf k.key next ∈ words (leavesOf keys) := List.mem_map_of_mem he
  have hword := wordOf_eq_symbols hfree hmem
  have hkq : k.key <+: q := by
    rw [← isPrefix_symbols, ← hword]
    exact hpre
  refine ⟨k, next, ?_, hkq, rfl⟩
  cases hfind : keys.find? fun k => k.key <+: q with
  | none =>
    rw [List.find?_eq_none] at hfind
    exact absurd (decide_eq_true hkq) (hfind k hk)
  | some p =>
    have hp := List.mem_of_find?_eq_some hfind
    have hpq : p.key <+: q := by simpa using List.find?_some hfind
    obtain ⟨next', hleaf⟩ := exists_leaf_of_mem hp
    have hmem' : wordOf p.key next' ∈ words (leavesOf keys) := List.mem_map_of_mem hleaf
    have hword' := wordOf_eq_symbols hfree hmem'
    have heq : symbols p.key = symbols k.key := by
      rw [← hword, ← hword']
      rcases List.prefix_or_prefix_of_prefix hpq hkq with hpk | hkp
      · apply hW.eq_of_isPrefix hmem' hmem
        rwa [hword, hword', isPrefix_symbols]
      · symm
        apply hW.eq_of_isPrefix hmem hmem'
        rwa [hword, hword', isPrefix_symbols]
    exact congrArg some (eq_of_key_eq hkeys hp hk (symbols_injective heq))

theorem find?_isPrefix_eq_none (hfree : ∀ p, p ++ [⊥] ∉ words (leavesOf keys))
    (hnone : ∀ w ∈ words (leavesOf keys), ¬ w <+: symbols q) :
    keys.find? (fun k => k.key <+: q) = none := by
  rw [List.find?_eq_none]
  intro k hk hpre
  obtain ⟨next, hleaf⟩ := exists_leaf_of_mem hk
  have hmem : wordOf k.key next ∈ words (leavesOf keys) := List.mem_map_of_mem hleaf
  apply hnone _ hmem
  rw [wordOf_eq_symbols hfree hmem, isPrefix_symbols]
  simpa using hpre

end Keys

namespace SuRFTrie

variable {t : SuRFTrie} {leaves : List Leaf} {n : ℕ}

structure Encodes (t : SuRFTrie) (leaves : List Leaf) (n : ℕ) : Prop where
  sparse : LoudsSparse.Encodes t.loudsSparse leaves n
  startLevel_eq : t.loudsSparse.startLevel = t.loudsDense.height
  nonempty : words leaves ≠ []
  dense : 0 < t.loudsDense.height → LoudsDense.Encodes t.loudsDense leaves

section Create

variable {keys : List (ParenKey Bytes)} {includeDense : Bool} {sparseDenseRatio maxNumLevel : ℕ}

theorem encodes_create (hkeys : keys.Pairwise fun a b => a.key < b.key) (hnonempty : keys ≠ [])
    (hne : ∀ k ∈ keys, k.key ≠ []) (hmax : ∀ k ∈ keys, k.key.length ≤ maxNumLevel)
    (hlevel : (SuRFBuilder.build maxNumLevel keys).sparseStartLevel includeDense sparseDenseRatio <
      (SuRFBuilder.build maxNumLevel keys).getTreeHeight)
    (hfits : Bitvector.LastNodeFits
      (create keys includeDense sparseDenseRatio maxNumLevel).loudsSparse.loudsBits) :
    ∃ n, Encodes (create keys includeDense sparseDenseRatio maxNumLevel) (leavesOf keys) n := by
  have hW := trieWords_leavesOf hkeys hne
  have hb := SuRFBuilder.built_build hkeys hne hmax
  have hwords : words (leavesOf keys) ≠ [] := by
    obtain ⟨k, rest, rfl⟩ := List.exists_cons_of_ne_nil hnonempty
    simp [words, leavesOf]
  exact ⟨_, LoudsSparse.encodes_ofBuilder hb hW hwords hlevel hfits, rfl, hwords,
    fun hpos => LoudsDense.encodes_ofBuilder hb hW hwords hpos⟩

end Create

/-- The iterator is at a leaf: it gives the key of the leaf and reads its parentheses. -/
structure AtLeaf (t : SuRFTrie) (e : Leaf) (isValid : Bool) (keyFound : Bytes)
    (iter : LoudsSparse.Iter) : Prop where
  isValid : isValid = true
  word_eq : e.word = symbols keyFound ∨ e.word = symbols keyFound ++ [⊥]
  left : t.loudsSparse.getLeftParenthesis iter = some e.left
  right : t.loudsSparse.getRightParenthesis iter = some e.right

def Found (t : SuRFTrie) (leaves : List Leaf) (P : List Symbol → Prop) (isValid : Bool)
    (keyFound : Bytes) (iter : LoudsSparse.Iter) : Prop :=
  (∃ e ∈ leaves, Least (words leaves) P e.word ∧ AtLeaf t e isValid keyFound iter) ∨
    ((∀ w ∈ words leaves, ¬ P w) ∧ isValid = false)

theorem Found.congr {P Q : List Symbol → Prop} {isValid : Bool} {keyFound : Bytes}
    {iter : LoudsSparse.Iter} (h : Found t leaves P isValid keyFound iter)
    (hPQ : ∀ v ∈ words leaves, P v ↔ Q v) : Found t leaves Q isValid keyFound iter := by
  rcases h with ⟨e, he, hleast, hat⟩ | ⟨hnone, hinvalid⟩
  · exact Or.inl ⟨e, he, hleast.congr hPQ, hat⟩
  · exact Or.inr ⟨fun v hv hQ => hnone v hv ((hPQ v hv).mpr hQ), hinvalid⟩

/-- What a seek ends with: in direct mode the word that is a prefix of the query, if there is one,
and else the least word that reaches it. -/
def Sought (t : SuRFTrie) (leaves : List Leaf) (direct : Bool) (q : List Symbol) (isValid : Bool)
    (keyFound : Bytes) (iter : LoudsSparse.Iter) : Prop :=
  (direct = true ∧ ∃ e ∈ leaves, e.word <+: q ∧ AtLeaf t e isValid keyFound iter) ∨
    ((direct = true → ∀ w ∈ words leaves, ¬ w <+: q) ∧
      Found t leaves (Reaches q) isValid keyFound iter)

theorem nodeAt_of_numOf {d : LoudsDense} {r : List Symbol} {num : ℕ} (hn : 0 < n)
    (hnum : LoudsDense.NumOf d leaves r num) (hr : r.length = d.height) :
    LoudsSparse.NodeAt (words leaves) d.height n r num := by
  obtain ⟨m, rfl⟩ := Nat.exists_eq_succ_of_ne_zero hn.ne'
  rw [LoudsDense.NumOf, nodesFrom_succ, List.getElem?_append] at hnum
  split_ifs at hnum with hlt
  · have hmem := length_lt_of_mem_nodesFrom (List.mem_of_getElem? hnum)
    omega
  · rw [Nat.zero_add] at hnum
    obtain ⟨A, B, hnodes, hlen⟩ := exists_append_cons_of_getElem? hnum
    refine ⟨A, B ++ nodesFrom (words leaves) (d.height + 1) m, ?_, by omega⟩
    rw [nodesFrom, List.range'_succ, List.flatMap_cons, hnodes, List.append_assoc]
    rfl

section Seek

variable (ht : Encodes t leaves n) (hdeep : LoudsDense.Deep t.loudsDense leaves) {direct : Bool}
  {key : Bytes} {P : List Symbol → Prop} {iter : Iter} {r w : List Symbol}
include ht hdeep

theorem Encodes.exists_leaf {sparseIter : LoudsSparse.Iter}
    (hat : LoudsSparse.At t.loudsSparse leaves n r w sparseIter)
    (hr : r.length = t.loudsDense.height) :
    ∃ e ∈ leaves, ∃ keyFound, w = e.word ∧
      (e.word = symbols keyFound ∨ e.word = symbols keyFound ++ [⊥]) ∧
      sparseIter.getKey = keyFound.drop r.length ∧
      t.loudsSparse.getLeftParenthesis sparseIter = some e.left ∧
      t.loudsSparse.getRightParenthesis sparseIter = some e.right := by
  have hlt : r.length < w.length := hr ▸ hdeep w hat.mem
  obtain ⟨e, he, rfl⟩ := List.mem_map.mp hat.mem
  obtain ⟨keyFound, hshape⟩ := ht.sparse.trie.shape _ hat.mem
  exact ⟨e, he, keyFound, rfl, hshape, hat.getKey_eq hlt hshape,
    hat.getParentheses_eq ht.sparse he hlt⟩

theorem Encodes.atLeaf_of_sparse (hheight : t.loudsDense.height = 0)
    (hat : LoudsSparse.At t.loudsSparse leaves n [] w iter.sparseIter) :
    ∃ e ∈ leaves, w = e.word ∧
      AtLeaf t e iter.sparseIter.isValid iter.sparseIter.getKey iter.sparseIter := by
  obtain ⟨e, he, keyFound, hw, hshape, hkey, hleft, hright⟩ :=
    ht.exists_leaf hdeep hat (by simp [hheight])
  rw [List.length_nil, List.drop_zero] at hkey
  rw [hkey]
  exact ⟨e, he, hw, hat.isValid, hshape, hleft, hright⟩

theorem Encodes.atLeaf_of_dense (iter : Iter) (hr : r.length = t.loudsDense.height)
    (hpath : LoudsDense.PathTo t.loudsDense leaves r iter.denseIter.posInTrie)
    (hvalid : iter.denseIter.isValid = true) (hplain : iter.denseIter.isAtPrefixKey = false)
    (hincomplete : iter.denseIter.isComplete = false)
    (hat : LoudsSparse.At t.loudsSparse leaves n r w iter.sparseIter) :
    ∃ e ∈ leaves, w = e.word ∧ AtLeaf t e iter.isValid iter.getKey iter.sparseIter := by
  obtain ⟨e, he, keyFound, rfl, hshape, hsparse, hleft, hright⟩ := ht.exists_leaf hdeep hat hr
  have hdense := hpath.symbols_getKey hvalid hplain
  have hisValid : iter.isValid = true := by simp [Iter.isValid, hvalid, hat.isValid]
  have hlen : iter.denseIter.getKey.length = r.length := by rw [← hdense, length_symbols]
  have htake : iter.denseIter.getKey = keyFound.take r.length := by
    have hpre : symbols iter.denseIter.getKey <+: symbols keyFound ++ [⊥] := by
      rw [hdense]
      rcases hshape with hword | hword
      · exact (hword ▸ hat.path.isPrefix).trans (List.prefix_append _ _)
      · exact hword ▸ hat.path.isPrefix
    rw [List.prefix_concat_iff, isPrefix_symbols] at hpre
    rcases hpre with heq | hpre
    · have hbot : (⊥ : Symbol) ∈ symbols iter.denseIter.getKey := by simp [heq]
      exact absurd hbot (bot_notMem_symbols _)
    · rw [List.prefix_iff_eq_take.mp hpre, hlen]
  have hkey : iter.getKey = keyFound := by
    rw [Iter.getKey, hisValid, hincomplete, htake, hsparse]
    exact List.take_append_drop _ _
  rw [hkey]
  exact ⟨e, he, rfl, hisValid, hshape, hleft, hright⟩

theorem Encodes.moveSparseToLeftMostKey_spec (iter : Iter)
    (hsent : LoudsDense.Sent t.loudsDense leaves r iter.denseIter)
    (hpath : iter.sparseIter.path = []) (hterm : iter.sparseIter.isAtTerminator = false)
    (hleast : ∀ w, Least (words leaves) (r <+: ·) w → Least (words leaves) P w) :
    Found t leaves P (t.moveSparseToLeftMostKey iter).isValid
      (t.moveSparseToLeftMostKey iter).getKey (t.moveSparseToLeftMostKey iter).sparseIter := by
  have hr := hsent.length_eq
  have hnode := nodeAt_of_numOf ht.sparse.levels_pos hsent.num hr
  rw [← ht.startLevel_eq] at hnode
  obtain ⟨w, hw, hat⟩ := ht.sparse.moveToLeftMostKey_root
    (show r.length = t.loudsSparse.startLevel by rw [hr, ht.startLevel_eq])
    (hdeep.notMem hr.le)
    (show LoudsSparse.NodeAt _ _ _ _ iter.passToSparse.sparseIter.startNodeNum from hnode)
    hpath hterm
  have hincomplete : iter.denseIter.isComplete = false := by
    simp [LoudsDense.Iter.isComplete, hsent.isMoveLeftComplete]
  obtain ⟨e, he, rfl, hleaf⟩ := ht.atLeaf_of_dense hdeep (t.moveSparseToLeftMostKey iter) hr
    hsent.path hsent.isValid hsent.isAtPrefixKey hincomplete hat
  exact Or.inl ⟨e, he, hleast _ hw, hleaf⟩

theorem Encodes.incrementDenseIter_spec (hdense : LoudsDense.Encodes t.loudsDense leaves)
    (hhanded : LoudsDense.Handed t.loudsDense leaves r iter.denseIter)
    (hex : LoudsSparse.Exhausted iter.sparseIter) :
    Found t leaves (Precedes r) (t.incrementDenseIter iter).isValid
      (t.incrementDenseIter iter).getKey (t.incrementDenseIter iter).sparseIter := by
  rw [incrementDenseIter, hhanded.isValid]
  simp only [Bool.not_true, Bool.false_eq_true, if_false]
  rcases hdense.next_spec hdeep hhanded.path hhanded.isAtPrefixKey with
    ⟨r', hsent, hleast⟩ | ⟨hnone, hinvalid⟩
  · simp only [hsent.isValid, hsent.isMoveLeftComplete, Bool.not_true, Bool.or_self,
      Bool.false_eq_true, if_false]
    exact ht.moveSparseToLeftMostKey_spec hdeep
      { iter with denseIter := t.loudsDense.next iter.denseIter } hsent hex.path
      hex.isAtTerminator hleast
  · simp only [hinvalid, Bool.not_false, Bool.true_or, if_true]
    exact Or.inr ⟨hnone, by simp [Iter.isValid, hinvalid]⟩

theorem Encodes.seekSparse_spec (hdirect : direct = true → ∀ p, p ++ [⊥] ∉ words leaves)
    (iter : Iter) (hr : r.length = t.loudsDense.height)
    (hnode : LoudsSparse.NodeAt (words leaves) t.loudsDense.height n r
      iter.denseIter.sendOutNodeNum)
    (hpath : iter.sparseIter.path = []) (hterm : iter.sparseIter.isAtTerminator = false)
    (hquery : r = symbols (key.take t.loudsDense.height)) :
    LoudsSparse.Sought t.loudsSparse leaves n r direct (symbols key)
      (t.seekSparse direct key iter).sparseIter := by
  have hinner := hdeep.notMem hr.le
  rw [← ht.startLevel_eq] at hnode hr hquery
  have hsplit : r ++ symbols (key.drop t.loudsSparse.startLevel) = symbols key := by
    rw [hquery, ← symbols_append, List.take_append_drop]
  rw [← hsplit]
  exact ht.sparse.moveToNextCommonPrefixKey_spec hdirect hr hinner hnode hpath hterm

/-- Below the node where the query leaves the dense levels come the words that reach it first. -/
theorem Encodes.seekHanded_spec (hdirect : direct = true → ∀ p, p ++ [⊥] ∉ words leaves)
    (hdense : LoudsDense.Encodes t.loudsDense leaves)
    (hhanded : LoudsDense.Handed t.loudsDense leaves (symbols (key.take t.loudsDense.height))
      iter.denseIter)
    (hpath : iter.sparseIter.path = []) (hterm : iter.sparseIter.isAtTerminator = false) :
    let sought := t.seekSparse direct key iter
    let result := if !sought.sparseIter.isValid then t.incrementDenseIter sought else sought
    Sought t leaves direct (symbols key) result.isValid result.getKey result.sparseIter := by
  intro sought result
  have hr := hhanded.length_eq
  have hquery : symbols key = symbols (key.take t.loudsDense.height) ++
      symbols (key.drop t.loudsDense.height) := by
    rw [← symbols_append, List.take_append_drop]
  have hnode := nodeAt_of_numOf ht.sparse.levels_pos hhanded.num hr
  have hstart {v : List Symbol} (h : Reaches (symbols key) v) :
      Precedes (symbols (key.take t.loudsDense.height)) v ∨
        symbols (key.take t.loudsDense.height) <+: v := by
    rw [hquery] at h
    rcases h with hpre | hlt
    · exact Or.inr ((List.prefix_append _ _).trans hpre)
    · exact hlt.of_append_left
  have hincomplete : sought.denseIter.isComplete = false := by
    show iter.denseIter.isComplete = false
    simp [LoudsDense.Iter.isComplete, hhanded.isSearchComplete]
  have hatLeaf {w : List Symbol}
      (hat : LoudsSparse.At t.loudsSparse leaves n (symbols (key.take t.loudsDense.height)) w
        sought.sparseIter) :
      ∃ e ∈ leaves, w = e.word ∧ AtLeaf t e result.isValid result.getKey result.sparseIter := by
    have hresult : result = sought := by simp [result, hat.isValid]
    rw [hresult]
    exact ht.atLeaf_of_dense hdeep sought hr hhanded.path hhanded.isValid hhanded.isAtPrefixKey
      hincomplete hat
  have hsought : LoudsSparse.Sought t.loudsSparse leaves n _ direct (symbols key)
      sought.sparseIter := ht.seekSparse_spec hdeep hdirect iter hr hnode hpath hterm rfl
  rcases hsought with ⟨hmode, w, hpre, hat⟩ | ⟨hnoPrefix, hfound⟩
  · obtain ⟨e, he, rfl, hleaf⟩ := hatLeaf hat
    exact Or.inl ⟨hmode, e, he, hpre, hleaf⟩
  · refine Or.inr ⟨hnoPrefix, ?_⟩
    rcases hfound with ⟨w, hleast, hat⟩ | ⟨hnone, hex⟩
    · obtain ⟨e, he, rfl, hleaf⟩ := hatLeaf hat
      refine Or.inl ⟨e, he, ⟨hleast.mem, hleast.prop.2, fun v hv hreach => ?_⟩, hleaf⟩
      rcases hstart hreach with hlt | hpre
      · exact Or.inr (hlt.mono hleast.prop.1 List.prefix_rfl)
      · exact hleast.le v hv ⟨hpre, hreach⟩
    · have hresult : result = t.incrementDenseIter sought := by simp [result, hex.isValid]
      rw [hresult]
      have hnext := ht.incrementDenseIter_spec hdeep hdense
        (show LoudsDense.Handed _ _ _ sought.denseIter from hhanded) hex
      apply hnext.congr
      intro v hv
      constructor
      · intro hlt
        rw [hquery]
        exact Or.inr (hlt.mono (List.prefix_append _ _) List.prefix_rfl)
      · intro hreach
        exact (hstart hreach).resolve_right fun hpre => hnone v hv hpre hreach

theorem Encodes.moveToNextCommonPrefixKey_dense
    (hdirect : direct = true → ∀ p, p ++ [⊥] ∉ words leaves) (hpos : 0 < t.loudsDense.height) :
    let iter := t.moveToNextCommonPrefixKey direct key
    Sought t leaves direct (symbols key) iter.isValid iter.getKey iter.sparseIter := by
  have hdense := ht.dense hpos
  have hsought : LoudsDense.Sought t.loudsDense leaves key
      (t.loudsDense.moveToNextCommonPrefixKey direct key {}) :=
    hdense.moveToNextCommonPrefixKey_spec hdeep
  simp only [moveToNextCommonPrefixKey, hpos.ne', if_false]
  rcases hsought with
    hhanded | ⟨hnoPrefix, ⟨r, hsent, hleast⟩ | ⟨hnone, hinvalid⟩⟩
  · simp only [hhanded.isValid, hhanded.isSearchComplete, LoudsDense.Iter.isComplete,
      Bool.false_and, Bool.not_true, Bool.or_self, Bool.not_false, Bool.false_eq_true, if_false,
      if_true]
    exact ht.seekHanded_spec hdeep hdirect hdense hhanded rfl rfl
  · simp only [hsent.isValid, hsent.isSearchComplete, hsent.isMoveLeftComplete,
      LoudsDense.Iter.isComplete, Bool.false_and, Bool.and_false, Bool.not_true, Bool.or_self,
      Bool.not_false, Bool.false_eq_true, if_false, if_true]
    exact Or.inr ⟨fun _ => hnoPrefix,
      ht.moveSparseToLeftMostKey_spec hdeep _ hsent rfl rfl hleast⟩
  · simp only [hinvalid, Bool.not_false, Bool.true_or, if_true]
    exact Or.inr ⟨fun _ => hnoPrefix, Or.inr ⟨hnone, by simp [Iter.isValid, hinvalid]⟩⟩

omit hdeep in
theorem Encodes.nodeAt_root (hheight : t.loudsDense.height = 0) :
    LoudsSparse.NodeAt (words leaves) t.loudsDense.height n [] 0 := by
  obtain ⟨m, hm⟩ := Nat.exists_eq_succ_of_ne_zero ht.sparse.levels_pos.ne'
  refine ⟨[], nodesFrom (words leaves) 1 m, ?_, by simp [nodesFrom, hheight]⟩
  rw [hheight, hm, nodesFrom, List.range'_succ, List.flatMap_cons,
    nodes_zero ht.sparse.trie.toAscending ht.nonempty]
  rfl

theorem Encodes.found_of_sparse (hheight : t.loudsDense.height = 0)
    (h : LoudsSparse.Found t.loudsSparse leaves n [] P iter.sparseIter) :
    Found t leaves P iter.sparseIter.isValid iter.sparseIter.getKey iter.sparseIter := by
  rcases h with ⟨w, hleast, hat⟩ | ⟨hnone, hex⟩
  · obtain ⟨e, he, rfl, hleaf⟩ := ht.atLeaf_of_sparse hdeep hheight hat
    exact Or.inl ⟨e, he, hleast.congr fun v _ => by simp, hleaf⟩
  · exact Or.inr ⟨fun v hv => hnone v hv List.nil_prefix, hex.isValid⟩

theorem Encodes.moveToNextCommonPrefixKey_sparse
    (hdirect : direct = true → ∀ p, p ++ [⊥] ∉ words leaves) (hheight : t.loudsDense.height = 0) :
    let iter := t.moveToNextCommonPrefixKey direct key
    Sought t leaves direct (symbols key) iter.sparseIter.isValid iter.sparseIter.getKey
      iter.sparseIter := by
  intro iter
  have hiter : iter = t.seekSparse direct key {} := by
    simp [iter, moveToNextCommonPrefixKey, hheight]
  have hsought := ht.seekSparse_spec hdeep hdirect {} (by simp [hheight]) (ht.nodeAt_root hheight)
    rfl rfl (show [] = symbols (key.take t.loudsDense.height) by simp [hheight, symbols])
  rw [hiter]
  rcases hsought with ⟨hmode, w, hpre, hat⟩ | ⟨hnoPrefix, hfound⟩
  · obtain ⟨e, he, rfl, hleaf⟩ := ht.atLeaf_of_sparse hdeep hheight hat
    exact Or.inl ⟨hmode, e, he, hpre, hleaf⟩
  · exact Or.inr ⟨hnoPrefix, ht.found_of_sparse hdeep hheight hfound⟩

end Seek

section Verdict

variable {keys : List (ParenKey Bytes)} {key : Bytes} {direct bypassIfSameKey : Bool}

theorem verdict_eq {iter : LoudsSparse.Iter} {k : ParenKey Bytes} (hle : key ≤ k.key)
    (hleft : t.loudsSparse.getLeftParenthesis iter = some k.left)
    (hright : t.loudsSparse.getRightParenthesis iter = some k.right) :
    t.verdict iter k.key key bypassIfSameKey = some (SuRF.verdict k key bypassIfSameKey) := by
  have hnot : ¬ k.key < key := not_lt.mpr hle
  rw [verdict, if_neg hnot, hleft, hright, SuRF.verdict]
  by_cases heq : k.key = key
  · rw [if_pos heq, if_pos heq]
    cases bypassIfSameKey <;> cases k.left <;> cases k.right <;> rfl
  · rw [if_neg heq, if_neg heq]
    cases bypassIfSameKey <;> cases k.left <;> cases k.right <;> rfl

theorem Found.verdict_eq (hkeys : keys.Pairwise fun a b => a.key < b.key) {cut : ℕ → Bytes}
    (hcut : ∀ m, cut m ≤ key) {isValid : Bool} {keyFound : Bytes} {iter : LoudsSparse.Iter}
    (h : Found t (leavesOf keys) (Reaches (symbols key)) isValid keyFound iter) :
    (if isValid then t.verdict iter keyFound (cut keyFound.length) bypassIfSameKey
      else some (true, false)) =
      some (match seekEnd keys key with
        | none => (true, false)
        | some found => SuRF.verdict found (cut found.key.length) bypassIfSameKey) := by
  rcases h with ⟨e, he, hleast, hat⟩ | ⟨hnone, hinvalid⟩
  · obtain ⟨k, next, hseek, rfl⟩ := seekEnd_of_least hkeys he hleast
    rw [if_pos hat.isValid, ← eq_of_wordOf_eq hat.word_eq, hseek]
    exact SuRFTrie.verdict_eq ((hcut _).trans (seekEnd_least hkeys hseek).2.1) hat.left hat.right
  · rw [hinvalid, seekEnd_eq_none hnone]
    rfl

theorem Sought.verdict_eq (hkeys : keys.Pairwise fun a b => a.key < b.key)
    (hW : Ascending (words (leavesOf keys)))
    (hdirect : direct = true → ∀ p, p ++ [⊥] ∉ words (leavesOf keys)) {isValid : Bool}
    {keyFound : Bytes} {iter : LoudsSparse.Iter}
    (h : Sought t (leavesOf keys) direct (symbols key) isValid keyFound iter) :
    (if isValid then
        t.verdict iter keyFound (if direct then key.take keyFound.length else key) bypassIfSameKey
      else some (true, false)) =
      some (match SuRF.seekKey keys direct key with
        | none => (true, false)
        | some found =>
          SuRF.verdict found (if direct then key.take found.key.length else key)
            bypassIfSameKey) := by
  have hcut (m : ℕ) : (if direct then key.take m else key) ≤ key := by
    split_ifs
    · exact le_of_isPrefix (List.take_prefix m key)
    · exact le_rfl
  rcases h with ⟨hmode, e, he, hpre, hat⟩ | ⟨hnoPrefix, hfound⟩
  · obtain ⟨k, next, hfind, hkq, rfl⟩ := find?_isPrefix_of_leaf hkeys hW (hdirect hmode) he hpre
    have hseek : SuRF.seekKey keys direct key = some k := by
      rw [SuRF.seekKey, if_pos hmode, hfind, Option.some_or]
    have hle : (if direct then key.take k.key.length else key) ≤ k.key := by
      rw [if_pos hmode, ← List.prefix_iff_eq_take.mp hkq]
    rw [if_pos hat.isValid, ← eq_of_wordOf_eq hat.word_eq, hseek]
    exact SuRFTrie.verdict_eq hle hat.left hat.right
  · have hseekEnd : SuRF.seekKey keys direct key = seekEnd keys key := by
      rw [SuRF.seekKey]
      split_ifs with hmode
      · rw [find?_isPrefix_eq_none (hdirect hmode) (hnoPrefix hmode), Option.none_or]
      · rfl
    rw [hseekEnd]
    exact hfound.verdict_eq hkeys hcut

theorem Encodes.isEntryAlive_eq (ht : Encodes t (leavesOf keys) n)
    (hdeep : LoudsDense.Deep t.loudsDense (leavesOf keys))
    (hkeys : keys.Pairwise fun a b => a.key < b.key) {useSuRFBase : Bool}
    (hdirect : useSuRFBase = true → ∀ p, p ++ [⊥] ∉ words (leavesOf keys)) (surfKeyLength : ℕ) :
    t.isEntryAlive useSuRFBase surfKeyLength key bypassIfSameKey =
      some (SuRF.answer keys useSuRFBase surfKeyLength key bypassIfSameKey) := by
  have hW := ht.sparse.trie.toAscending
  simp only [isEntryAlive, SuRF.answer]
  by_cases hpos : 0 < t.loudsDense.height
  · rw [if_pos hpos]
    exact (ht.moveToNextCommonPrefixKey_dense hdeep hdirect hpos).verdict_eq hkeys hW hdirect
  · rw [if_neg hpos]
    exact (ht.moveToNextCommonPrefixKey_sparse hdeep hdirect (by omega)).verdict_eq hkeys hW
      hdirect

end Verdict

end SuRFTrie

end Spry
