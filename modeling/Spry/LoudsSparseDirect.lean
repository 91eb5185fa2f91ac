import Spry.LoudsSparseSeek

/-!
# The direct seek in tries with terminators

In direct mode the seek stops at a stored key that is a prefix of the query. On the way down it
records the level of every terminator it passes, and returns to the last one recorded, one byte
short of the key there. Either way the iterator's bytes are a prefix of the query's; only where no
stored key is one does it end at the least word that reaches the query.
-/

namespace Spry.LoudsSparse

open Louds

variable {t : LoudsSparse} {leaves : List Leaf} {n : ℕ} {p r : List Symbol} {start : ℕ}
  {iter : Iter}

def Extends (leaves : List Leaf) (q : List Symbol) : Prop :=
  ∃ x, x <+: q ∧ (x ∈ words leaves ∨ x ++ [⊥] ∈ words leaves)

theorem Extends.extend (h : Extends leaves p) (q : List Symbol) : Extends leaves (p ++ q) := by
  obtain ⟨x, hxp, hx⟩ := h
  exact ⟨x, hxp.trans (List.prefix_append _ _), hx⟩

structure Hit (bytes : Bytes) (iter : Iter) : Prop where
  isValid : iter.isValid = true
  isPrefix : iter.getKey <+: bytes

def Iter.bytes (iter : Iter) : Bytes := (iter.path.map Prod.fst).reverse

theorem Iter.bytes_append (iter : Iter) (label : Fin 256) (pos : ℕ) :
    (iter.append label pos).bytes = iter.bytes ++ [label] := by
  simp [Iter.bytes, Iter.append]

theorem hit_setKeyLen (hterm : iter.isAtTerminator = false) (rest : Bytes) (m : ℕ) :
    Hit (iter.bytes ++ rest) ({ iter with isValid := true }.setKeyLen m) := by
  refine ⟨rfl, List.IsPrefix.trans ?_ (List.prefix_append _ _)⟩
  simp only [Iter.getKey, Iter.setKeyLen, hterm, if_true, Bool.false_eq_true, if_false, Iter.bytes]
  rw [List.map_drop, List.reverse_drop]
  exact List.take_prefix _ _

theorem hit_append (hterm : iter.isAtTerminator = false) (c : Fin 256) (pos : ℕ) (rest : Bytes) :
    Hit (iter.bytes ++ c :: rest) { iter.append c pos with isValid := true } := by
  refine ⟨rfl, ?_⟩
  have hkey : Iter.getKey { iter.append c pos with isValid := true } = iter.bytes ++ [c] := by
    rw [← Iter.bytes_append iter c pos]
    simp [Iter.getKey, Iter.append, hterm, Iter.bytes]
  rw [hkey, List.append_cons iter.bytes c rest]
  exact List.prefix_append _ _

theorem isPrefix_snoc_of_isPrefix {a : Symbol} {x q : List Symbol} (hpx : p <+: x) (hne : x ≠ p)
    (hxq : x <+: p ++ [a] ++ q) : p ++ [a] <+: x := by
  apply List.prefix_of_prefix_length_le (List.prefix_append _ _) hxq
  have hlt : p.length < x.length := lt_of_le_of_ne hpx.length_le fun hlen =>
    hne (hpx.eq_of_length hlen).symm
  rw [List.length_append, List.length_singleton]
  exact hlt

section Seek

variable (ht : Encodes t leaves n)
include ht

/-- No stored key below a node is a prefix of the query, and the iterator is at the least word that
reaches it. -/
structure Missed (t : LoudsSparse) (leaves : List Leaf) (n : ℕ) (r p q : List Symbol)
    (iter : Iter) : Prop where
  no_word : ∀ w ∈ words leaves, ¬ w <+: q
  no_terminator : ∀ x, p <+: x → x ≠ p → x <+: q → x ++ [⊥] ∉ words leaves
  found : Found t leaves n r (Reaches q) iter

theorem Encodes.seekFrom_direct (hr : r.length = t.startLevel) {rest : Bytes} {level : ℕ}
    {matched : Option ℕ} (hmatched : matched ≠ none → Extends leaves p)
    (hp : PathTo (words leaves) t.startLevel n r p iter.path)
    (hrun : RunAt (words leaves) t.startLevel n p start) (hinner : p ∉ words leaves)
    (hkids : kids (words leaves) p ≠ [])
    (hroot : NodeAt (words leaves) t.startLevel n r iter.startNodeNum)
    (hterm : iter.isAtTerminator = false) :
    (Extends leaves (p ++ symbols rest) ∧
        Hit (iter.bytes ++ rest) (t.seekFrom true rest level start matched iter)) ∨
      (matched = none ∧ Missed t leaves n r p (p ++ symbols rest)
        (t.seekFrom true rest level start matched iter)) := by
  have hW := ht.trie.toAscending
  induction rest generalizing p start level matched iter with
  | nil =>
    cases matched with
    | some m =>
      exact Or.inl ⟨(hmatched (Option.some_ne_none m)).extend _, hit_setKeyLen hterm [] m⟩
    | none =>
      have hq : p ++ symbols [] = p := by simp [symbols]
      rw [hq]
      refine Or.inr ⟨rfl, fun w hw => ?_, fun x hpx hne hxp => ?_, ?_⟩
      · exact hW.not_isPrefix_of_kid hinner hkids hw
      · exact absurd (hxp.eq_of_length_le hpx.length_le) hne
      · exact ht.seekFrom_nil true hr hp hrun hinner hkids hroot hterm
  | cons c rest ih =>
    have hassoc : p ++ symbols (c :: rest) = p ++ [(c : Symbol)] ++ symbols rest := by
      simp [symbols]
    rcases ht.seekFrom_cons hrun hkids true c rest level matched iter with
      ⟨found, hkid, hmem, heq⟩ | ⟨found, next, hkid, hmem, hrun', hkids', heq⟩ | ⟨hmissing, heq⟩
    · rw [heq, Bool.true_or, if_pos rfl]
      refine Or.inl ⟨⟨_, ?_, Or.inl hmem⟩, hit_append hterm c found rest⟩
      rw [hassoc]
      exact List.prefix_append _ _
    · have hpath := hp.append hkid
      have hbytes : (iter.append c found).bytes ++ rest = iter.bytes ++ c :: rest := by
        rw [Iter.bytes_append, List.append_assoc, List.singleton_append]
      rw [heq, hassoc, ← hbytes]
      split_ifs with hcond
      · rcases ih (fun _ => ⟨_, List.prefix_rfl, Or.inr hcond.2⟩) hpath hrun' hmem hkids' hroot
          hterm with hhit | ⟨hnone, _⟩
        · exact Or.inl hhit
        · exact absurd hnone (Option.some_ne_none _)
      · rcases ih (fun hsome => (hmatched hsome).extend _) hpath hrun' hmem hkids' hroot hterm
          with hhit | ⟨hnone, hmissed⟩
        · exact Or.inl hhit
        refine Or.inr ⟨hnone, hmissed.no_word, fun x hpx hne hxq => ?_, hmissed.found⟩
        have hnext := isPrefix_snoc_of_isPrefix hpx hne hxq
        by_cases heq : x = p ++ [(c : Symbol)]
        · -- a terminator at the node would have been recorded
          intro hbot
          exact hcond ⟨rfl, heq ▸ hbot⟩
        · exact hmissed.no_terminator x hnext heq hxq
    · rw [heq]
      cases matched with
      | some m =>
        exact Or.inl ⟨(hmatched (Option.some_ne_none m)).extend _, hit_setKeyLen hterm _ m⟩
      | none =>
        refine Or.inr ⟨rfl, fun w hw => ?_, fun x hpx hne hxq hbot => ?_, ?_⟩
        · exact hW.not_isPrefix_of_missing_kid hinner hkids hmissing hw
        · rw [hassoc] at hxq
          have hnext := isPrefix_snoc_of_isPrefix hpx hne hxq
          exact hmissing (mem_kids.mpr ⟨c, rfl, _, hbot, hnext.trans (List.prefix_append _ _)⟩)
        · exact ht.found_missing hr rest hp hrun hkids hterm hmissing

theorem Encodes.moveToNextCommonPrefixKey_direct (key : Bytes) (hr : r.length = t.startLevel)
    (hinner : r ∉ words leaves)
    (hroot : NodeAt (words leaves) t.startLevel n r iter.startNodeNum) (hpath : iter.path = [])
    (hterm : iter.isAtTerminator = false) :
    (Extends leaves (r ++ symbols (key.drop t.startLevel)) ∧
        Hit (key.drop t.startLevel) (t.moveToNextCommonPrefixKey true key iter)) ∨
      Missed t leaves n r r (r ++ symbols (key.drop t.startLevel))
        (t.moveToNextCommonPrefixKey true key iter) := by
  obtain ⟨y, B, hcons, _⟩ := ht.exists_first_kid hroot
  have hp : PathTo (words leaves) t.startLevel n r r iter.path := hpath ▸ PathTo.root
  have hbytes : iter.bytes = [] := by simp [Iter.bytes, hpath]
  rcases ht.seekFrom_direct hr (fun h => absurd rfl h) hp (ht.getFirstLabelPos hroot) hinner
    (by simp [hcons]) hroot hterm with hhit | ⟨_, hmissed⟩
  · rw [hbytes] at hhit
    exact Or.inl hhit
  · exact Or.inr hmissed

end Seek

end Spry.LoudsSparse
