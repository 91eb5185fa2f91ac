import Spry.LoudsSparseDirect
import Spry.SuRFBase

/-!
# Tries without dense levels

Without dense levels a seek is a seek in the sparse ones from the root. For keys of one length it
ends at the least stored key from the query on and reads the bits given for it. In SuRF-base mode
with the bypass it decides as the list of the shortened keys does, terminators included, and so
reports no key deleted that is in no range.
-/

namespace Spry

open HalfOpen Louds

namespace Bitvector

def DistanceCorrect (bits : List Bool) : Prop :=
  ∀ pos, pos + 1 < bits.length → readBit bits pos = true →
    distanceToNextSetBit bits pos = 1 + (bits.drop (pos + 1)).findIdx id

instance (bits : List Bool) : Decidable (DistanceCorrect bits) :=
  decidable_of_iff (∀ pos < bits.length - 1, readBit bits pos = true →
      distanceToNextSetBit bits pos = 1 + (bits.drop (pos + 1)).findIdx id)
    ⟨fun h pos hpos => h pos (by omega), fun h pos hpos => h pos (by omega)⟩

theorem DistanceCorrect.lastNodeFits {bits : List Bool} (h : DistanceCorrect bits) :
    LastNodeFits bits := by
  intro pos hpos hset hlast
  by_cases hend : pos + 1 = bits.length
  · exact Or.inl hend
  right
  have hlt : pos + 1 < bits.length := by omega
  have hclear : ∀ b ∈ bits.drop (pos + 1), id b = false := by
    intro b hb
    obtain ⟨i, hi, rfl⟩ := List.mem_iff_getElem.mp hb
    rw [List.length_drop] at hi
    have hbit := hlast (pos + 1 + i) (by omega) (by omega)
    rw [readBit, List.getD_eq_getElem _ _ (by omega)] at hbit
    simpa using hbit
  have hidx : (bits.drop (pos + 1)).findIdx? id = none := by
    rw [List.findIdx?_eq_none_iff]
    exact hclear
  have hlen : (bits.drop (pos + 1)).findIdx id = bits.length - (pos + 1) := by
    rw [List.findIdx_eq_length_of_false hclear, List.length_drop]
  have hdist := h pos hlt hset
  rw [distanceToNextSetBit, nextSetBit, hidx, hlen] at hdist
  simp only at hdist
  split_ifs at hdist with hword
  · exact Or.inl hword
  · right
    have hwords : kWordSize * numWords bits = bits.length := by omega
    rw [← hwords]
    exact Nat.mul_mod_right _ _

end Bitvector

namespace SuRFTrie

variable {t : SuRFTrie} {keys : List (ParenKey Bytes)} {n : ℕ} {key : Bytes}

section Bypass

variable (ht : Encodes t (leavesOf keys) n)
  (hdeep : LoudsDense.Deep t.loudsDense (leavesOf keys))
  (hkeys : keys.Pairwise fun a b => a.key < b.key) (hheight : t.loudsDense.height = 0)

theorem exists_isPrefix_of_extends (hext : LoudsSparse.Extends (leavesOf keys) (symbols key)) :
    ∃ k ∈ keys, k.key <+: key := by
  obtain ⟨x, hx, hmem⟩ := hext
  obtain ⟨bytes, rfl⟩ : ∃ bytes, x = symbols bytes := by
    refine ⟨key.take x.length, ?_⟩
    rw [List.prefix_iff_eq_take.mp hx, symbols, symbols, List.map_take, List.length_take]
    simp
  have hword : ∃ w ∈ words (leavesOf keys), w = symbols bytes ∨ w = symbols bytes ++ [⊥] := by
    rcases hmem with hmem | hmem
    · exact ⟨_, hmem, Or.inl rfl⟩
    · exact ⟨_, hmem, Or.inr rfl⟩
  obtain ⟨w, hw, hshape⟩ := hword
  obtain ⟨e, he, rfl⟩ := List.mem_map.mp hw
  obtain ⟨k, hk, next, rfl⟩ := exists_key_of_mem_leavesOf he
  refine ⟨k, hk, ?_⟩
  rw [eq_of_wordOf_eq hshape, ← isPrefix_symbols]
  exact hx

include ht hdeep hkeys hheight

omit hkeys in
theorem Encodes.moveToNextCommonPrefixKey_direct (key : Bytes) :
    let iter := (t.moveToNextCommonPrefixKey true key).sparseIter
    (LoudsSparse.Extends (leavesOf keys) (symbols key) ∧ LoudsSparse.Hit key iter) ∨
      LoudsSparse.Missed t.loudsSparse (leavesOf keys) n [] [] (symbols key) iter := by
  intro iter
  have hstart : t.loudsSparse.startLevel = 0 := ht.startLevel_eq.trans hheight
  have hiter : iter = t.loudsSparse.moveToNextCommonPrefixKey true key {} := by
    simp only [iter, moveToNextCommonPrefixKey, hheight, if_true]
    rfl
  have hroot := ht.nodeAt_root hheight
  rw [← ht.startLevel_eq] at hroot
  have hlen : ([] : List Symbol).length = t.loudsSparse.startLevel := hstart.symm
  have hkey : key.drop t.loudsSparse.startLevel = key := by rw [hstart, List.drop_zero]
  have hseek := ht.sparse.moveToNextCommonPrefixKey_direct key hlen (hdeep.notMem (Nat.zero_le _))
    (show LoudsSparse.NodeAt _ _ _ _ ({} : LoudsSparse.Iter).startNodeNum from hroot) rfl rfl

  rw [hkey] at hseek
  rw [hiter]
  exact hseek

/-- With the bypass the SuRF-base mode decides as the list of the stored keys does, although
the iterator stops one byte short of a key that ends in a terminator. -/
theorem Encodes.isEntryAlive_bypass (useSuRFBase : Bool) (surfKeyLength : ℕ) (key : Bytes)
    (hne : ∀ k ∈ keys, k.key ≠ []) :
    t.isEntryAlive useSuRFBase surfKeyLength key true =
      some (SuRF.answer keys useSuRFBase surfKeyLength key true) := by
  cases useSuRFBase with
  | false =>
    exact ht.isEntryAlive_eq hdeep hkeys (fun h => absurd h Bool.false_ne_true) surfKeyLength
  | true =>
    simp only [isEntryAlive, SuRF.answer, if_true, hheight, lt_irrefl, if_false]
    rcases ht.moveToNextCommonPrefixKey_direct hdeep hheight key with ⟨hext, hhit⟩ | hmissed
    · -- the query is cut to the bytes the iterator stands at
      have hcut := List.prefix_iff_eq_take.mp hhit.isPrefix
      obtain ⟨k, hk, hpre⟩ := exists_isPrefix_of_extends hext
      obtain ⟨p, hfind, hp⟩ : ∃ p, keys.find? (fun k => k.key <+: key) = some p ∧
          p.key <+: key := by
        cases hfind : keys.find? fun k => k.key <+: key with
        | none => exact absurd (decide_eq_true hpre) (List.find?_eq_none.mp hfind k hk)
        | some p => exact ⟨p, rfl, by simpa using List.find?_some hfind⟩
      rw [if_pos hhit.isValid, ← hcut, verdict, if_neg (lt_irrefl _), if_pos rfl, if_pos rfl,
        SuRF.seekKey, if_pos rfl, hfind, Option.some_or]
      simp [SuRF.verdict, ← List.prefix_iff_eq_take.mp hp]
    · have hnone : keys.find? (fun k => k.key <+: key) = none := by
        rw [List.find?_eq_none]
        intro k hk hpre
        have hpre : symbols k.key <+: symbols key := by
          rw [isPrefix_symbols]
          simpa using hpre
        obtain ⟨next, hleaf⟩ := exists_leaf_of_mem hk
        have hmem : wordOf k.key next ∈ words (leavesOf keys) := List.mem_map_of_mem hleaf
        rcases wordOf_shape k.key next with hword | hword
        · exact hmissed.no_word _ hmem (hword ▸ hpre)
        · refine hmissed.no_terminator _ List.nil_prefix ?_ hpre (hword ▸ hmem)
          simpa [symbols] using hne k hk
      have hseekKey : SuRF.seekKey keys true key = seekEnd keys key := by
        rw [SuRF.seekKey, if_pos rfl, hnone, Option.none_or]
      have hfound := ht.found_of_sparse hdeep hheight hmissed.found
      rw [hseekKey]
      exact Found.verdict_eq hkeys (fun m => le_of_isPrefix (List.take_prefix m key)) hfound

end Bypass

section Create

variable {sparseDenseRatio maxNumLevel : ℕ} (hnonempty : keys ≠ [])
  (hkeys : keys.Pairwise fun a b => a.key < b.key) (hne : ∀ k ∈ keys, k.key ≠ [])
  (hmax : ∀ k ∈ keys, k.key.length ≤ maxNumLevel)
  (hfits : Bitvector.LastNodeFits
    (create keys false sparseDenseRatio maxNumLevel).loudsSparse.loudsBits)
include hnonempty hkeys hne hmax hfits

theorem encodes_create_sparse :
    ∃ n, Encodes (create keys false sparseDenseRatio maxNumLevel) (leavesOf keys) n := by
  obtain ⟨k, hk⟩ := List.exists_mem_of_ne_nil keys hnonempty
  obtain ⟨next, hleaf⟩ := exists_leaf_of_mem hk
  have hheight := (SuRFBuilder.built_build hkeys hne hmax).height _ hleaf
  exact encodes_create hkeys hnonempty hne hmax ((Nat.zero_le _).trans_lt hheight) hfits

omit hnonempty hmax hfits in
theorem deep_create_sparse :
    LoudsDense.Deep (create keys false sparseDenseRatio maxNumLevel).loudsDense (leavesOf keys) :=
  fun w hw => List.length_pos_of_ne_nil ((trieWords_leavesOf hkeys hne).nonempty w hw)

theorem moveToNextCommonPrefixKey_create (q : Bytes) :
    let t := create keys false sparseDenseRatio maxNumLevel
    let iter := (t.moveToNextCommonPrefixKey false q).sparseIter
    (∃ k, seekEnd keys q = some k ∧ iter.isValid = true ∧ iter.getKey = k.key ∧
        t.loudsSparse.getLeftParenthesis iter = some k.left ∧
        t.loudsSparse.getRightParenthesis iter = some k.right) ∨
      (seekEnd keys q = none ∧ iter.isValid = false) := by
  intro t iter
  obtain ⟨n, ht⟩ := encodes_create_sparse hnonempty hkeys hne hmax hfits
  have hsought : Sought t (leavesOf keys) false (symbols q) iter.isValid iter.getKey iter :=
    ht.moveToNextCommonPrefixKey_sparse (deep_create_sparse hkeys hne)
      (fun h => absurd h Bool.false_ne_true) rfl
  rcases hsought with ⟨hmode, _⟩ | ⟨_, ⟨e, he, hleast, hat⟩ | ⟨hnone, hinvalid⟩⟩
  · exact absurd hmode Bool.false_ne_true
  · obtain ⟨k, next, hseek, rfl⟩ := seekEnd_of_least hkeys he hleast
    exact Or.inl ⟨k, hseek, hat.isValid, (eq_of_wordOf_eq hat.word_eq).symm, hat.left, hat.right⟩
  · exact Or.inr ⟨seekEnd_eq_none hnone, hinvalid⟩

end Create

section Least

variable {sparseDenseRatio maxNumLevel len : ℕ}

end Least

def maxKeyLength (keys : List (ParenKey Bytes)) : ℕ :=
  keys.foldl (fun len k => max len k.key.length) 0

/-- The trie of ranges and point keys. In SuRF-base mode the keys are shortened to their first
differences, whose number is given. -/
def rangesWithPointKeysToSurf (env : SuRFEnv Bytes) (storeKeyToKDiff : Option ℕ)
    (includeDense : Bool) (sparseDenseRatio : ℕ) (ranges : List (Bytes × Bytes))
    (pointKeys : List Bytes) : SuRFTrie :=
  let keys := (SuRF.rangesWithPointKeysToSurf env ranges pointKeys).1
  let keys := match storeKeyToKDiff with
    | none => keys
    | some k => keys.shortenKeys k
  create keys includeDense sparseDenseRatio (maxKeyLength keys)

theorem length_le_maxKeyLength {k : ParenKey Bytes} (hk : k ∈ keys) :
    k.key.length ≤ maxKeyLength keys := by
  have hfold : ∀ (ks : List (ParenKey Bytes)) (start : ℕ),
      start ≤ ks.foldl (fun len k => max len k.key.length) start ∧
        ∀ k ∈ ks, k.key.length ≤ ks.foldl (fun len k => max len k.key.length) start := by
    intro ks
    induction ks with
    | nil => simp
    | cons a ks ih =>
      intro start
      obtain ⟨hstart, hks⟩ := ih (max start a.key.length)
      rw [List.foldl_cons, List.forall_mem_cons]
      exact ⟨(le_max_left _ _).trans hstart, (le_max_right _ _).trans hstart, hks⟩
  exact (hfold keys 0).2 k hk

end SuRFTrie

namespace SuRFTrieRDF

open SuRFTrie

def insertRangesWithPointKeysAtLevelOfFd (env : SuRFEnv Bytes) (storeKeyToKDiff : Option ℕ)
    (includeDense : Bool) (sparseDenseRatio : ℕ) (f : SuRFTrieRDF) (level fd : ℕ)
    (ranges : List (Bytes × Bytes)) (pointKeys : List Bytes) : SuRFTrieRDF :=
  f.insertAtLevelOfFd level fd (rangesWithPointKeysToSurf env storeKeyToKDiff includeDense
    sparseDenseRatio (SuRFRDF.processRangesWithPointKeys none ranges) pointKeys)

def wideRanges : List (Bytes × Bytes) :=
  (List.range 32).map fun j =>
    ([1, Fin.ofNat 256 (4 * j), 0],
      if j = 31 then [2, 0, 0] else [1, Fin.ofNat 256 (4 * j + 2), 0])

end SuRFTrieRDF

end Spry
