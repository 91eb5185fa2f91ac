import Spry.LoudsDense
import Spry.SuRF

/-!
# The stored trie

`SuRF` joins the dense and the sparse levels. A seek runs through the dense levels and goes on in
the sparse ones from the node that the dense iterator sends out; when nothing is found there, the
dense iterator moves on. The query of a file's filter reads the parentheses at the sparse iterator.
-/

namespace Spry

open HalfOpen

structure SuRFTrie where
  loudsDense : LoudsDense
  loudsSparse : LoudsSparse

namespace SuRFTrie

def create (keys : List (ParenKey Bytes)) (includeDense : Bool) (sparseDenseRatio maxNumLevel : ℕ) :
    SuRFTrie :=
  let b := SuRFBuilder.build maxNumLevel keys
  let startLevel := b.sparseStartLevel includeDense sparseDenseRatio
  ⟨LoudsDense.ofBuilder b startLevel, LoudsSparse.ofBuilder b startLevel⟩

structure Iter where
  denseIter : LoudsDense.Iter := {}
  sparseIter : LoudsSparse.Iter := {}

namespace Iter

def isValid (iter : Iter) : Bool :=
  iter.denseIter.isValid && (iter.denseIter.isComplete || iter.sparseIter.isValid)

def getKey (iter : Iter) : Bytes :=
  if !iter.isValid then []
  else if iter.denseIter.isComplete then iter.denseIter.getKey
  else iter.denseIter.getKey ++ iter.sparseIter.getKey

def passToSparse (iter : Iter) : Iter :=
  { iter with
    sparseIter := { iter.sparseIter with startNodeNum := iter.denseIter.sendOutNodeNum } }

end Iter

variable (t : SuRFTrie)

def moveSparseToLeftMostKey (iter : Iter) : Iter :=
  let iter := iter.passToSparse
  { iter with sparseIter := t.loudsSparse.moveToLeftMostKey iter.sparseIter }

def incrementDenseIter (iter : Iter) : Iter :=
  if !iter.denseIter.isValid then iter
  else
    let iter := { iter with denseIter := t.loudsDense.next iter.denseIter }
    if !iter.denseIter.isValid || iter.denseIter.isMoveLeftComplete then iter
    else t.moveSparseToLeftMostKey iter

def seekSparse (direct : Bool) (key : Bytes) (iter : Iter) : Iter :=
  let iter := iter.passToSparse
  { iter with
    sparseIter := t.loudsSparse.moveToNextCommonPrefixKey direct key iter.sparseIter }

def moveToNextCommonPrefixKey (direct : Bool) (key : Bytes) : Iter :=
  if t.loudsDense.height = 0 then t.seekSparse direct key {}
  else
    let iter : Iter := ⟨t.loudsDense.moveToNextCommonPrefixKey direct key {}, {}⟩
    if !iter.denseIter.isValid || iter.denseIter.isComplete then iter
    else if !iter.denseIter.isSearchComplete then
      let iter := t.seekSparse direct key iter
      if !iter.sparseIter.isValid then t.incrementDenseIter iter else iter
    else if !iter.denseIter.isMoveLeftComplete then t.moveSparseToLeftMostKey iter
    else iter

/-- The verdict on a found key, with the flag that the key may be deleted. A key below the query
is asserted not to occur. Without the bypass the parentheses decide a hit; reading them from an
iterator that has no entry reads out of bounds. -/
def verdict (iter : LoudsSparse.Iter) (keyFound key : Bytes) (bypassIfSameKey : Bool) :
    Option (Bool × Bool) :=
  if keyFound < key then some (false, false)
  else if keyFound = key then
    if bypassIfSameKey then some (true, true)
    else do
      let left ← t.loudsSparse.getLeftParenthesis iter
      let right ← t.loudsSparse.getRightParenthesis iter
      match left, right with
      | true, true => some (false, false)
      | false, true => some (true, false)
      | false, false => some (true, false)
      | true, false => some (false, false)
  else if bypassIfSameKey then do
    let right ← t.loudsSparse.getRightParenthesis iter
    some (!right, false)
  else do
    let left ← t.loudsSparse.getLeftParenthesis iter
    let right ← t.loudsSparse.getRightParenthesis iter
    if left ∧ right then some (false, false) else some (!right, false)

/-- The query of one file: its verdict and the flag that the key may be deleted; `none` is an
access out of bounds. In SuRF-base mode the query is not cut before the seek but to the length of
the key found. -/
def isEntryAlive (useSuRFBase : Bool) (surfKeyLength : ℕ) (key : Bytes) (bypassIfSameKey : Bool) :
    Option (Bool × Bool) :=
  let key := if useSuRFBase then key else key.take surfKeyLength
  let iter := t.moveToNextCommonPrefixKey useSuRFBase key
  if 0 < t.loudsDense.height then
    if iter.isValid then
      t.verdict iter.sparseIter iter.getKey
        (if useSuRFBase then key.take iter.getKey.length else key) bypassIfSameKey
    else some (true, false)
  else if iter.sparseIter.isValid then
    t.verdict iter.sparseIter iter.sparseIter.getKey
      (if useSuRFBase then key.take iter.sparseIter.getKey.length else key) bypassIfSameKey
  else some (true, false)

end SuRFTrie

/-- The tries of all levels and files, without their numbers of ranges. -/
structure SuRFTrieRDF where
  levelFileSurfRdf : List (AList fun _ : ℕ => SuRFTrie)

namespace SuRFTrieRDF

def atLevel (f : SuRFTrieRDF) (level : ℕ) : AList fun _ : ℕ => SuRFTrie :=
  f.levelFileSurfRdf.getD level ∅

def insertAtLevelOfFd (f : SuRFTrieRDF) (level fd : ℕ) (surf : SuRFTrie) : SuRFTrieRDF :=
  let grown := f.levelFileSurfRdf ++ List.replicate (level + 1 - f.levelFileSurfRdf.length) ∅
  ⟨grown.set level ((grown.getD level ∅).insert fd surf)⟩

def isEntryAliveAtLevelOfFd (f : SuRFTrieRDF) (useSuRFBase : Bool) (surfKeyLength level fd : ℕ)
    (key : Bytes) (bypassIfSameKey : Bool) : Option (Bool × Bool) :=
  match (f.atLevel level).lookup fd with
  | none => some (true, false)
  | some surf => surf.isEntryAlive useSuRFBase surfKeyLength key bypassIfSameKey

theorem lookup_insertAtLevelOfFd (f : SuRFTrieRDF) (level fd : ℕ) (surf : SuRFTrie) :
    ((f.insertAtLevelOfFd level fd surf).atLevel level).lookup fd = some surf := by
  have hlt : level < (f.levelFileSurfRdf ++
      List.replicate (level + 1 - f.levelFileSurfRdf.length) ∅).length := by
    rw [List.length_append, List.length_replicate]
    omega
  rw [insertAtLevelOfFd, atLevel, List.getD_eq_getElem?_getD, List.getElem?_set_self hlt]
  exact AList.lookup_insert _

end SuRFTrieRDF

end Spry
