import Spry.LabelVector
import Spry.Louds.Bits

/-!
# The sparse levels of a trie

From the start level on, the trie is stored in level order: the labels of all items, a bit for
each item that has a child, a bit for each item that opens a node, and the parentheses of the
leaves. A node's children follow from the number of set bits before them. The iterator keeps the
labels and positions from the start level down to an item, here with the newest at the head.
-/

namespace Spry

open Louds

namespace Bitvector

def readBit (bits : List Bool) (pos : ℕ) : Bool := bits.getD pos false

def numWords (bits : List Bool) : ℕ :=
  if bits.length % kWordSize = 0 then bits.length / kWordSize else bits.length / kWordSize + 1

/-- The first set bit from a position on. When there is none, the end is counted in bits only if
the position is in the last word; else the padding of the last word counts too. -/
def nextSetBit (bits : List Bool) (start : ℕ) : ℕ :=
  match (bits.drop start).findIdx? id with
  | some d => start + d
  | none =>
    if start / kWordSize = numWords bits - 1 then bits.length else kWordSize * numWords bits

def distanceToNextSetBit (bits : List Bool) (pos : ℕ) : ℕ := nextSetBit bits (pos + 1) - pos

end Bitvector

structure LoudsSparse where
  height : ℕ
  startLevel : ℕ
  nodeCountDense : ℕ
  childCountDense : ℕ
  labels : List (Fin 256)
  childIndicatorBits : List Bool
  loudsBits : List Bool
  leftParentheses : List Bool
  rightParentheses : List Bool

namespace LoudsSparse

def ofBuilder (b : SuRFBuilder) (startLevel : ℕ) : LoudsSparse :=
  let levels := (List.range' startLevel (b.getTreeHeight - startLevel)).map b.level
  let nodeCountDense := ((List.range startLevel).map fun i => (b.level i).nodeCount).sum
  { height := b.getTreeHeight
    startLevel := startLevel
    nodeCountDense := nodeCountDense
    childCountDense :=
      if startLevel = 0 then 0 else nodeCountDense + (b.level startLevel).nodeCount - 1
    labels := levels.flatMap BuilderLevel.labels
    childIndicatorBits := levels.flatMap BuilderLevel.childIndicatorBits
    loudsBits := levels.flatMap BuilderLevel.loudsBits
    leftParentheses := levels.flatMap BuilderLevel.leftParentheses
    rightParentheses := levels.flatMap BuilderLevel.rightParentheses }

variable (t : LoudsSparse)

def getChildNodeNum (pos : ℕ) : ℕ := rank t.childIndicatorBits pos + t.childCountDense

def getFirstLabelPos (nodeNum : ℕ) : ℕ := select t.loudsBits (nodeNum + 1 - t.nodeCountDense)

def getSuffixPos (pos : ℕ) : ℕ := pos - rank t.childIndicatorBits pos

def nodeSize (pos : ℕ) : ℕ :=
  if pos = t.loudsBits.length - 1 then 1 else Bitvector.distanceToNextSetBit t.loudsBits pos

def isEndofNode (pos : ℕ) : Bool :=
  pos == t.loudsBits.length - 1 || Bitvector.readBit t.loudsBits (pos + 1)

def hasChild (pos : ℕ) : Bool := Bitvector.readBit t.childIndicatorBits pos

structure Iter where
  isValid : Bool := false
  startNodeNum : ℕ := 0
  path : List (Fin 256 × ℕ) := []
  isAtTerminator : Bool := false

namespace Iter

def append (iter : Iter) (label : Fin 256) (pos : ℕ) : Iter :=
  { iter with path := (label, pos) :: iter.path }

def setKeyLen (iter : Iter) (n : ℕ) : Iter :=
  { iter with path := iter.path.drop (iter.path.length - n) }

def getKey (iter : Iter) : Bytes :=
  if iter.isValid then
    ((if iter.isAtTerminator then iter.path.tail else iter.path).map Prod.fst).reverse
  else []

end Iter

def getLeftParenthesis (iter : Iter) : Option Bool :=
  iter.path.head?.map fun e => Bitvector.readBit t.leftParentheses (t.getSuffixPos e.2)

def getRightParenthesis (iter : Iter) : Option Bool :=
  iter.path.head?.map fun e => Bitvector.readBit t.rightParentheses (t.getSuffixPos e.2)

def finish (iter : Iter) (pos : ℕ) : Iter :=
  { iter with
    isValid := true
    isAtTerminator := iter.isAtTerminator ||
      (LabelVector.read t.labels pos == kTerminator && !t.isEndofNode pos) }

def descend : (fuel pos : ℕ) → Iter → Iter
  | 0, _, iter => iter
  | fuel + 1, pos, iter =>
    let pos := t.getFirstLabelPos (t.getChildNodeNum pos)
    let iter := iter.append (LabelVector.read t.labels pos) pos
    if t.hasChild pos then descend fuel pos iter else t.finish iter pos

def moveToLeftMostKey (iter : Iter) : Iter :=
  let iter :=
    if iter.path = [] then
      let pos := t.getFirstLabelPos iter.startNodeNum
      iter.append (LabelVector.read t.labels pos) pos
    else iter
  match iter.path with
  | [] => iter
  | (_, pos) :: rest =>
    if t.hasChild pos then t.descend (t.height - rest.length) pos iter else t.finish iter pos

/-- The loop of `operator++`: the newest entry that has a later sibling moves to it. -/
def backtrack : List (Fin 256 × ℕ) → List (Fin 256 × ℕ)
  | [] => []
  | (_, pos) :: rest =>
    if t.loudsBits.length ≤ pos + 1 ∨ Bitvector.readBit t.loudsBits (pos + 1) then backtrack rest
    else (LabelVector.read t.labels (pos + 1), pos + 1) :: rest

def next (iter : Iter) : Iter :=
  let path := t.backtrack iter.path
  let iter := { iter with path := path, isAtTerminator := false }
  if path = [] then { iter with isValid := false } else t.moveToLeftMostKey iter

def moveToLeftInNextSubtrie (pos nodeSize : ℕ) (label : Fin 256) (iter : Iter) : Iter :=
  match LabelVector.searchGreaterThan t.labels label pos nodeSize with
  | none =>
    let last := pos + nodeSize - 1
    t.next (iter.append (LabelVector.read t.labels last) last)
  | some pos => t.moveToLeftMostKey (iter.append (LabelVector.read t.labels pos) pos)

/-- The loop of `moveToNextCommonPrefixKey` on the bytes left of the key, from the node whose first
label is at `pos`. With `direct`, the deepest level whose key is complete is kept in `matched`. -/
def seekFrom (direct : Bool) :
    (rest : Bytes) → (level pos : ℕ) → (matched : Option ℕ) → Iter → Iter
  | [], _, pos, matched, iter =>
    match matched with
    | some m => { iter with isValid := true }.setKeyLen m
    | none =>
      if LabelVector.read t.labels pos = kTerminator ∧ !t.hasChild pos ∧ !t.isEndofNode pos then
        { iter.append kTerminator pos with isAtTerminator := true, isValid := true }
      else { t.moveToLeftMostKey iter with isValid := true }
  | c :: rest, level, pos, matched, iter =>
    match LabelVector.search t.labels c pos (t.nodeSize pos) with
    | none =>
      match matched with
      | some m => { iter with isValid := true }.setKeyLen m
      | none => t.moveToLeftInNextSubtrie pos (t.nodeSize pos) c iter
    | some found =>
      if !t.hasChild found then
        if direct || rest.isEmpty then { iter.append c found with isValid := true }
        else t.next (iter.append c found)
      else
        let pos := t.getFirstLabelPos (t.getChildNodeNum found)
        let matched :=
          if direct ∧ 1 < t.nodeSize pos ∧ LabelVector.read t.labels pos = kTerminator then
            some level
          else matched
        seekFrom direct rest (level + 1) pos matched (iter.append c found)

def moveToNextCommonPrefixKey (direct : Bool) (key : Bytes) (iter : Iter) : Iter :=
  t.seekFrom direct (key.drop t.startLevel) t.startLevel (t.getFirstLabelPos iter.startNodeNum)
    none iter

end LoudsSparse

end Spry
