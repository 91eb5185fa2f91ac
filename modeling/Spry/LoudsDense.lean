import Spry.LoudsSparse

/-!
# The dense levels of a trie

The upper levels keep two bitmaps for each node, with a bit for every byte: whether the node has
the label, and whether the label has a child. A terminator has no bit of its own; its node is
marked as a prefix key. The iterator keeps the positions from the root down, here with the newest
at the head, and tells what is left to do in the sparse levels.
-/

namespace Spry

open Louds

structure DenseLevel where
  bitmapLabels : List Bool
  bitmapChildIndicatorBits : List Bool
  prefixkeyIndicatorBits : List Bool

namespace DenseLevel

def initDenseVectors (nodeCount : ℕ) : DenseLevel where
  bitmapLabels := List.replicate (nodeCount * kFanout) false
  bitmapChildIndicatorBits := List.replicate (nodeCount * kFanout) false
  prefixkeyIndicatorBits := List.replicate nodeCount false

def setLabelAndChildIndicatorBitmap (d : DenseLevel) (nodeNum : ℕ) (label : Fin 256)
    (hasChild : Bool) : DenseLevel :=
  { d with
    bitmapLabels := d.bitmapLabels.set (nodeNum * kFanout + label) true
    bitmapChildIndicatorBits :=
      if hasChild then d.bitmapChildIndicatorBits.set (nodeNum * kFanout + label) true
      else d.bitmapChildIndicatorBits }

/-- One item of the loop in `buildDense`; `started` counts the nodes so far. An item is taken for a
terminator if it opens a node with the terminator's label and has no child. -/
def insertItem : DenseLevel × ℕ → Fin 256 × Bool × Bool → DenseLevel × ℕ
  | (d, started), (label, hasChild, isStartOfNode) =>
    if started = 0 ∨ isStartOfNode then
      if label = kTerminator ∧ !hasChild then
        ({ d with prefixkeyIndicatorBits := d.prefixkeyIndicatorBits.set started true },
          started + 1)
      else (d.setLabelAndChildIndicatorBitmap started label hasChild, started + 1)
    else (d.setLabelAndChildIndicatorBitmap (started - 1) label hasChild, started)

def ofLevel (l : BuilderLevel) : DenseLevel :=
  ((l.labels.zip (l.childIndicatorBits.zip l.loudsBits)).foldl insertItem
    (initDenseVectors l.nodeCount, 0)).1

end DenseLevel

structure LoudsDense where
  height : ℕ
  labelBitmaps : List Bool
  childIndicatorBitmaps : List Bool
  prefixkeyIndicatorBits : List Bool

namespace LoudsDense

def ofBuilder (b : SuRFBuilder) (startLevel : ℕ) : LoudsDense :=
  let levels := (List.range startLevel).map fun i => DenseLevel.ofLevel (b.level i)
  { height := startLevel
    labelBitmaps := levels.flatMap DenseLevel.bitmapLabels
    childIndicatorBitmaps := levels.flatMap DenseLevel.bitmapChildIndicatorBits
    prefixkeyIndicatorBits := levels.flatMap DenseLevel.prefixkeyIndicatorBits }

variable (d : LoudsDense)

def getChildNodeNum (pos : ℕ) : ℕ := rank d.childIndicatorBitmaps pos

/-- At the last bit of all the source reads behind the bitmap. Whatever it finds there, the next
position is in no node any more. -/
def getNextPos (pos : ℕ) : ℕ := pos + Bitvector.distanceToNextSetBit d.labelBitmaps pos

/-- `getNextPos(pos - 1)`: the first label from a position on. At position 0 the difference wraps
around, and the sum with the distance wraps back. -/
def nextPosFrom (pos : ℕ) : ℕ := Bitvector.nextSetBit d.labelBitmaps pos

def hasLabel (pos : ℕ) : Bool := Bitvector.readBit d.labelBitmaps pos

def hasChild (pos : ℕ) : Bool := Bitvector.readBit d.childIndicatorBitmaps pos

structure Iter where
  isValid : Bool := false
  isSearchComplete : Bool := false
  isMoveLeftComplete : Bool := false
  isMoveRightComplete : Bool := false
  sendOutNodeNum : ℕ := 0
  posInTrie : List ℕ := []
  isAtPrefixKey : Bool := false

namespace Iter

def append (iter : Iter) (pos : ℕ) : Iter := { iter with posInTrie := pos :: iter.posInTrie }

def setKeyLen (iter : Iter) (n : ℕ) : Iter :=
  { iter with posInTrie := iter.posInTrie.drop (iter.posInTrie.length - n) }

def setFlags (iter : Iter)
    (isValid isSearchComplete isMoveLeftComplete isMoveRightComplete : Bool) : Iter :=
  { iter with
    isValid := isValid
    isSearchComplete := isSearchComplete
    isMoveLeftComplete := isMoveLeftComplete
    isMoveRightComplete := isMoveRightComplete }

def isComplete (iter : Iter) : Bool :=
  iter.isSearchComplete && (iter.isMoveLeftComplete && iter.isMoveRightComplete)

def getKey (iter : Iter) : Bytes :=
  if iter.isValid then
    ((if iter.isAtPrefixKey then iter.posInTrie.tail else iter.posInTrie).map
      fun pos => Fin.ofNat 256 pos).reverse
  else []

end Iter

/-- The loop of `moveToLeftMostKey`; `fuel` is the number of dense levels below the position. -/
def descend : (fuel pos : ℕ) → Iter → Iter
  | 0, pos, iter =>
    { iter with sendOutNodeNum := d.getChildNodeNum pos }.setFlags true true false true
  | fuel + 1, pos, iter =>
    let nodeNum := d.getChildNodeNum pos
    let next := d.nextPosFrom (nodeNum * kFanout)
    if Bitvector.readBit d.prefixkeyIndicatorBits nodeNum then
      { iter.append next with isAtPrefixKey := true }.setFlags true true true true
    else if !d.hasChild next then (iter.append next).setFlags true true true true
    else descend fuel next (iter.append next)

def moveToLeftMostKey (iter : Iter) : Iter :=
  match iter.posInTrie with
  | [] => iter
  | pos :: rest =>
    if !d.hasChild pos then iter.setFlags true true true true
    else d.descend (d.height - 1 - rest.length) pos iter

/-- The loop of `operator++`: the newest position that has a later label in its node moves to
it. -/
def backtrack : List ℕ → List ℕ
  | [] => []
  | pos :: rest =>
    let next := d.getNextPos pos
    if pos / kFanout < next / kFanout then backtrack rest else next :: rest

def next (iter : Iter) : Iter :=
  if iter.isAtPrefixKey then d.moveToLeftMostKey { iter with isAtPrefixKey := false }
  else
    let path := d.backtrack iter.posInTrie
    let iter := { iter with posInTrie := path }
    if path = [] then { iter with isValid := false } else d.moveToLeftMostKey iter

/-- The loop of `moveToNextCommonPrefixKey` from a node; `fuel` is the number of dense levels from
that node on. A key whose bytes run out goes to the first label of the node. -/
def seekFrom (direct : Bool) (key : Bytes) :
    (fuel level nodeNum : ℕ) → (matched : Option ℕ) → Iter → Iter
  | 0, _, nodeNum, matched, iter =>
    let iter := { iter with sendOutNodeNum := nodeNum }.setFlags true false true true
    match matched with
    | some m => iter.setKeyLen m
    | none => iter
  | fuel + 1, level, nodeNum, matched, iter =>
    match key[level]? with
    | none => d.moveToLeftMostKey (iter.append (d.nextPosFrom (nodeNum * kFanout)))
    | some c =>
      let pos := nodeNum * kFanout + c
      let iter := iter.append pos
      if !d.hasLabel pos then
        match matched with
        | some m => { iter with isValid := true }.setKeyLen m
        | none => d.next iter
      else
        let matched :=
          if direct ∧ Bitvector.readBit d.prefixkeyIndicatorBits pos then some level else matched
        if !d.hasChild pos then
          if direct || level + 1 = key.length then iter.setFlags true true true true
          else d.next iter
        else seekFrom direct key fuel (level + 1) (d.getChildNodeNum pos) matched iter

def moveToNextCommonPrefixKey (direct : Bool) (key : Bytes) (iter : Iter) : Iter :=
  d.seekFrom direct key d.height 0 0 none iter

end LoudsDense

end Spry
