import Spry.Interval.Parens
import Spry.StringKey

/-!
# Building the levels of a trie

`SuRFBuilder` keeps one set of arrays for each level of the trie: the labels of its items, a bit
for each item that tells whether it has a child, a bit that tells whether it opens a node, and the
parentheses of the keys that end at the level. Keys come in ascending order; a key that is a
prefix of the next one gets a terminator. Suffixes are not stored, so that `insertSuffix` only adds
the level below the key.
-/

namespace Spry

open HalfOpen

def kFanout : ℕ := 256

def kWordSize : ℕ := 64

def kTerminator : Fin 256 := 255

@[ext]
structure BuilderLevel where
  labels : List (Fin 256) := []
  childIndicatorBits : List Bool := []
  loudsBits : List Bool := []
  leftParentheses : List Bool := []
  rightParentheses : List Bool := []
  nodeCount : ℕ := 0
  isLastItemTerminator : Bool := false
  deriving DecidableEq

namespace BuilderLevel

def setChildBit (l : BuilderLevel) : BuilderLevel :=
  { l with childIndicatorBits := l.childIndicatorBits.set (l.labels.length - 1) true }

def insertItem (l : BuilderLevel) (c : Fin 256) (isStartOfNode isTerm : Bool) : BuilderLevel :=
  { l with
    labels := l.labels ++ [c]
    childIndicatorBits := l.childIndicatorBits ++ [false]
    loudsBits := l.loudsBits ++ [isStartOfNode]
    nodeCount := if isStartOfNode then l.nodeCount + 1 else l.nodeCount
    isLastItemTerminator := isTerm }

def storeLeftParenthesis (l : BuilderLevel) (left : Bool) : BuilderLevel :=
  { l with leftParentheses := l.leftParentheses ++ [left] }

def storeRightParenthesis (l : BuilderLevel) (right : Bool) : BuilderLevel :=
  { l with rightParentheses := l.rightParentheses ++ [right] }

end BuilderLevel

structure SuRFBuilder where
  levels : List BuilderLevel

namespace SuRFBuilder

def empty : SuRFBuilder := ⟨[]⟩

def getTreeHeight (b : SuRFBuilder) : ℕ := b.levels.length

def level (b : SuRFBuilder) (i : ℕ) : BuilderLevel := b.levels.getD i {}

def addLevel (b : SuRFBuilder) : SuRFBuilder := ⟨b.levels ++ [({} : BuilderLevel)]⟩

def ensureLevel (b : SuRFBuilder) (level : ℕ) : SuRFBuilder :=
  if b.getTreeHeight ≤ level then b.addLevel else b

def modifyLevel (b : SuRFBuilder) (level : ℕ) (f : BuilderLevel → BuilderLevel) : SuRFBuilder :=
  ⟨b.levels.modify level f⟩

def isCharCommonPrefix (b : SuRFBuilder) (c : Fin 256) (level : ℕ) : Bool :=
  level < b.getTreeHeight && !(b.level level).isLastItemTerminator &&
    (b.level level).labels.getLast? == some c

def isLevelEmpty (b : SuRFBuilder) (level : ℕ) : Bool :=
  b.getTreeHeight ≤ level || (b.level level).labels.length == 0

def insertKeyByte (b : SuRFBuilder) (c : Fin 256) (level : ℕ) (isStartOfNode isTerm : Bool) :
    SuRFBuilder :=
  let b := b.ensureLevel level
  let b := if 0 < level then b.modifyLevel (level - 1) BuilderLevel.setChildBit else b
  b.modifyLevel level fun l => l.insertItem c isStartOfNode isTerm

def skipCommonPrefix (maxNumLevel : ℕ) :
    SuRFBuilder → (level : ℕ) → (rest : Bytes) → SuRFBuilder × ℕ
  | b, level, [] => (b, level)
  | b, level, c :: rest =>
    if level < maxNumLevel ∧ b.isCharCommonPrefix c level then
      skipCommonPrefix maxNumLevel (b.modifyLevel level BuilderLevel.setChildBit) (level + 1) rest
    else (b, level)

def insertKeyBytes (maxLevel : ℕ) :
    SuRFBuilder → (level : ℕ) → (rest : Bytes) → SuRFBuilder × ℕ
  | b, level, [] => (b, level)
  | b, level, c :: rest =>
    if maxLevel < level then (b, level)
    else insertKeyBytes maxLevel (b.insertKeyByte c level true false) (level + 1) rest

def insertKeyBytesToTrieUntilLevel (b : SuRFBuilder) (key nextKey : Bytes)
    (startLevel endLevel : ℕ) : SuRFBuilder × ℕ :=
  if startLevel = endLevel + 1 then (b, endLevel + 1)
  else
    let b := b.insertKeyByte (key.getD startLevel 0) startLevel (b.isLevelEmpty startLevel) false
    let (b, level) := insertKeyBytes endLevel b (startLevel + 1) (key.drop (startLevel + 1))
    if level = key.length ∧ key <+: nextKey then
      (b.insertKeyByte kTerminator level true true, level + 1)
    else (b, level)

def insertSuffix (b : SuRFBuilder) (level : ℕ) : SuRFBuilder := b.ensureLevel level

def insertLeftParenthesis (b : SuRFBuilder) (left : Bool) (level : ℕ) : SuRFBuilder :=
  (b.ensureLevel level).modifyLevel (level - 1) fun l => l.storeLeftParenthesis left

def insertRightParenthesis (b : SuRFBuilder) (right : Bool) (level : ℕ) : SuRFBuilder :=
  (b.ensureLevel level).modifyLevel (level - 1) fun l => l.storeRightParenthesis right

/-- One round of the loop in `buildSparseWithparentheses`. -/
def insertKey (maxNumLevel : ℕ) (b : SuRFBuilder) (k : ParenKey Bytes) (nextKey : Bytes) :
    SuRFBuilder :=
  let (b, level) := skipCommonPrefix maxNumLevel b 0 k.key
  let (b, level) := b.insertKeyBytesToTrieUntilLevel k.key nextKey level (maxNumLevel - 1)
  ((b.insertSuffix level).insertLeftParenthesis k.left level).insertRightParenthesis k.right level

def nextKey (key : Bytes) (rest : List (ParenKey Bytes)) : Bytes :=
  ((rest.find? fun k => k.key ≠ key).map ParenKey.key).getD []

def buildSparseWithparentheses (maxNumLevel : ℕ) :
    SuRFBuilder → (previous : Option Bytes) → List (ParenKey Bytes) → SuRFBuilder
  | b, _, [] => b
  | b, previous, k :: rest =>
    if previous = some k.key then buildSparseWithparentheses maxNumLevel b previous rest
    else
      buildSparseWithparentheses maxNumLevel (insertKey maxNumLevel b k (nextKey k.key rest))
        (some k.key) rest

def computeDenseMem (b : SuRFBuilder) (downtoLevel : ℕ) : ℕ :=
  ((List.range downtoLevel).map fun i =>
    2 * kFanout * (b.level i).nodeCount +
      if 0 < i then (b.level (i - 1)).nodeCount / 8 + 1 else 0).sum

def computeSparseMem (b : SuRFBuilder) (startLevel : ℕ) : ℕ :=
  ((List.range' startLevel (b.getTreeHeight - startLevel)).map fun i =>
    let numItems := (b.level i).labels.length
    numItems + 2 * numItems / 8 + 1).sum

/-- The loop over the cutoff level; `fuel` is the number of levels below it. -/
def cutoffLevelFrom (b : SuRFBuilder) (sparseDenseRatio : ℕ) : (fuel : ℕ) → (cutoff : ℕ) → ℕ
  | 0, cutoff => cutoff
  | fuel + 1, cutoff =>
    if b.computeDenseMem cutoff * sparseDenseRatio < b.computeSparseMem cutoff then
      cutoffLevelFrom b sparseDenseRatio fuel (cutoff + 1)
    else cutoff

def determineCutoffLevel (b : SuRFBuilder) (sparseDenseRatio : ℕ) : ℕ :=
  b.cutoffLevelFrom sparseDenseRatio b.getTreeHeight 0

def sparseStartLevel (b : SuRFBuilder) (includeDense : Bool) (sparseDenseRatio : ℕ) : ℕ :=
  if includeDense then b.determineCutoffLevel sparseDenseRatio else 0

/-- `build` without the dense bitmaps, which `LoudsDense` takes from the levels. -/
def build (maxNumLevel : ℕ) (keys : List (ParenKey Bytes)) : SuRFBuilder :=
  buildSparseWithparentheses maxNumLevel empty none keys

section Levels

variable (b : SuRFBuilder) (i j : ℕ)

@[simp] theorem level_empty : empty.level i = {} := by simp [empty, level]

@[simp] theorem level_addLevel : b.addLevel.level i = b.level i := by
  simp only [level, addLevel]
  by_cases hi : i < b.levels.length
  · rw [List.getD_append _ _ _ _ hi]
  · have hle : b.levels.length ≤ i := not_lt.mp hi
    rw [List.getD_append_right _ _ _ _ hle, List.getD_eq_default _ _ hle]
    cases i - b.levels.length with
    | zero => rfl
    | succ n => rfl

@[simp] theorem level_ensureLevel : (b.ensureLevel j).level i = b.level i := by
  simp only [ensureLevel]
  split
  · exact level_addLevel b i
  · rfl

theorem level_modifyLevel (f : BuilderLevel → BuilderLevel) (hj : j < b.getTreeHeight) :
    (b.modifyLevel j f).level i = if i = j then f (b.level i) else b.level i := by
  simp only [level, modifyLevel, List.getD_eq_getElem?_getD, List.getElem?_modify]
  split_ifs with h₁ h₂ h₂
  · subst h₁
    rw [List.getElem?_eq_getElem hj]
    rfl
  · exact absurd h₁.symm h₂
  · exact absurd h₂.symm h₁
  · rw [id_map']

@[simp] theorem getTreeHeight_modifyLevel (f : BuilderLevel → BuilderLevel) :
    (b.modifyLevel j f).getTreeHeight = b.getTreeHeight := by
  simp [getTreeHeight, modifyLevel]

theorem getTreeHeight_ensureLevel (hj : j ≤ b.getTreeHeight) :
    (b.ensureLevel j).getTreeHeight = max b.getTreeHeight (j + 1) := by
  simp only [ensureLevel]
  split
  · simp only [getTreeHeight, addLevel, List.length_append, List.length_singleton] at *
    omega
  · omega

end Levels

end SuRFBuilder

end Spry
