import Spry.Interval.ClosedSubtract
import Spry.StringKey

/-!
# Entry lists of the emulator

Keys are non-negative integers, and a range entry deletes a closed range of them. A list of
point and range entries is the content of the buffer, of a file and of everything a compaction
moves. Timetags and delete keys are copied along by the source and never read here, so an entry
is its key and its value, and a range entry its two ends.

An exit of the process and an access outside of a vector are `none`.
-/

namespace Spry.Emulation

open ClosedRange
open HalfOpen (StartSorted coalesceBy sortByStart stepBack)

def toInt (x : ℤ) : ℤ := x.bmod (2 ^ 32)

/-- The parameters of a run. Sizes are in bytes; `saturated` is the comparison of the saturation
of the buffer, a quotient in floating point, with the flush threshold, as a function of the
current buffer size. The list of variable tile sizes is indexed by the level, from one on. -/
structure EmuEnv where
  bufferSizeInPages : ℕ
  pointentriesPerPage : ℕ
  perKvSize : ℕ
  perRangeDeleteSize : ℕ
  deleteTileSizeInPages : ℕ
  deleteTileSize : ℕ
  pageSize : ℕ
  fileSize : ℕ
  letheNew : ℕ
  variableDeleteTileSizeInPages : List ℕ
  levelMaxFileCount : ℕ → ℕ
  saturated : ℤ → Bool

def EmuEnv.getDeleteTileSize (env : EmuEnv) (level : ℕ) : ℕ :=
  if env.letheNew = 2 then env.variableDeleteTileSizeInPages.getD level 0
  else env.deleteTileSizeInPages

structure PointEntry where
  sortKey : ℤ
  value : Bytes
  deriving DecidableEq, Repr

structure EntryList where
  points : List PointEntry
  ranges : List (ℤ × ℤ)
  deriving DecidableEq, Repr

namespace EntryList

def clear : EntryList := ⟨[], []⟩

def removePointEntriesInRange (l : EntryList) (startKey endKey : ℤ) : EntryList :=
  { l with points := l.points.filter fun p => ¬ (startKey ≤ p.sortKey ∧ p.sortKey ≤ endKey) }

def sortPointEntryVectorOnSortKey (l : EntryList) : EntryList :=
  { l with points := l.points.insertionSort fun a b => a.sortKey ≤ b.sortKey }

def sortRangeEntryVectorOnStartKey (l : EntryList) : EntryList :=
  { l with ranges := sortByStart l.ranges }

def sortRangeEntryVectorOnEndKey (l : EntryList) : EntryList :=
  { l with ranges := l.ranges.insertionSort fun a b => a.2 ≤ b.2 }

/-- Neighbours in the vector pass the check; the process exits on the first pair that fails. -/
def ascending (rs : List (ℤ × ℤ)) : Prop := rs.IsChain fun a b => a.1 ≤ b.1

instance (rs : List (ℤ × ℤ)) : Decidable (ascending rs) :=
  inferInstanceAs (Decidable (List.IsChain _ rs))

def ascendingPoints (ps : List PointEntry) : Prop := ps.IsChain fun a b => a.sortKey ≤ b.sortKey

instance (ps : List PointEntry) : Decidable (ascendingPoints ps) :=
  inferInstanceAs (Decidable (List.IsChain _ ps))

def distinctPoints (ps : List PointEntry) : Prop := ps.IsChain fun a b => a.sortKey ≠ b.sortKey

instance (ps : List PointEntry) : Decidable (distinctPoints ps) :=
  inferInstanceAs (Decidable (List.IsChain _ ps))

def mergeItsOwnRangeEntry (l : EntryList) : Option EntryList :=
  if ascending l.ranges then
    some { l with
      ranges := match l.ranges with
        | [] => []
        | r :: rs => coalesceBy joins r rs }
  else none

/-- Both vectors are walked once; the range iterator moves past the ranges that end before the
point. The source also reads the ends behind the last range and does not use what it read. -/
def applyRangeDelete : List (ℤ × ℤ) → List PointEntry → List PointEntry
  | _, [] => []
  | rs, p :: ps =>
    match rs.dropWhile (fun r => r.2 < p.sortKey) with
    | [] => p :: applyRangeDelete [] ps
    | r :: rs' =>
      if r.1 ≤ p.sortKey ∧ p.sortKey ≤ r.2 then applyRangeDelete (r :: rs') ps
      else p :: applyRangeDelete (r :: rs') ps

/-- The merge while the upper vector starts with `a`; on equal keys the upper entry is taken and
the lower one dropped. -/
def mergeHead (a : PointEntry) (rest : List PointEntry → List PointEntry) :
    List PointEntry → List PointEntry
  | [] => a :: rest []
  | b :: bs =>
    if a.sortKey < b.sortKey then a :: rest (b :: bs)
    else if a.sortKey = b.sortKey then a :: rest bs
    else b :: mergeHead a rest bs

def mergePoints : List PointEntry → List PointEntry → List PointEntry
  | [], bs => bs
  | a :: as, bs => mergeHead a (mergePoints as) bs

def mergeWithAnotherPointEntryVector (l : EntryList) (lower : List PointEntry) :
    Option EntryList :=
  if distinctPoints l.points ∧ distinctPoints lower then
    some { l with points := mergePoints l.points lower }
  else none

def mergeWithAnotherRangeEntryVector (l : EntryList) (lower : List (ℤ × ℤ)) : Option EntryList :=
  if ascending l.ranges ∧ ascending lower then
    some { l with ranges := uniteAll l.ranges lower }
  else none

def empty (l : EntryList) : Bool := l.points.isEmpty && l.ranges.isEmpty

/-- The least key of sorted vectors, and `-1` if there is no entry. -/
def getMinKey (l : EntryList) : ℤ :=
  toInt <|
    match l.points, l.ranges with
    | [], [] => -1
    | [], r :: _ => r.1
    | p :: _, [] => p.sortKey
    | p :: _, r :: _ => min p.sortKey r.1

def getMaxKey (l : EntryList) : ℤ :=
  toInt <|
    match l.points.getLast?, l.ranges.getLast? with
    | none, none => -1
    | none, some r => r.2
    | some p, none => p.sortKey
    | some p, some r => max p.sortKey r.2

def pointSizeInByte (env : EmuEnv) (l : EntryList) : ℕ := l.points.length * env.perKvSize

def rangeSizeInByte (env : EmuEnv) (l : EntryList) : ℕ := l.ranges.length * env.perRangeDeleteSize

end EntryList

/-- What one pass of the loop of `split_out_by_size_inByte` has put into the file, and what it
has left in the list. -/
structure Fill where
  out : EntryList
  rest : EntryList
  size : ℕ

namespace Fill

def pushPoint (p : PointEntry) (f : Fill) : Fill :=
  { f with out := { f.out with points := p :: f.out.points } }

def pushRange (r : ℤ × ℤ) (f : Fill) : Fill :=
  { f with out := { f.out with ranges := r :: f.out.ranges } }

def stop (size : ℕ) (points : List PointEntry) (ranges : List (ℤ × ℤ)) : Fill :=
  ⟨EntryList.clear, ⟨points, ranges⟩, size⟩

end Fill

section SplitOut

variable (env : EmuEnv)

def fillPoints : ℕ → List PointEntry → Fill
  | size, [] => Fill.stop size [] []
  | size, p :: ps =>
    if size < env.fileSize ∧ size + env.perKvSize ≤ env.fileSize then
      (fillPoints (size + env.perKvSize) ps).pushPoint p
    else Fill.stop size (p :: ps) []

/-- The loop while `r` is the next range. A point that is the end of the range enters the file
together with it. -/
def fillRange (r : ℤ × ℤ) (rs : List (ℤ × ℤ)) (next : ℕ → List PointEntry → Fill) :
    ℕ → List PointEntry → Fill
  | size, [] =>
    if size < env.fileSize ∧ size + env.perRangeDeleteSize ≤ env.fileSize then
      (next (size + env.perRangeDeleteSize) []).pushRange r
    else Fill.stop size [] (r :: rs)
  | size, p :: ps =>
    if ¬ size < env.fileSize then Fill.stop size (p :: ps) (r :: rs)
    else if p.sortKey < r.2 then
      if size + env.perKvSize ≤ env.fileSize then
        (fillRange r rs next (size + env.perKvSize) ps).pushPoint p
      else Fill.stop size (p :: ps) (r :: rs)
    else if p.sortKey = r.2 then
      if size + env.perKvSize + env.perRangeDeleteSize ≤ env.fileSize then
        ((next (size + env.perKvSize + env.perRangeDeleteSize) ps).pushRange r).pushPoint p
      else Fill.stop size (p :: ps) (r :: rs)
    else if size + env.perRangeDeleteSize ≤ env.fileSize then
      (next (size + env.perRangeDeleteSize) (p :: ps)).pushRange r
    else Fill.stop size (p :: ps) (r :: rs)

def fill : List (ℤ × ℤ) → ℕ → List PointEntry → Fill
  | [], size, ps => fillPoints env size ps
  | r :: rs, size, ps => fillRange env r rs (fill rs) size ps

/-- The points of the file are given back from the last one `p` on, until the piece of the next
range fits or the range starts behind the file. Giving back the only point reads index `-1`. -/
def shrink (start : ℤ) :
    PointEntry → List PointEntry → List PointEntry → ℕ →
      Option (PointEntry × List PointEntry × List PointEntry)
  | p, [], rest, size =>
    if start ≤ p.sortKey ∧ env.fileSize < size + env.perRangeDeleteSize then none
    else some (p, [], rest)
  | p, q :: before, rest, size =>
    if start ≤ p.sortKey ∧ env.fileSize < size + env.perRangeDeleteSize then
      shrink start q before (p :: rest) (size - env.perKvSize)
    else some (p, q :: before, rest)

def Fill.splitLast (f : Fill) : Option (EntryList × EntryList) :=
  match f.out.points.reverse, f.rest.ranges with
  | p :: before, r :: rs =>
    (shrink env r.1 p before f.rest.points f.size).map fun (q, before', rest') =>
      if r.1 ≤ q.sortKey then
        (⟨(q :: before').reverse, f.out.ranges ++ [(r.1, q.sortKey)]⟩,
          ⟨rest', (q.sortKey + 1, r.2) :: rs⟩)
      else (⟨(q :: before').reverse, f.out.ranges⟩, ⟨rest', r :: rs⟩)
  | _, _ => some (f.out, f.rest)

def EntryList.splitOutBySizeInByte (l : EntryList) : Option (EntryList × EntryList) :=
  if EntryList.ascendingPoints l.points ∧ EntryList.ascending l.ranges ∧
      l.ranges.IsChain (fun a b => a.2 < b.1) ∧
      env.perKvSize + env.perRangeDeleteSize ≤ env.fileSize then
    (fill env l.ranges 0 l.points).splitLast env
  else none

end SplitOut

end Spry.Emulation
