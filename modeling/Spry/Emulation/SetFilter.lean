import Spry.Interval.ClosedInsert
import Spry.Emulation.LevelWrite

/-!
# The range delete filter of a level in a set

The emulator has a second implementation of the filter of a level. It keeps the ranges in a
`std::set` of pairs and changes only the ones an operation meets: they are erased while the
iterator passes them, and what is left of them is collected and inserted at the end.
-/

namespace Spry.Emulation

open ClosedRange
open HalfOpen (StartSorted coalesceBy)

namespace PerlevelRangeDeleteFilter

/-- The loop of `addRangeDelete(start, end)` on the vector, with the range grown so far. -/
def growRange (start stop : ℤ) : ℤ × ℤ → List (ℤ × ℤ) → List (ℤ × ℤ)
  | cur, [] => [cur]
  | cur, r :: rs =>
    if r.2 < start - 1 then r :: growRange start stop cur rs
    else if stop + 1 < r.1 then cur :: r :: rs
    else growRange start stop (min cur.1 r.1, max cur.2 r.2) rs

def addSingleRangeDelete (rdList : List (ℤ × ℤ)) (start stop : ℤ) : List (ℤ × ℤ) :=
  growRange start stop (start, stop) rdList

end PerlevelRangeDeleteFilter

namespace PerlevelRangeDeleteFilterBySet

/-- The pairs a loop leaves in the set, and the ones it collects for insertion. -/
structure Rebuilt where
  kept : List (ℤ × ℤ)
  new : List (ℤ × ℤ)
  deriving DecidableEq, Repr

namespace Rebuilt

def keep (r : ℤ × ℤ) (j : Rebuilt) : Rebuilt := { j with kept := r :: j.kept }

def push (rs : List (ℤ × ℤ)) (j : Rebuilt) : Rebuilt := { j with new := rs ++ j.new }

end Rebuilt

section Definitions

/-- The loop of `addRangeDelete(start, end)`: the range grown so far, and the pairs not erased. -/
def absorb (start stop : ℤ) : ℤ × ℤ → List (ℤ × ℤ) → (ℤ × ℤ) × List (ℤ × ℤ)
  | cur, [] => (cur, [])
  | cur, r :: rs =>
    if r.2 < start - 1 then ((absorb start stop cur rs).1, r :: (absorb start stop cur rs).2)
    else if stop + 1 < r.1 then (cur, r :: rs)
    else absorb start stop (min cur.1 r.1, max cur.2 r.2) rs

def addSingleRangeDelete (rdList : List (ℤ × ℤ)) (start stop : ℤ) : List (ℤ × ℤ) :=
  let found := seekBack start rdList
  let grown := absorb start stop (start, stop) found.2
  insertPair grown.1 (found.1 ++ grown.2)

/-- The top of the outer loop of `addRangeDelete(list)` with both iterators inside: a range that
ends before the pair is skipped, a pair that ends before the range stays, and otherwise the one
with the smaller start opens a new range. `rest` goes on behind the pair. -/
def joinOpen (a b : ℤ × ℤ) (bs : List (ℤ × ℤ))
    (rest : Option (ℤ × ℤ) → List (ℤ × ℤ) → Rebuilt) (skipped : Rebuilt) : Rebuilt :=
  if b.2 + 1 < a.1 then skipped
  else if a.2 < b.1 - 1 then (rest none (b :: bs)).keep a
  else if a.1 ≤ b.1 then rest (some a) (b :: bs)
  else rest (some (grow b a)) (b :: bs)

/-- Both loops while the iterator of the set stands on `a`, inside of the inner one if there is a
current range. -/
def joinHead (a : ℤ × ℤ) (as : List (ℤ × ℤ))
    (rest : Option (ℤ × ℤ) → List (ℤ × ℤ) → Rebuilt) :
    Option (ℤ × ℤ) → List (ℤ × ℤ) → Rebuilt
  | none, [] => ⟨a :: as, []⟩
  | some cur, [] => if joins cur.2 a.1 then rest (some (grow cur a)) [] else ⟨a :: as, [cur]⟩
  | none, b :: bs => joinOpen a b bs rest (joinHead a as rest none bs)
  | some cur, b :: bs =>
    if joins cur.2 a.1 then rest (some (grow cur a)) (b :: bs)
    else if joins cur.2 b.1 then joinHead a as rest (some (grow cur b)) bs
    else (joinOpen a b bs rest (joinHead a as rest none bs)).push [cur]

def join : List (ℤ × ℤ) → Option (ℤ × ℤ) → List (ℤ × ℤ) → Rebuilt
  | [], none, [] => ⟨[], []⟩
  | [], none, b :: bs => ⟨[], coalesceBy joins b bs⟩
  | [], some cur, bs => ⟨[], coalesceBy joins cur bs⟩
  | a :: as, cur, bs => joinHead a as (join as) cur bs

def addRangeDelete (rdList insertList : List (ℤ × ℤ)) : Option (List (ℤ × ℤ)) :=
  if EntryList.ascending rdList ∧ EntryList.ascending insertList ∧
      rdList.IsChain (fun a b => a.2 ≤ b.1) then
    some (insertPairs (join rdList none insertList).new (join rdList none insertList).kept)
  else none

/-- The pieces of `[a, stop]` between the ranges to remove, and the ranges not yet passed. -/
def slice (stop : ℤ) : ℤ → List (ℤ × ℤ) → List (ℤ × ℤ) × List (ℤ × ℤ)
  | a, [] => (if a ≤ stop then [(a, stop)] else [], [])
  | a, d :: ds =>
    if d.2 < stop then
      ((if a < d.1 then [(a, d.1 - 1)] else []) ++ (slice stop (d.2 + 1) ds).1,
        (slice stop (d.2 + 1) ds).2)
    else (if a ≤ min stop (d.1 - 1) then [(a, min stop (d.1 - 1))] else [], d :: ds)

def sever (a : ℤ × ℤ) : List (ℤ × ℤ) → Option (List (ℤ × ℤ)) × List (ℤ × ℤ)
  | [] => (none, [])
  | d :: ds =>
    if d.2 < a.1 then sever a ds
    else if a.2 < d.1 then (none, d :: ds)
    else if a.1 = d.1 ∧ a.2 = d.2 then (some [], ds)
    else if a.1 < d.1 ∧ a.2 ≤ d.2 then (some [(a.1, d.1 - 1)], d :: ds)
    else if d.1 ≤ a.1 ∧ a.2 ≤ d.2 then (some [], d :: ds)
    else if d.1 ≤ a.1 ∧ d.2 < a.2 then
      (some (slice a.2 (d.2 + 1) (d :: ds)).1, (slice a.2 (d.2 + 1) (d :: ds)).2)
    else
      (some ((a.1, d.1 - 1) :: (slice a.2 (d.2 + 1) (d :: ds)).1),
        (slice a.2 (d.2 + 1) (d :: ds)).2)

def severAll : List (ℤ × ℤ) → List (ℤ × ℤ) → Rebuilt
  | [], _ => ⟨[], []⟩
  | a :: as, ds =>
    match sever a ds with
    | (none, ds') => (severAll as ds').keep a
    | (some pieces, ds') => (severAll as ds').push pieces

def seekDiscard (rdList : List (ℤ × ℤ)) : List (ℤ × ℤ) → List (ℤ × ℤ) × List (ℤ × ℤ)
  | [] => ([], rdList)
  | d :: _ => seekBack d.1 rdList

/-- Both overloads, for range entries and for pairs. -/
def removeRangeDelete (rdList discardList : List (ℤ × ℤ)) : Option (List (ℤ × ℤ)) :=
  if EntryList.ascending rdList ∧ EntryList.ascending discardList ∧
      rdList.IsChain (fun a b => a.2 ≤ b.1) ∧ discardList.IsChain (fun a b => a.2 ≤ b.1) then
    let found := seekDiscard rdList discardList
    let left := severAll found.2 discardList
    some (insertPairs left.new (found.1 ++ left.kept))
  else none

def isEntryAlive (rdList : List (ℤ × ℤ)) (key : ℤ) : Bool :=
  match (seekBack key rdList).2 with
  | [] => true
  | r :: _ => ¬ (r.1 ≤ key ∧ key ≤ r.2)

end Definitions

end PerlevelRangeDeleteFilterBySet

/-- The operations on the filter of a level. The two removals take range entries and pairs. -/
inductive FilterOp where
  | addRange (start stop : ℤ)
  | addRanges (rs : List (ℤ × ℤ))
  | removeEntries (rs : List (ℤ × ℤ))
  | removePairs (rs : List (ℤ × ℤ))
  deriving DecidableEq, Repr

namespace FilterOp

def Valid : FilterOp → Prop
  | .addRange start stop => start ≤ stop
  | .addRanges rs => Ordered rs
  | .removeEntries rs => Ordered rs
  | .removePairs rs => Ordered rs

def stepBySet (rdList : List (ℤ × ℤ)) : FilterOp → Option (List (ℤ × ℤ))
  | .addRange start stop =>
    some (PerlevelRangeDeleteFilterBySet.addSingleRangeDelete rdList start stop)
  | .addRanges rs => PerlevelRangeDeleteFilterBySet.addRangeDelete rdList rs
  | .removeEntries rs => PerlevelRangeDeleteFilterBySet.removeRangeDelete rdList rs
  | .removePairs rs => PerlevelRangeDeleteFilterBySet.removeRangeDelete rdList rs

def stepByVector (rdList : List (ℤ × ℤ)) : FilterOp → Option (List (ℤ × ℤ))
  | .addRange start stop =>
    some (PerlevelRangeDeleteFilter.addSingleRangeDelete rdList start stop)
  | .addRanges rs => PerlevelRangeDeleteFilter.addRangeDelete rdList rs
  | .removeEntries rs => PerlevelRangeDeleteFilter.removeRangeDelete rdList rs
  | .removePairs rs => PerlevelRangeDeleteFilter.removeRangeDelete rdList rs

def runBySet (ops : List FilterOp) : Option (List (ℤ × ℤ)) := ops.foldlM stepBySet []

def runByVector (ops : List FilterOp) : Option (List (ℤ × ℤ)) := ops.foldlM stepByVector []

end FilterOp

end Spry.Emulation
