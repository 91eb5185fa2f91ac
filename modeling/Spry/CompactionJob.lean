import Spry.Bundle
import Spry.Lsm

/-!
# Compaction jobs

A compaction job merges its input levels through the compaction iterator. In front of the output
it scans the range tombstones of the inputs once more, entry by entry: a value that one of them
covers is skipped, and the keys of the other values are sampled as split keys. The results are
handed to the filters of the new version as one delta.
-/

namespace Spry

open HalfOpen

/-- An input file: its boundaries, the tombstones its iterator yields, and whether a table reader
is kept open for it. -/
structure CompactionFile (K : Type) [LinearOrder K] where
  number : ℕ
  smallest : K
  largest : K
  tombstones : List (RangeTombstone K)
  hasTableReader : Bool
  smallest_le_largest : smallest ≤ largest
  nonempty : ∀ t ∈ tombstones, t.start < t.stop
  tombstones_within : ∀ t ∈ tombstones, smallest ≤ t.start ∧ t.stop ≤ largest

structure CompactionLevel (K : Type) [LinearOrder K] where
  level : ℕ
  files : List (CompactionFile K)

/-- What the compaction iterator of a subcompaction emits, and the files that were written. -/
structure SubcompactionState (K V : Type) where
  entries : List (PointEntry K V)
  outputFiles : List (DestinationLevelInfo K)

/-- A job. The subcompactions are in key order, and so are the files they write. -/
structure CompactionJob (K V : Type) [LinearOrder K] where
  rdfTypes : List RdfType
  usingStringKey : Bool
  stoll : K → Option ℤ
  inputs : List (CompactionLevel K)
  outputLevel : ℕ
  subCompactStates : List (SubcompactionState K V)
  inputs_ne : inputs ≠ []
  entries_sorted : (subCompactStates.flatMap fun s => s.entries).Pairwise
    (fun a b => a.key ≤ b.key)
  outputs_sorted : ((subCompactStates.flatMap fun s => s.outputFiles).map
    fun o => o.fileBoundary).Pairwise (fun a b => a.2 ≤ b.1)
  outputs_le : ∀ s ∈ subCompactStates, ∀ o ∈ s.outputFiles, o.fileBoundary.1 ≤ o.fileBoundary.2

structure SubcompactionResult (K V : Type) where
  outputs : List (PointEntry K V) := []
  sampledKeys : List ℤ := []
  sampledKeysStr : List K := []

variable {K V : Type}

def SubcompactionResult.write (res : SubcompactionResult K V) (e : PointEntry K V) (keyIn : ℤ) :
    SubcompactionResult K V :=
  if e.type = .kTypeValue then
    { outputs := res.outputs ++ [e]
      sampledKeys := res.sampledKeys ++ [keyIn]
      sampledKeysStr := res.sampledKeysStr ++ [e.key] }
  else { res with outputs := res.outputs ++ [e] }

variable [LinearOrder K]

namespace CompactionLevel

variable (l : CompactionLevel K)

def fileNumbers : List ℕ := l.files.map fun f => f.number

def boundaries : List (K × K) := l.files.map fun f => (f.smallest, f.largest)

def tombstones : List (RangeTombstone K) := l.files.flatMap fun f => f.tombstones

def rangeTombstonesStr (outputLevel : ℕ) : List (K × K) :=
  l.files.flatMap fun f => f.tombstones.map fun t =>
    if l.level = outputLevel then (max f.smallest t.start, min f.largest t.stop)
    else (t.start, t.stop)

end CompactionLevel

def RangeTombstone.tuple (t : RangeTombstone K) : K ×ₗ (K ×ₗ ℕ) :=
  toLex (t.start, toLex (t.stop, t.seq))

def sortTombstones (ts : List (RangeTombstone K)) : List (RangeTombstone K) :=
  ts.insertionSort fun a b => a.tuple ≤ b.tuple

theorem mem_sortTombstones {ts : List (RangeTombstone K)} {t : RangeTombstone K} :
    t ∈ sortTombstones ts ↔ t ∈ ts :=
  (List.perm_insertionSort _ ts).mem_iff

theorem sorted_sortTombstones (ts : List (RangeTombstone K)) :
    (sortTombstones ts).Pairwise (fun a b => a.start ≤ b.start) := by
  have : Std.Total (fun a b : RangeTombstone K => a.tuple ≤ b.tuple) :=
    ⟨fun a b => le_total a.tuple b.tuple⟩
  have : IsTrans (RangeTombstone K) (fun a b => a.tuple ≤ b.tuple) :=
    ⟨fun a b c hab hbc => hab.trans hbc⟩
  refine (List.pairwise_insertionSort (fun a b : RangeTombstone K => a.tuple ≤ b.tuple) ts).imp ?_
  intro a b hab
  cases Prod.Lex.toLex_le_toLex.mp hab with
  | inl hlt => exact hlt.le
  | inr heq => exact heq.1.le

/-- The scan of the sorted tombstones for one entry: whether the entry is skipped. A tombstone
with the sequence number of the entry exits the process. -/
def flagDeleteCurrentEntry (e : PointEntry K V) : List (RangeTombstone K) → Option Bool
  | [] => some false
  | rd :: rds =>
    if e.key < rd.start then some false
    else if e.type ≠ .kTypeValue then some false
    else if e.seq = rd.seq then none
    else if rd.start ≤ e.key ∧ e.key < rd.stop ∧ e.seq < rd.seq then some true
    else flagDeleteCurrentEntry e rds

namespace CompactionJob

variable (job : CompactionJob K V)

def hasRDFTypeOtherThanNone : Bool := job.rdfTypes.any fun rdf => rdf ≠ .none

def inputTombstones : List (RangeTombstone K) := job.inputs.flatMap fun l => l.tombstones

def rangeDelVecSelf : List (RangeTombstone K) :=
  sortTombstones (job.inputs.flatMap fun l => l.files.flatMap fun f =>
    if f.hasTableReader then f.tombstones else [])

def keyIn (key : K) : Option ℤ := if job.usingStringKey then some (-1) else job.stoll key

def processEntry (res : SubcompactionResult K V) (e : PointEntry K V) :
    Option (SubcompactionResult K V) :=
  if job.hasRDFTypeOtherThanNone then
    match flagDeleteCurrentEntry e job.rangeDelVecSelf with
    | none => none
    | some true => some res
    | some false => (job.keyIn e.key).map (res.write e)
  else some { res with outputs := res.outputs ++ [e] }

def processKeyValueCompaction (sub : SubcompactionState K V) :
    Option (SubcompactionResult K V) :=
  sub.entries.foldlM job.processEntry {}

def run : Option (List (SubcompactionResult K V)) :=
  job.subCompactStates.mapM job.processKeyValueCompaction

end CompactionJob

end Spry
