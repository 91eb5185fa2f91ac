import Spry.Emulation.DiskMetaFile

/-!
# Workloads and point queries of the emulator

The operations of a workload act on the buffer and flush it when it is saturated. A point query
looks into the buffer and then into the levels from the top, and one of the two kinds of filters
tells it when to stop.
-/

namespace Spry.Emulation

structure Emulator where
  buffer : EntryList
  currentBufferSize : ℤ
  disk : DiskMetaFile

inductive Op where
  | insert (sortKey : ℤ) (value : Bytes)
  | rangeDelete (startKey endKey : ℤ)
  deriving DecidableEq, Repr

/-- The vector with the value of the key replaced, and the change in size; none if the key is
not there. -/
def setValue (key : ℤ) (value : Bytes) : List PointEntry → Option (List PointEntry × ℤ)
  | [] => none
  | p :: ps =>
    if p.sortKey = key then
      some ({ p with value := value } :: ps, (value.length : ℤ) - p.value.length)
    else (setValue key value ps).map fun (qs, change) => (p :: qs, change)

namespace Emulator

def initial : Emulator := ⟨EntryList.clear, 0, DiskMetaFile.initial⟩

variable (env : EmuEnv)

def checkBufferFlush (s : Emulator) : Option Emulator :=
  if env.saturated s.currentBufferSize then
    (sortAndWrite env 31 1 s.buffer s.disk).map fun d => ⟨EntryList.clear, 0, d⟩
  else some s

def bufferInsert (s : Emulator) (key : ℤ) (value : Bytes) : Emulator :=
  match setValue key value s.buffer.points with
  | some (points, change) =>
    { s with
      buffer := { s.buffer with points := points }
      currentBufferSize := s.currentBufferSize + change }
  | none =>
    { s with
      buffer := { s.buffer with points := s.buffer.points ++ [⟨key, value⟩] }
      currentBufferSize := s.currentBufferSize + (8 + 8 + value.length) }

def insert (s : Emulator) (key : ℤ) (value : Bytes) : Option Emulator :=
  (s.bufferInsert key value).checkBufferFlush env

def bufferRangeDelete (s : Emulator) (startKey endKey : ℤ) : Emulator :=
  let removed := s.buffer.points.filter fun p => startKey ≤ p.sortKey ∧ p.sortKey ≤ endKey
  { s with
    buffer := { s.buffer with
      ranges := s.buffer.ranges ++ [(startKey, endKey)] }.removePointEntriesInRange startKey endKey
    currentBufferSize := s.currentBufferSize + (8 + 8) -
      (removed.map fun p => (8 + 8 + p.value.length : ℤ)).sum }

def rangeDeleteOnPrimaryKey (s : Emulator) (startKey endKey : ℤ) : Option Emulator :=
  (s.bufferRangeDelete startKey endKey).checkBufferFlush env

def step (s : Emulator) : Op → Option Emulator
  | .insert key value => s.insert env key value
  | .rangeDelete startKey endKey => s.rangeDeleteOnPrimaryKey env startKey endKey

def run (ops : List Op) : Option Emulator := ops.foldlM (step env) initial

end Emulator

namespace Query

/-- The levels from `i` on, `count` of them: the files of a level first, then its filter. -/
def searchDisk (d : DiskMetaFile) (key : ℤ) : (count i : ℕ) → Option (Bool × Bytes)
  | 0, _ => some (false, [])
  | n + 1, i =>
    match searchFiles key (d.levelHead i) with
    | some v => some (true, v)
    | none => (isAliveAtLevel d.filter i key).bind fun isAlive =>
      if isAlive then searchDisk d key n (i + 1) else some (false, [])

/-- The levels from `i` on with the split filter, which is asked before the files. -/
def searchDiskSplit (d : DiskMetaFile) (key : ℤ) : (count i : ℕ) → Option (Bool × Bytes)
  | 0, _ => some (false, [])
  | n + 1, i => (isAliveAtLevel d.filterSplit i key).bind fun isAlive =>
    if isAlive then
      match searchFiles key (d.levelHead i) with
      | some v => some (true, v)
      | none => searchDiskSplit d key n (i + 1)
    else some (false, [])

def pointQuery (search : DiskMetaFile → ℤ → ℕ → ℕ → Option (Bool × Bytes)) (s : Emulator)
    (key : ℤ) : Option (Bool × Bytes) :=
  match lookup key s.buffer.points with
  | some v => some (true, v)
  | none =>
    if ∃ r ∈ s.buffer.ranges, r.1 ≤ key ∧ key ≤ r.2 then some (false, [])
    else s.disk.getTotalLevelCount.bind fun count => search s.disk key count 1

def pointQueryRDF (s : Emulator) (key : ℤ) : Option (Bool × Bytes) := pointQuery searchDisk s key

def pointQuerySplitRDF (s : Emulator) (key : ℤ) : Option (Bool × Bytes) :=
  pointQuery searchDiskSplit s key

end Query

end Spry.Emulation
