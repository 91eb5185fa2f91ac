import Spry.Lsm
import Spry.Bundle
import Spry.SuRF

/-!
# Reading a key through the range delete filters

`Version.get` reads the files of the picker until one of them decides. A filter that defers its
verdict remembers it while a level is read and turns it into `NotFound` when the picker moves to
another level; a split filter gives its verdict before a level is read; the top-level filter is
asked once at the start.
-/

namespace Spry

/-- What the read path gets from outside the tree: the merge operator on an optional base value
and the operands, oldest first, and the values blob indexes and entities stand for. `none` is an
error status. -/
structure ReadEnv (V : Type) where
  fullMerge : Option V → List V → Option V
  fetchBlob : V → Option V
  valueOfDefaultColumn : V → Option V

inductive GetState (V : Type)
  | kNotFound
  | kMerge
  | kFound (value : V)
  | kDeleted
  | kCorrupt
  deriving DecidableEq

structure GetContext (V : Type) where
  state : GetState V := .kNotFound
  operands : List V := []
  maxCoveringTombstoneSeq : ℕ := 0
  deriving DecidableEq

/-- The result of a read: a value, a status, or an exception out of the read. -/
inductive Outcome (V : Type)
  | ok (value : V)
  | notFound
  | error
  | exception
  deriving DecidableEq, Repr

def GetState.outcome {V : Type} : GetState V → Option (Outcome V)
  | .kNotFound => none
  | .kMerge => none
  | .kFound value => some (.ok value)
  | .kDeleted => some .notFound
  | .kCorrupt => some .error

namespace ReadEnv

variable {V : Type} (env : ReadEnv V)

def userValue (type : ValueType) (value : V) : Option V :=
  match type with
  | .kTypeBlobIndex => env.fetchBlob value
  | .kTypeWideColumnEntity => env.valueOfDefaultColumn value
  | _ => some value

def foundOr (value : Option V) : GetState V :=
  match value with
  | none => .kCorrupt
  | some value => .kFound value

def saveDeletion (ctx : GetContext V) : GetContext V :=
  match ctx.state with
  | .kMerge => { ctx with state := foundOr (env.fullMerge none ctx.operands) }
  | _ => { ctx with state := .kDeleted }

def saveBase (ctx : GetContext V) (value : Option V) : GetContext V :=
  match ctx.state with
  | .kMerge =>
    { ctx with state := foundOr (value.bind fun v => env.fullMerge (some v) ctx.operands) }
  | _ => { ctx with state := foundOr value }

def saveValue {K : Type} (ctx : GetContext V) (e : PointEntry K V) : GetContext V × Bool :=
  if e.seq < ctx.maxCoveringTombstoneSeq then (env.saveDeletion ctx, false)
  else
    match e.type with
    | .kTypeValue | .kTypeBlobIndex | .kTypeWideColumnEntity =>
      (env.saveBase ctx (env.userValue e.type e.value), false)
    | .kTypeDeletion | .kTypeSingleDeletion => (env.saveDeletion ctx, false)
    | .kTypeMerge =>
      ({ ctx with state := .kMerge, operands := e.value :: ctx.operands }, true)

def saveValues {K : Type} (ctx : GetContext V) : List (PointEntry K V) → GetContext V
  | [] => ctx
  | e :: es =>
    match env.saveValue ctx e with
    | (ctx', true) => saveValues ctx' es
    | (ctx', false) => ctx'

variable {K : Type} [LinearOrder K]

/-- The lookup of one file raises the largest covering tombstone before it looks at the entries
of the key. -/
def tableGet (ctx : GetContext V) (f : SstFile K V) (k : K) (snapshot : ℕ) : GetContext V :=
  env.saveValues
    { ctx with
      maxCoveringTombstoneSeq :=
        max ctx.maxCoveringTombstoneSeq (f.maxCoveringTombstoneSeqnum k snapshot) }
    (f.visible k snapshot)

end ReadEnv

/-- When the verdict of a filter is asked for and acted on. -/
inductive GateMode
  | off
  | deferred
  | eager
  | first
  deriving DecidableEq

def RdfType.mode : RdfType → GateMode
  | .none => .off
  | .plrdf | .plrdfStringKey | .surfLfRdf => .deferred
  | .splitPlrdf | .splitPlrdfStringKey | .surfLfSplitRdf => .eager
  | .topLevelRdf | .topLevelRdfStringKey => .first

/-- A verdict for a level and the number of the file read there, if there is one. -/
abbrev Alive := ℕ → Option ℕ → Bool

namespace Version

variable {K V : Type} [LinearOrder K] (env : ReadEnv V) (mode : GateMode) (alive : Alive)
  (endLevel : ℕ) (k : K) (snapshot : ℕ)

def nextLevel : List (ℕ × SstFile K V) → ℕ
  | [] => endLevel
  | p :: _ => p.1

def nextAlive (rest : List (ℕ × SstFile K V)) : Bool :=
  alive (nextLevel endLevel rest) (rest.head?.map fun p => p.2.number)

def finish (ctx : GetContext V) : Outcome V :=
  match ctx.state with
  | .kMerge =>
    match env.fullMerge none ctx.operands with
    | none => .error
    | some value => .ok value
  | _ => .notFound

/-- The loop over the files. `remembered` is the verdict for the level of the current file. -/
def getLoop : Bool → GetContext V → List (ℕ × SstFile K V) → Outcome V
  | _, ctx, [] => finish env ctx
  | remembered, ctx, (level, f) :: rest =>
    if 0 < ctx.maxCoveringTombstoneSeq then finish env ctx
    else
      let ctx' := env.tableGet ctx f k snapshot
      match ctx'.state.outcome with
      | some outcome => outcome
      | none =>
        if nextLevel endLevel rest = level then getLoop remembered ctx' rest
        else
          match mode with
          | .off | .first => getLoop remembered ctx' rest
          | .deferred =>
            if remembered then getLoop (nextAlive alive endLevel rest) ctx' rest
            else .notFound
          | .eager =>
            if nextAlive alive endLevel rest then getLoop remembered ctx' rest
            else .notFound

def getGated (ctx : GetContext V) (files : List (ℕ × SstFile K V)) : Outcome V :=
  let verdict := nextAlive alive endLevel files
  match mode with
  | .off => getLoop env mode alive endLevel k snapshot true ctx files
  | .deferred => getLoop env mode alive endLevel k snapshot verdict ctx files
  | .eager | .first =>
    if verdict then getLoop env mode alive endLevel k snapshot true ctx files else .notFound

end Version

structure RangeFilters (K : Type) where
  bundle : VersionRDFBundle K
  surfLevelFileRdf : Option (SuRFRDF K)
  surfLevelFileSplitRdf : Option (SuRFRDF K)

/-- A reading system: what it gets from outside, the conversion of keys to integers, which may
throw, and the settings of the tries. -/
structure ReadSystem (K V : Type) where
  env : ReadEnv V
  stoll : K → Option ℤ
  surfEnv : SuRFEnv K

namespace ReadSystem

variable {K V : Type} [LinearOrder K] (sys : ReadSystem K V) (fs : RangeFilters K)

def isAliveAfterSuRF (f : Option (SuRFRDF K)) (key : K) : Alive := fun level fd =>
  match f, fd with
  | some f, some fd => f.isEntryAliveAtLevelOfFd sys.surfEnv level fd (sys.surfEnv.condense key)
  | _, _ => true

/-- The verdicts of the configured filter on a key. The numeric filters convert the key first. -/
def verdict (rdf : RdfType) (key : K) : Option Alive :=
  match rdf with
  | .none => some fun _ _ => true
  | .plrdf => (sys.stoll key).map fun n level _ => fs.bundle.plrdf.isEntryAlive level n
  | .splitPlrdf => (sys.stoll key).map fun n level _ => fs.bundle.splitPlrdf.isEntryAlive level n
  | .topLevelRdf => (sys.stoll key).map fun n _ _ => fs.bundle.topLevelRdf.isEntryAlive 1 n
  | .plrdfStringKey => some fun level _ => fs.bundle.plrdfStringkey.isEntryAlive level key
  | .splitPlrdfStringKey =>
    some fun level _ => fs.bundle.splitPlrdfStringkey.isEntryAlive level key
  | .topLevelRdfStringKey => some fun _ _ => fs.bundle.topLevelRdfStringkey.isEntryAlive 1 key
  | .surfLfRdf => some (sys.isAliveAfterSuRF fs.surfLevelFileRdf key)
  | .surfLfSplitRdf => some (sys.isAliveAfterSuRF fs.surfLevelFileSplitRdf key)

/-- The read of a key in a version. The picker leaves the level `endLevel` behind when it has no
more files, and `ctx` comes from the memtables. -/
def get (rdf : RdfType) (v : Version K V) (endLevel : ℕ) (key : K) (snapshot : ℕ)
    (ctx : GetContext V) : Outcome V :=
  match sys.verdict fs rdf key with
  | none => .exception
  | some alive =>
    Version.getGated sys.env rdf.mode alive endLevel key snapshot ctx (v.picks key)

end ReadSystem

end Spry
