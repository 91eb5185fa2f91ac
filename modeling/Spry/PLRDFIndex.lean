import Spry.PLRDFAligned

/-!
# Index safety of the split key lists

The filter keeps two lists by level, the ranges and the split keys, and indexes the second one
with levels it has checked against the first. Here every such access is checked. Two of the
public operations grow the ranges alone.
-/

namespace Spry.PLRDF

open HalfOpen

variable {K : Type}

inductive Fault where
  | outOfRange
  | exited
  deriving DecidableEq, Repr

def orExit {α : Type} : Option α → Except Fault α
  | none => .error .exited
  | some a => .ok a

def splitKeysAt (f : PLRDF K) (level : ℕ) : Except Fault (List K) :=
  if level < f.splitKeys.length then .ok (f.getSplitKeys level) else .error .outOfRange

/-- Ranges are appended for the levels up to `level`, split keys are not. -/
def growRanges (f : PLRDF K) (level : ℕ) : PLRDF K :=
  { f with rdFilter := f.rdFilter ++ List.replicate (level + 1 - f.rdFilter.length) [] }

theorem splitKeysAt_of_lt {f : PLRDF K} {level : ℕ} (h : level < f.splitKeys.length) :
    f.splitKeysAt level = .ok (f.getSplitKeys level) := if_pos h

theorem length_growRanges (f : PLRDF K) (level : ℕ) :
    (f.growRanges level).rdFilter.length = max f.rdFilter.length (level + 1) := by
  simp only [growRanges, List.length_append, List.length_replicate]
  omega

/-- A call that reads inside of the split keys and leaves the two lists aligned, or exits. -/
def AlignedOrExited : Except Fault (PLRDF K) → Prop
  | .ok g => g.Aligned
  | .error fault => fault = .exited

theorem alignedOrExited_orExit {x : Option (PLRDF K)} (hx : ∀ g ∈ x, g.Aligned) :
    AlignedOrExited (orExit x) := by
  cases x with
  | none => rfl
  | some g => exact hx g rfl

variable [LinearOrder K]

/-- The public overload of `addRangeDelete` for a level. -/
def addRangeDeleteAt (f : PLRDF K) (level : ℕ) (ranges : List (K × K)) : Option (PLRDF K) :=
  (addRangeDelete ((f.growRanges level).getLevelRanges level) ranges).map fun rdList =>
    { f.growRanges level with rdFilter := (f.growRanges level).rdFilter.set level rdList }

def setLevelRanges (f : PLRDF K) (levelRangesIn : List (K × K)) (outlevel : ℕ) : PLRDF K :=
  { f.growRanges outlevel with
    rdFilter := (f.growRanges outlevel).rdFilter.set outlevel levelRangesIn }

/-- The removal of boundaries from a level reads its split keys after the ranges are cut. -/
def restrictChecked (dropEmpty : Bool) (f : PLRDF K) (level : ℕ) (boundaries : List (K × K)) :
    Except Fault (PLRDF K) := do
  let newRanges ← orExit (rangesOutside dropEmpty (f.getLevelRanges level) boundaries)
  let _ ← f.splitKeysAt level
  return f.restrictLevel level newRanges

def shiftSourceChecked (f : PLRDF K) (e : LevelFiles K) : Except Fault (PLRDF K) :=
  if e.clevel = 0 then .ok (f.removeRangeDeletesFromLevel0 e.files)
  else if f.rdFilter.length ≤ e.clevel ∨ sortAndMerge e.boundaries = [] then .ok f
  else restrictChecked true f e.clevel (sortAndMerge e.boundaries)

def shiftChecked (f : PLRDF K) (entries : List (LevelFiles K)) (outRanges : List (K × K)) :
    Except Fault (PLRDF K) :=
  match entries with
  | [] => .ok f
  | e :: es => do
    let g ← (e :: es).foldlM shiftSourceChecked f
    if outRanges = [] then return g else orExit (g.addRangeDeleteInternal e.olevel outRanges)

def deleteChecked (f : PLRDF K) (e : LevelFiles K) : Except Fault (PLRDF K) :=
  if e.clevel = 0 then orExit (f.deleteRDFAssociatedWithFilesAtCurrentLevel e)
  else if f.rdFilter.length ≤ e.clevel then .ok f
  else restrictChecked false f e.clevel (sortAndMerge e.boundaries)

def splitChecked (f : PLRDF K) (level : ℕ) (keys : List K) : Except Fault (PLRDF K) :=
  if f.rdFilter.length ≤ level then .ok f
  else do
    let _ ← f.splitKeysAt level
    return f.splitRangesOnLevel level keys

def isEntryAliveChecked (f : PLRDF K) (level : ℕ) (key : K) : Except Fault Bool :=
  if f.getLevelRanges level = [] then .ok true
  else do
    let _ ← f.splitKeysAt level
    return f.isEntryAlive level key

/-- The public operations on a filter. -/
inductive Op (K : Type) where
  | addRangeDelete (level : ℕ) (ranges : List (K × K))
  | setLevelRanges (levelRangesIn : List (K × K)) (outlevel : ℕ)
  | splitRangesOnLevel (level : ℕ) (keys : List K)
  | shiftRDFToOutputLevel (entries : List (LevelFiles K)) (outRanges : List (K × K))
  | deleteRDFAssociatedWithFilesAtCurrentLevel (e : LevelFiles K)
  | isEntryAlive (level : ℕ) (key : K)

def step (f : PLRDF K) : Op K → Except Fault (PLRDF K)
  | .addRangeDelete level ranges => orExit (f.addRangeDeleteAt level ranges)
  | .setLevelRanges levelRangesIn outlevel => .ok (f.setLevelRanges levelRangesIn outlevel)
  | .splitRangesOnLevel level keys => f.splitChecked level keys
  | .shiftRDFToOutputLevel entries outRanges => f.shiftChecked entries outRanges
  | .deleteRDFAssociatedWithFilesAtCurrentLevel e => f.deleteChecked e
  | .isEntryAlive level key => do
    let _ ← f.isEntryAliveChecked level key
    return f

/-- Every state of the run has split keys for each of its levels, and no operation reads past
their end. A run that exits has no further states. -/
def IndexSafe (f : PLRDF K) : List (Op K) → Prop
  | [] => f.rdFilter.length ≤ f.splitKeys.length
  | op :: ops =>
    f.rdFilter.length ≤ f.splitKeys.length ∧
      match f.step op with
      | .ok g => g.IndexSafe ops
      | .error fault => fault = .exited

/-- An operation that appends levels without their split keys and does not exit. -/
def Op.Opens (f : PLRDF K) : Op K → Prop
  | .addRangeDelete level ranges => f.rdFilter.length ≤ level ∧ StartSorted ranges
  | .setLevelRanges _ outlevel => f.rdFilter.length ≤ outlevel
  | _ => False

def NeverOpens (f : PLRDF K) : List (Op K) → Prop
  | [] => True
  | op :: ops =>
    ¬ op.Opens f ∧
      match f.step op with
      | .ok g => g.NeverOpens ops
      | .error _ => True

variable {f : PLRDF K}

theorem Aligned.restrictChecked_eq (hf : f.Aligned) (dropEmpty : Bool) {level : ℕ}
    (hlevel : level < f.rdFilter.length) (boundaries : List (K × K)) :
    restrictChecked dropEmpty f level boundaries =
      orExit ((rangesOutside dropEmpty (f.getLevelRanges level) boundaries).map
        (f.restrictLevel level)) := by
  unfold restrictChecked
  cases rangesOutside dropEmpty (f.getLevelRanges level) boundaries with
  | none => rfl
  | some newRanges =>
    rw [splitKeysAt_of_lt (hf ▸ hlevel)]
    rfl

theorem Aligned.shiftSourceChecked_eq (hf : f.Aligned) (e : LevelFiles K) :
    f.shiftSourceChecked e = orExit (f.shiftSource e) := by
  unfold shiftSourceChecked PLRDF.shiftSource removeRangeDeletesAndSplitKeyFromLevel
  split_ifs with hzero hskip
  · rfl
  · rfl
  · exact hf.restrictChecked_eq true (not_le.mp fun hle => hskip (Or.inl hle)) _

theorem Aligned.foldlM_shiftSourceChecked_eq (hf : f.Aligned) (entries : List (LevelFiles K)) :
    entries.foldlM shiftSourceChecked f = orExit (entries.foldlM PLRDF.shiftSource f) := by
  induction entries generalizing f with
  | nil => rfl
  | cons e es ih =>
    rw [List.foldlM_cons, List.foldlM_cons, hf.shiftSourceChecked_eq e]
    cases hstep : f.shiftSource e with
    | none => rfl
    | some g => exact ih (hf.shiftSource hstep)

theorem Aligned.shiftChecked_eq (hf : f.Aligned) (entries : List (LevelFiles K))
    (outRanges : List (K × K)) :
    f.shiftChecked entries outRanges = orExit (f.shiftRDFToOutputLevel entries outRanges) := by
  cases entries with
  | nil => rfl
  | cons e es =>
    rw [shiftChecked, PLRDF.shiftRDFToOutputLevel, hf.foldlM_shiftSourceChecked_eq]
    cases (e :: es).foldlM PLRDF.shiftSource f with
    | none => rfl
    | some g =>
      change (if outRanges = [] then Except.ok g
          else orExit (g.addRangeDeleteInternal e.olevel outRanges)) =
        orExit (if outRanges = [] then some g
          else g.addRangeDeleteInternal e.olevel outRanges)
      split_ifs
      · rfl
      · rfl

theorem Aligned.deleteChecked_eq (hf : f.Aligned) (e : LevelFiles K) :
    f.deleteChecked e = orExit (f.deleteRDFAssociatedWithFilesAtCurrentLevel e) := by
  unfold deleteChecked
  split_ifs with hzero hlen
  · rfl
  · rw [PLRDF.deleteRDFAssociatedWithFilesAtCurrentLevel, if_neg hzero, if_pos hlen]
    rfl
  · rw [PLRDF.deleteRDFAssociatedWithFilesAtCurrentLevel, if_neg hzero, if_neg hlen]
    exact hf.restrictChecked_eq false (not_le.mp hlen) _

theorem Aligned.splitChecked_eq (hf : f.Aligned) (level : ℕ) (keys : List K) :
    f.splitChecked level keys = .ok (f.splitRangesOnLevel level keys) := by
  unfold splitChecked
  split_ifs with hlen
  · rw [PLRDF.splitRangesOnLevel, if_pos hlen]
  · rw [splitKeysAt_of_lt (hf ▸ not_le.mp hlen)]
    rfl

theorem Aligned.isEntryAliveChecked (hf : f.Aligned) (level : ℕ) (key : K) :
    ∃ alive, f.isEntryAliveChecked level key = .ok alive := by
  unfold PLRDF.isEntryAliveChecked
  split_ifs with hnil
  · exact ⟨true, rfl⟩
  · have hlevel : level < f.rdFilter.length := by
      by_contra hle
      exact hnil (by simp [getLevelRanges, List.getElem?_eq_none (not_lt.mp hle)])
    rw [splitKeysAt_of_lt (hf ▸ hlevel)]
    exact ⟨_, rfl⟩

/-- From an aligned filter an operation that opens no level reads in range and stays aligned. -/
theorem Aligned.step (hf : f.Aligned) {op : Op K} (hop : ¬ op.Opens f) :
    AlignedOrExited (f.step op) := by
  cases op with
  | addRangeDelete level ranges =>
    refine alignedOrExited_orExit fun g hg => ?_
    obtain ⟨rdList, hadd, rfl⟩ := Option.map_eq_some_iff.mp hg
    -- a call that does not exit was given an ascending list, so the level exists
    have hsorted : StartSorted ranges := by
      unfold PLRDF.addRangeDelete at hadd
      split_ifs at hadd with hempty hsorted
      · rw [hempty]
        exact List.Pairwise.nil
      · exact hsorted
    have hlevel : level < f.rdFilter.length := not_le.mp fun hle => hop ⟨hle, hsorted⟩
    rw [Aligned, List.length_set, length_growRanges, max_eq_left hlevel]
    exact hf
  | setLevelRanges levelRangesIn outlevel =>
    have hlevel : outlevel < f.rdFilter.length := not_le.mp hop
    change (f.setLevelRanges levelRangesIn outlevel).Aligned
    rw [Aligned, PLRDF.setLevelRanges, List.length_set, length_growRanges, max_eq_left hlevel]
    exact hf
  | splitRangesOnLevel level keys =>
    rw [PLRDF.step, hf.splitChecked_eq]
    exact hf.splitRangesOnLevel level keys
  | shiftRDFToOutputLevel entries outRanges =>
    rw [PLRDF.step, hf.shiftChecked_eq]
    exact alignedOrExited_orExit fun g hg => hf.shiftRDFToOutputLevel hg
  | deleteRDFAssociatedWithFilesAtCurrentLevel e =>
    rw [PLRDF.step, hf.deleteChecked_eq]
    exact alignedOrExited_orExit fun g hg => hf.deleteRDFAssociatedWithFilesAtCurrentLevel hg
  | isEntryAlive level key =>
    obtain ⟨alive, halive⟩ := hf.isEntryAliveChecked level key
    simp only [PLRDF.step, halive]
    exact hf

/-- From an aligned filter an operation that opens a level leaves more levels than lists of split
keys. -/
theorem Aligned.step_opens (hf : f.Aligned) {op : Op K} (hop : op.Opens f) :
    ∃ g, f.step op = .ok g ∧ g.splitKeys.length < g.rdFilter.length := by
  have hgrown : ∀ level, f.rdFilter.length ≤ level →
      f.splitKeys.length < (f.growRanges level).rdFilter.length := by
    intro level hle
    rw [length_growRanges, hf]
    omega
  cases op with
  | addRangeDelete level ranges =>
    obtain ⟨rdList, hadd⟩ : ∃ rdList, PLRDF.addRangeDelete
        ((f.growRanges level).getLevelRanges level) ranges = some rdList := by
      unfold PLRDF.addRangeDelete
      rw [if_pos hop.2]
      split_ifs
      · exact ⟨_, rfl⟩
      · exact ⟨_, rfl⟩
    refine ⟨{ f.growRanges level with
      rdFilter := (f.growRanges level).rdFilter.set level rdList }, ?_, ?_⟩
    · rw [PLRDF.step, addRangeDeleteAt, hadd]
      rfl
    · rw [List.length_set]
      exact hgrown level hop.1
  | setLevelRanges levelRangesIn outlevel =>
    refine ⟨_, rfl, ?_⟩
    rw [PLRDF.setLevelRanges, List.length_set]
    exact hgrown outlevel hop
  | splitRangesOnLevel level keys => exact hop.elim
  | shiftRDFToOutputLevel entries outRanges => exact hop.elim
  | deleteRDFAssociatedWithFilesAtCurrentLevel e => exact hop.elim
  | isEntryAlive level key => exact hop.elim

theorem not_indexSafe_of_lt (h : f.splitKeys.length < f.rdFilter.length) (ops : List (Op K)) :
    ¬ f.IndexSafe ops := by
  cases ops with
  | nil => exact not_le.mpr h
  | cons op ops => exact fun hsafe => absurd hsafe.1 (not_le.mpr h)

theorem Aligned.indexSafe_iff (hf : f.Aligned) (ops : List (Op K)) :
    f.IndexSafe ops ↔ f.NeverOpens ops := by
  induction ops generalizing f with
  | nil => exact iff_of_true hf.ge trivial
  | cons op ops ih =>
    by_cases hop : op.Opens f
    · refine iff_of_false ?_ fun h => h.1 hop
      obtain ⟨g, hg, hlt⟩ := hf.step_opens hop
      intro hsafe
      have hrest := hsafe.2
      rw [hg] at hrest
      exact not_indexSafe_of_lt hlt ops hrest
    · have hstep := hf.step hop
      rw [IndexSafe, NeverOpens]
      cases hres : f.step op with
      | ok g =>
        rw [hres] at hstep
        simp only [ih hstep, hop, not_false_eq_true, true_and]
        exact and_iff_right hf.ge
      | error fault =>
        rw [hres] at hstep
        exact iff_of_true ⟨hf.ge, hstep⟩ ⟨hop, trivial⟩

/-- The operations of a run read the split keys in range, and keep a list of them for every level,
exactly if none of them opens a level. -/
theorem indexSafe_iff_neverOpens (ops : List (Op K)) :
    (empty : PLRDF K).IndexSafe ops ↔ (empty : PLRDF K).NeverOpens ops :=
  aligned_empty.indexSafe_iff ops

/-- A range added to level 0, then a lookup on that level. -/
theorem lookup_out_of_range :
    [Op.addRangeDelete 0 [((1 : ℕ), 5)], Op.isEntryAlive 0 3].foldlM step empty =
        Except.error Fault.outOfRange ∧
      ¬ (empty : PLRDF ℕ).IndexSafe [Op.addRangeDelete 0 [(1, 5)], Op.isEntryAlive 0 3] := by
  refine ⟨rfl, ?_⟩
  intro hsafe
  exact absurd hsafe.2.1 (by decide)

end Spry.PLRDF
