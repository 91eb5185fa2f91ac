import Spry.Emulation.SkylineFilter
import Spry.Emulation.Reachable

/-!
# Instructions, the skyline filter and the recorder

The decoder numbers the instructions. A range delete enters the skyline filter under its own
number, an insert is recorded under the number after its own. A lookup in the filter counts a tie
as a deletion, so the instruction right behind an insert is still seen to delete it.
-/

namespace Spry.Emulation

open SkylineRangeDeleteFilter

/-- Reading the time of a key that has none makes it 0. -/
structure WorkloadRecorder where
  groundTruth : List PointEntry
  insertTimestamp : ℤ → ℤ
  historyKeySet : List ℤ

namespace WorkloadRecorder

def initial : WorkloadRecorder := ⟨[], fun _ => 0, []⟩

def insert (r : WorkloadRecorder) (key : ℤ) (value : Bytes) (timestamp : ℤ) :
    WorkloadRecorder where
  groundTruth := ⟨key, value⟩ :: r.groundTruth.filter fun p => p.sortKey ≠ key
  insertTimestamp := Function.update r.insertTimestamp key timestamp
  historyKeySet := r.historyKeySet.insert key

def remove (r : WorkloadRecorder) (startKey endKey : ℤ) : WorkloadRecorder :=
  { r with
    groundTruth := r.groundTruth.filter fun p => ¬ (startKey ≤ p.sortKey ∧ p.sortKey ≤ endKey) }

end WorkloadRecorder

/-- The decoder and the static state its instructions work on. -/
structure Session where
  instructionSequenceNumber : ℕ
  emulator : Emulator
  skyline : SkylineRangeDeleteFilter
  recorder : WorkloadRecorder

namespace Session

def initial : Session := ⟨0, .initial, .empty, .initial⟩

def decode (env : EmuEnv) (s : Session) : Op → Option Session
  | .insert key value => (s.emulator.insert env key value).map fun emulator =>
    { s with
      instructionSequenceNumber := s.instructionSequenceNumber + 1
      emulator := emulator
      -- the number has gone up before the insert is recorded
      recorder := s.recorder.insert key value (s.instructionSequenceNumber + 1) }
  | .rangeDelete startKey endKey =>
    (s.emulator.rangeDeleteOnPrimaryKey env startKey endKey).map fun emulator =>
      { instructionSequenceNumber := s.instructionSequenceNumber + 1
        emulator := emulator
        skyline := s.skyline.addRangeDeleteWithTimetag
          ⟨startKey, endKey, s.instructionSequenceNumber⟩
        recorder := s.recorder.remove startKey endKey }

def runWorkload (env : EmuEnv) (ops : List Op) : Option Session :=
  ops.foldlM (decode env) initial

end Session

/-- A range of more than one key. -/
def Op.Proper : Op → Prop
  | .insert _ _ => True
  | .rangeDelete startKey endKey => startKey < endKey

section Recorded

variable {env : EmuEnv} {ops : List Op} {op : Op} {s s' : Session}

/-- The state beside the tree after the operations so far. A key that was inserted is deleted for
the skyline filter if its last operation is a range delete. -/
structure Recorded (ops : List Op) (s : Session) : Prop where
  number_eq : s.instructionSequenceNumber = ops.length
  distinct : Distinct s.recorder.groundTruth
  lookup_eq : ∀ k, lookup k s.recorder.groundTruth = (history ops k).join
  mem_keys : ∀ k, k ∈ s.recorder.historyKeySet ↔ ∃ v, .insert k v ∈ ops
  stamp_le : ∀ k, s.recorder.insertTimestamp k ≤ ops.length
  skyline : ∃ added, s.skyline.Represents added ∧ (∀ a ∈ added, a.timetag < ops.length) ∧
    ∀ k ∈ s.recorder.historyKeySet,
      Deleted added k (s.recorder.insertTimestamp k) ↔ history ops k = some none

theorem recorded_initial : Recorded [] Session.initial := by
  refine ⟨rfl, List.Pairwise.nil, fun _ => rfl, ?_, fun _ => le_rfl,
    [], represents_empty, by simp, ?_⟩
  · simp [Session.initial, WorkloadRecorder.initial]
  · simp [Session.initial, WorkloadRecorder.initial]

variable (hs : Recorded ops s)
include hs

theorem Recorded.insert (key : ℤ) (value : Bytes) (e : Emulator) :
    Recorded (ops ++ [.insert key value]) { s with
      instructionSequenceNumber := s.instructionSequenceNumber + 1
      emulator := e
      recorder := s.recorder.insert key value (s.instructionSequenceNumber + 1) } := by
  have hlength : (ops ++ [Op.insert key value]).length = ops.length + 1 := by simp
  obtain ⟨added, hrep, htags, hdeleted⟩ := hs.skyline
  refine ⟨by rw [hlength, hs.number_eq], ?_, fun k => ?_, fun k => ?_, fun k => ?_,
    added, hrep, fun a ha => ?_, fun k hk => ?_⟩
  · refine List.pairwise_cons.mpr ⟨fun p hp => ?_, hs.distinct.sublist List.filter_sublist⟩
    simpa using Ne.symm (by simpa using (List.mem_filter.mp hp).2)
  · have hfilter := @lookup_filter s.recorder.groundTruth k fun x => decide (x ≠ key)
    simp only [WorkloadRecorder.insert]
    rw [lookup_cons, history_snoc, Op.verdict]
    by_cases hk : key = k
    · simp [hk]
    · rw [if_neg hk, if_neg hk, hfilter, if_pos (by simpa using Ne.symm hk), hs.lookup_eq]
      rfl
  · simp only [WorkloadRecorder.insert, List.mem_insert_iff, hs.mem_keys, List.mem_append,
      List.mem_singleton, Op.insert.injEq]
    constructor
    · rintro (rfl | ⟨v, hv⟩)
      · exact ⟨value, Or.inr ⟨rfl, rfl⟩⟩
      · exact ⟨v, Or.inl hv⟩
    · rintro ⟨v, hv | ⟨rfl, _⟩⟩
      · exact Or.inr ⟨v, hv⟩
      · exact Or.inl rfl
  · simp only [WorkloadRecorder.insert, hlength, hs.number_eq, Function.update_apply]
    have := hs.stamp_le k
    split_ifs
    · simp
    · omega
  · have := htags a ha
    omega
  · simp only [WorkloadRecorder.insert, hs.number_eq, Function.update_apply]
    rw [history_snoc, Op.verdict]
    by_cases hkey : k = key
    · -- every range of the filter is older than the insert
      subst hkey
      rw [if_pos rfl, if_pos rfl]
      refine iff_of_false ?_ (by simp)
      rintro ⟨a, ha, _, hle⟩
      have := htags a ha
      omega
    · rw [if_neg hkey, if_neg (Ne.symm hkey)]
      exact hdeleted k ((List.mem_insert_iff.mp hk).resolve_left hkey)

theorem Recorded.rangeDelete {startKey endKey : ℤ} (hvalid : (Op.rangeDelete startKey endKey).Valid)
    (hproper : startKey < endKey) (hnumber : ops.length < 2 ^ 31) (e : Emulator) :
    Recorded (ops ++ [.rangeDelete startKey endKey])
      { instructionSequenceNumber := s.instructionSequenceNumber + 1
        emulator := e
        skyline := s.skyline.addRangeDeleteWithTimetag
          ⟨startKey, endKey, s.instructionSequenceNumber⟩
        recorder := s.recorder.remove startKey endKey } := by
  have hlength : (ops ++ [Op.rangeDelete startKey endKey]).length = ops.length + 1 := by simp
  obtain ⟨added, hrep, htags, hdeleted⟩ := hs.skyline
  obtain ⟨hstart, _, hend⟩ := hvalid
  refine ⟨by rw [hlength, hs.number_eq], hs.distinct.sublist List.filter_sublist, fun k => ?_,
    fun k => ?_, fun k => ?_, added ++ [⟨startKey, endKey, s.instructionSequenceNumber⟩],
    hrep.add hproper ?_ ?_, ?_, fun k hk => ?_⟩
  · have hfilter := @lookup_filter s.recorder.groundTruth k
      fun x => decide (¬ (startKey ≤ x ∧ x ≤ endKey))
    simp only [WorkloadRecorder.remove]
    rw [hfilter, history_snoc, Op.verdict]
    by_cases hk : startKey ≤ k ∧ k ≤ endKey
    · simp [hk]
    · rw [if_pos (decide_eq_true hk), if_neg hk, hs.lookup_eq]
      rfl
  · simp [WorkloadRecorder.remove, hs.mem_keys]
  · have := hs.stamp_le k
    simp only [WorkloadRecorder.remove]
    omega
  · refine ⟨⟨?_, ?_⟩, ⟨?_, ?_⟩, ⟨?_, ?_⟩⟩ <;> simp only [hs.number_eq] <;> omega
  · rw [hs.number_eq]
    exact htags
  · intro a ha
    rcases List.mem_append.mp ha with ha | ha
    · have := htags a ha
      omega
    · rw [List.mem_singleton.mp ha, hs.number_eq]
      simp
  · have hstamp := hs.stamp_le k
    have hbefore := hdeleted k hk
    simp only [WorkloadRecorder.remove]
    rw [history_snoc, Op.verdict, deleted_append, hbefore, hs.number_eq]
    by_cases hover : startKey ≤ k ∧ k ≤ endKey
    · -- the range has the time of the latest insert at the earliest, and a tie is a deletion
      rw [if_pos hover]
      exact iff_of_true (Or.inr ⟨_, List.mem_singleton_self _, hover, hstamp⟩) rfl
    · rw [if_neg hover]
      simp [Deleted, RangeDeleteEntry.Over, hover]

theorem Recorded.decode (hvalid : op.Valid) (hproper : op.Proper) (hnumber : ops.length < 2 ^ 31)
    (h : s.decode env op = some s') : Recorded (ops ++ [op]) s' := by
  cases op with
  | insert key value =>
    obtain ⟨e, _, rfl⟩ := Option.map_eq_some_iff.mp h
    exact hs.insert key value e
  | rangeDelete startKey endKey =>
    obtain ⟨e, _, rfl⟩ := Option.map_eq_some_iff.mp h
    exact hs.rangeDelete hvalid hproper hnumber e

omit hs

theorem runWorkload_snoc (h : Session.runWorkload env (ops ++ [op]) = some s) :
    ∃ s₁, Session.runWorkload env ops = some s₁ ∧ s₁.decode env op = some s := by
  rw [Session.runWorkload, List.foldlM_append] at h
  obtain ⟨s₁, hrun, h⟩ := Option.bind_eq_some_iff.mp h
  exact ⟨s₁, hrun, by simpa using h⟩

theorem run_of_runWorkload (h : Session.runWorkload env ops = some s) :
    Emulator.run env ops = some s.emulator := by
  induction ops using List.reverseRecOn generalizing s with
  | nil =>
    rw [← Option.some.inj h]
    rfl
  | append_singleton ops op ih =>
    obtain ⟨s₁, hrun, hstep⟩ := runWorkload_snoc h
    have hemulator : s₁.emulator.step env op = some s.emulator := by
      cases op with
      | insert key value =>
        obtain ⟨e, he, rfl⟩ := Option.map_eq_some_iff.mp hstep
        exact he
      | rangeDelete startKey endKey =>
        obtain ⟨e, he, rfl⟩ := Option.map_eq_some_iff.mp hstep
        exact he
    have hbefore : ops.foldlM (Emulator.step env) Emulator.initial = some s₁.emulator := ih hrun
    rw [Emulator.run, List.foldlM_append, hbefore]
    simpa using hemulator

theorem recorded_runWorkload (hops : ∀ op ∈ ops, op.Valid ∧ op.Proper)
    (hnumber : ops.length ≤ 2 ^ 31) (h : Session.runWorkload env ops = some s) :
    Recorded ops s := by
  induction ops using List.reverseRecOn generalizing s with
  | nil =>
    rw [← Option.some.inj h]
    exact recorded_initial
  | append_singleton ops op ih =>
    obtain ⟨s₁, hrun, hstep⟩ := runWorkload_snoc h
    rw [List.length_append, List.length_singleton] at hnumber
    obtain ⟨hvalid, hproper⟩ := hops op (by simp)
    exact (ih (fun o ho => hops o (by simp [ho])) (by omega) hrun).decode hvalid hproper
      (by omega) hstep

end Recorded

end Spry.Emulation
