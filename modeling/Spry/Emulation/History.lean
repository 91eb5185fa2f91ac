import Spry.Emulation.Verdict

/-!
# What a workload says about a key

A workload says about a key what its last operation on the key says. The entries of a list for a
key may stem from a segment of the workload only; the buffer and the levels of a tree stem from
consecutive segments, the deepest level from the first one.
-/

namespace Spry.Emulation

open ClosedRange

namespace Op

def verdict (k : ℤ) : Op → Verdict
  | .insert key value => if key = k then some (some value) else none
  | .rangeDelete startKey endKey => if startKey ≤ k ∧ k ≤ endKey then some none else none

/-- The keys are non-negative and fit an `int`, and a range has its start before its end. -/
def Valid : Op → Prop
  | .insert key _ => 0 ≤ key ∧ key < 2 ^ 31
  | .rangeDelete startKey endKey => 0 ≤ startKey ∧ startKey ≤ endKey ∧ endKey < 2 ^ 31

theorem verdict_insert {key k : ℤ} {v w : Bytes} :
    (Op.insert key v).verdict k = some (some w) ↔ key = k ∧ v = w := by
  simp [verdict]

theorem Valid.inRange {op : Op} (h : op.Valid) {k : ℤ} (hk : op.verdict k ≠ none) :
    k ∈ Set.Ico (0 : ℤ) (2 ^ 31) := by
  cases op with
  | insert key value =>
    obtain rfl : key = k := by simpa [verdict] using hk
    exact h
  | rangeDelete startKey endKey =>
    have hk : startKey ≤ k ∧ k ≤ endKey := by simpa [verdict] using hk
    exact ⟨h.1.trans hk.1, hk.2.trans_lt h.2.2⟩

theorem Valid.exists_verdict {op : Op} (h : op.Valid) : ∃ k, op.verdict k ≠ none := by
  cases op with
  | insert key value => exact ⟨key, by simp [verdict]⟩
  | rangeDelete startKey endKey => exact ⟨startKey, by simp [verdict, h.2.1]⟩

end Op

section History

variable {ops : List Op} {op : Op} {k : ℤ} {v : Bytes}

def history (ops : List Op) (k : ℤ) : Verdict :=
  ops.foldl (fun earlier op => (op.verdict k).or earlier) none

theorem history_snoc : history (ops ++ [op]) k = (op.verdict k).or (history ops k) := by
  simp [history, List.foldl_append]

theorem history_append (older newer : List Op) :
    history (older ++ newer) k = (history newer k).or (history older k) := by
  induction newer using List.reverseRecOn with
  | nil => simp [history]
  | append_singleton newer op ih =>
    rw [← List.append_assoc, history_snoc, history_snoc, ih, Option.or_assoc]

def Deletes (ops : List Op) (k : ℤ) : Prop := ∃ s e, .rangeDelete s e ∈ ops ∧ s ≤ k ∧ k ≤ e

theorem not_deletes_nil : ¬ Deletes [] k := by
  simp [Deletes]

theorem deletes_append (older newer : List Op) :
    Deletes (older ++ newer) k ↔ Deletes newer k ∨ Deletes older k := by
  simp only [Deletes, List.mem_append, or_and_right, exists_or]
  exact or_comm

def Latest (ops : List Op) (k : ℤ) (v : Bytes) : Prop :=
  ∃ earlier later, ops = earlier ++ .insert k v :: later ∧
    (∀ w, .insert k w ∉ later) ∧ ∀ s e, s ≤ k → k ≤ e → .rangeDelete s e ∉ later

theorem latest_iff : Latest ops k v ↔
    ∃ earlier later, ops = earlier ++ .insert k v :: later ∧ ∀ op ∈ later, op.verdict k = none := by
  have hiff : ∀ later : List Op, ((∀ w, .insert k w ∉ later) ∧
      ∀ s e, s ≤ k → k ≤ e → .rangeDelete s e ∉ later) ↔ ∀ op ∈ later, op.verdict k = none := by
    intro later
    constructor
    · rintro ⟨hins, hdel⟩ op hop
      cases op with
      | insert key w => exact if_neg fun (h : key = k) => hins w (h ▸ hop)
      | rangeDelete s e => exact if_neg fun h => hdel s e h.1 h.2 hop
    · intro h
      refine ⟨fun w hw => ?_, fun s e hs he hw => ?_⟩
      · simpa [Op.verdict] using h _ hw
      · simpa [Op.verdict, hs, he] using h _ hw
  simp only [Latest, hiff]

theorem latest_snoc : Latest (ops ++ [op]) k v ↔
    op.verdict k = some (some v) ∨ (op.verdict k = none ∧ Latest ops k v) := by
  rw [latest_iff, latest_iff]
  constructor
  · rintro ⟨earlier, later, heq, hlater⟩
    rcases List.eq_nil_or_concat' later with rfl | ⟨init, last, rfl⟩
    · obtain ⟨rfl, hop⟩ := List.append_inj' heq rfl
      obtain rfl := List.singleton_inj.mp hop
      exact Or.inl (by simp [Op.verdict])
    · rw [← List.cons_append, ← List.append_assoc] at heq
      obtain ⟨rfl, hop⟩ := List.append_inj' heq rfl
      obtain rfl := List.singleton_inj.mp hop
      exact Or.inr ⟨hlater op (by simp), earlier, init, rfl, fun o ho => hlater o (by simp [ho])⟩
  · rintro (hop | ⟨hop, earlier, later, rfl, hlater⟩)
    · cases op with
      | insert key w =>
        obtain ⟨rfl, rfl⟩ := Op.verdict_insert.mp hop
        exact ⟨ops, [], rfl, by simp⟩
      | rangeDelete s e => simp [Op.verdict] at hop
    · refine ⟨earlier, later ++ [op], by simp, fun o ho => ?_⟩
      rcases List.mem_append.mp ho with ho | ho
      · exact hlater o ho
      · exact List.mem_singleton.mp ho ▸ hop

theorem history_eq_some_iff : history ops k = some (some v) ↔ Latest ops k v := by
  induction ops using List.reverseRecOn with
  | nil => simp [history, Latest]
  | append_singleton ops op ih =>
    rw [history_snoc, latest_snoc, ← ih, Option.or_eq_some_iff]

end History

section Segments

variable {l m n : EntryList} {ops older newer : List Op} {k : ℤ}

structure EntryList.Records (l : EntryList) (ops : List Op) (k : ℤ) : Prop where
  verdict_eq : l.verdict k = history ops k
  covered_iff : k ∈ coverage l.ranges ↔ Deletes ops k

/-- The list `n` holds for a key what `l` holds over `m`. -/
structure EntryList.OverAt (k : ℤ) (l m n : EntryList) : Prop where
  verdict_eq : n.verdict k = (l.verdict k).or (m.verdict k)
  covered_iff : k ∈ coverage n.ranges ↔ k ∈ coverage l.ranges ∨ k ∈ coverage m.ranges

namespace EntryList

theorem records_of_notMem (h : k ∉ l.support) : l.Records [] k :=
  ⟨verdict_eq_none_iff.mpr h, iff_of_false (fun hk => h (Or.inr hk)) not_deletes_nil⟩

theorem OverAt.records (h : OverAt k l m n) (hl : l.Records newer k) (hm : m.Records older k) :
    n.Records (older ++ newer) k := by
  refine ⟨?_, ?_⟩
  · rw [h.verdict_eq, hl.verdict_eq, hm.verdict_eq, history_append]
  · rw [h.covered_iff, hl.covered_iff, hm.covered_iff, deletes_append]

theorem records_congr (hverdict : n.verdict k = l.verdict k)
    (hcovered : k ∈ coverage n.ranges ↔ k ∈ coverage l.ranges) :
    n.Records ops k ↔ l.Records ops k :=
  ⟨fun hn => ⟨hverdict.symm.trans hn.verdict_eq, hcovered.symm.trans hn.covered_iff⟩,
    fun hl => ⟨hverdict.trans hl.verdict_eq, hcovered.trans hl.covered_iff⟩⟩

theorem OverAt.records_left (h : OverAt k l m n) (hm : k ∉ m.support) :
    n.Records ops k ↔ l.Records ops k := by
  refine records_congr ?_ (h.covered_iff.trans (or_iff_left fun hk => hm (Or.inr hk)))
  rw [h.verdict_eq, verdict_eq_none_iff.mpr hm, Option.or_none]

theorem OverAt.records_right (h : OverAt k l m n) (hl : k ∉ l.support) :
    n.Records ops k ↔ m.Records ops k := by
  refine records_congr ?_ (h.covered_iff.trans (or_iff_right fun hk => hl (Or.inr hk)))
  rw [h.verdict_eq, verdict_eq_none_iff.mpr hl, Option.none_or]

theorem verdict_eq_some_iff {v : Bytes} (h : Distinct l.points) :
    l.verdict k = some (some v) ↔ ⟨k, v⟩ ∈ l.points := by
  rw [← lookup_eq_some_iff h, verdict]
  cases lookup k l.points with
  | some w => simp
  | none =>
    by_cases hk : k ∈ coverage l.ranges
    · simp [hk]
    · simp [hk]

theorem Records.mem_points_iff {v : Bytes} (h : l.Records ops k) (hl : Distinct l.points) :
    ⟨k, v⟩ ∈ l.points ↔ Latest ops k v := by
  rw [← verdict_eq_some_iff hl, h.verdict_eq, history_eq_some_iff]

end EntryList

/-- The segments below `n` one after the other, the one with the greatest index first. -/
def replay (seg : ℕ → List Op) : ℕ → List Op
  | 0 => []
  | n + 1 => seg n ++ replay seg n

theorem replay_congr {seg seg' : ℕ → List Op} {n : ℕ} (h : ∀ i, i < n → seg' i = seg i) :
    replay seg' n = replay seg n := by
  induction n with
  | zero => rfl
  | succ n ih => rw [replay, replay, h n (Nat.lt_succ_self n), ih fun i hi => h i (by omega)]

def shiftDown (seg : ℕ → List Op) (i : ℕ) : ℕ → List Op :=
  Function.update (Function.update seg i []) (i + 1) (seg (i + 1) ++ seg i)

theorem replay_shiftDown {seg : ℕ → List Op} {i n : ℕ} (h : i + 2 ≤ n) :
    replay (shiftDown seg i) n = replay seg n := by
  induction n, h using Nat.le_induction with
  | base =>
    have hlower : replay (shiftDown seg i) i = replay seg i := replay_congr fun j hj => by
      rw [shiftDown, Function.update_of_ne (by omega), Function.update_of_ne (by omega)]
    simp only [replay, hlower]
    simp [shiftDown]
  | succ n hn ih =>
    rw [replay, replay, ih, shiftDown, Function.update_of_ne (by omega),
      Function.update_of_ne (by omega)]

theorem replay_snoc (seg : ℕ → List Op) (op : Op) (n : ℕ) :
    replay (Function.update seg 0 (seg 0 ++ [op])) (n + 1) = replay seg (n + 1) ++ [op] := by
  induction n with
  | zero => simp [replay]
  | succ n ih =>
    rw [replay, ih, Function.update_of_ne (Nat.succ_ne_zero n), ← List.append_assoc]
    rfl

/-- The lists `content 0`, ..., `content 31` hold for a key what consecutive segments of a
workload say, and the last of the lists has the first segment. -/
def Traced (content : ℕ → EntryList) (ops : List Op) (k : ℤ) : Prop :=
  ∃ seg, replay seg 32 = ops ∧ ∀ i, i < 32 → (content i).Records (seg i) k

theorem Traced.moveDown {content content' : ℕ → EntryList} {f : EntryList} {i : ℕ} (hi : i < 31)
    (h : Traced content ops k) (hother : ∀ j, j ≠ i → j ≠ i + 1 → content' j = content j)
    (hupper : EntryList.OverAt k f (content' i) (content i))
    (hlower : EntryList.OverAt k f (content (i + 1)) (content' (i + 1)))
    (hdisjoint : k ∈ f.support → k ∉ (content' i).support) : Traced content' ops k := by
  obtain ⟨seg, hreplay, hrecords⟩ := h
  by_cases hk : k ∈ f.support
  · refine ⟨shiftDown seg i, (replay_shiftDown (by omega)).trans hreplay, fun j hj => ?_⟩
    unfold shiftDown
    by_cases hji : j = i
    · subst hji
      rw [Function.update_of_ne (by omega), Function.update_self]
      exact EntryList.records_of_notMem (hdisjoint hk)
    · by_cases hji' : j = i + 1
      · subst hji'
        rw [Function.update_self]
        have hf := (hupper.records_left (hdisjoint hk)).mp (hrecords i (by omega))
        exact hlower.records hf (hrecords (i + 1) hj)
      · rw [Function.update_of_ne hji', Function.update_of_ne hji, hother j hji hji']
        exact hrecords j hj
  · refine ⟨seg, hreplay, fun j hj => ?_⟩
    by_cases hji : j = i
    · subst hji
      exact (hupper.records_right hk).mp (hrecords j hj)
    · by_cases hji' : j = i + 1
      · subst hji'
        exact (hlower.records_right hk).mpr (hrecords (i + 1) hj)
      · rw [hother j hji hji']
        exact hrecords j hj

end Segments

end Spry.Emulation
