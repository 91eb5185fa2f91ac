import Spry.CompactionInstall

/-!
# The compaction iterator in front of the job's own scan

Over values and deletions, without snapshots and compaction filters, the iterator emits the
newest entry of a key unless it is a deletion that no deeper level needs or a newer tombstone of
the inputs covers it. At the bottommost level the iterator sets the sequence number of what it
emits to 0. The scan of the job compares that number with the input tombstones: away from the
bottommost level it skips nothing more, and there it skips every value under a tombstone, however
new the value is.
-/

namespace Spry

variable {K V : Type} [LinearOrder K]

/-- Entries in the order of their internal keys: by key, and for one key the newest first. -/
def PointEntry.internalKey (e : PointEntry K V) : K ×ₗ ℕᵒᵈ := toLex (e.key, OrderDual.toDual e.seq)

/-- Several runs of entries merged into one. -/
def mergeEntries (es : List (PointEntry K V)) : List (PointEntry K V) :=
  es.insertionSort fun a b => a.internalKey ≤ b.internalKey

/-- The input files of a compaction as one run of entries. -/
def mergingIterator (files : List (SstFile K V)) : List (PointEntry K V) :=
  mergeEntries (files.flatMap fun f => f.points)

/-- The range tombstones of the inputs, whether a key can exist below the output level, and
whether nothing can. -/
structure CompactionIterator (K : Type) [LinearOrder K] where
  rangeDelAgg : List (RangeTombstone K)
  keyNotExistsBeyondOutputLevel : K → Bool
  bottommostLevel : Bool

namespace CompactionIterator

variable (it : CompactionIterator K)

def shouldDelete (e : PointEntry K V) : Bool :=
  it.rangeDelAgg.any fun t => t.Covers e.key ∧ e.seq < t.seq

/-- The first entry of a key that is not emitted: an obsolete deletion, or a covered entry. -/
def drops (e : PointEntry K V) : Bool :=
  (e.type = .kTypeDeletion && it.keyNotExistsBeyondOutputLevel e.key) || it.shouldDelete e

/-- Nothing below can need the order, so the sequence number is zeroed. -/
def prepareOutput (e : PointEntry K V) : PointEntry K V :=
  if it.bottommostLevel then { e with seq := 0 } else e

/-- The user key of the entry before hides the older entries of that key, whether it was emitted
or dropped. -/
def nextFromInput : Option K → List (PointEntry K V) → List (PointEntry K V)
  | _, [] => []
  | currentUserKey, e :: es =>
    if currentUserKey = some e.key then nextFromInput currentUserKey es
    else if it.drops e then nextFromInput (some e.key) es
    else it.prepareOutput e :: nextFromInput (some e.key) es

def emits (files : List (SstFile K V)) : List (PointEntry K V) :=
  it.nextFromInput none (mergingIterator files)

end CompactionIterator

/-- The newest entry of its key in a run. -/
def PointEntry.NewestIn (e : PointEntry K V) (es : List (PointEntry K V)) : Prop :=
  e ∈ es ∧ ∀ e' ∈ es, e'.key = e.key → e'.seq ≤ e.seq

namespace PointEntry

variable {e x : PointEntry K V} {es : List (PointEntry K V)}

omit [LinearOrder K] in
theorem newestIn_cons_of_ne (hx : x.key ≠ e.key) : x.NewestIn (e :: es) ↔ x.NewestIn es := by
  have hne : x ≠ e := fun h => hx (congrArg PointEntry.key h)
  simp [NewestIn, hne, Ne.symm hx]

theorem newestIn_head
    (hhead : ∀ e' ∈ es, e.key < e'.key ∨ (e.key = e'.key ∧ e'.seq < e.seq)) :
    e.NewestIn (e :: es) := by
  refine ⟨List.mem_cons_self, ?_⟩
  intro e' he' hkey
  cases List.mem_cons.mp he' with
  | inl heq => rw [heq]
  | inr hmem =>
    cases hhead e' hmem with
    | inl hlt => exact absurd hkey hlt.ne'
    | inr hlt => exact hlt.2.le

theorem NewestIn.eq_head (h : x.NewestIn (e :: es))
    (hhead : ∀ e' ∈ es, e.key < e'.key ∨ (e.key = e'.key ∧ e'.seq < e.seq))
    (hx : x.key = e.key) : x = e := by
  cases List.mem_cons.mp h.1 with
  | inl heq => exact heq
  | inr hmem =>
    have hge := h.2 e List.mem_cons_self hx.symm
    cases hhead x hmem with
    | inl hlt => exact absurd hx hlt.ne'
    | inr hlt => omega

end PointEntry

instance total_internalKey :
    Std.Total (fun a b : PointEntry K V => a.internalKey ≤ b.internalKey) :=
  ⟨fun a b => le_total a.internalKey b.internalKey⟩

instance isTrans_internalKey :
    IsTrans (PointEntry K V) (fun a b => a.internalKey ≤ b.internalKey) :=
  ⟨fun _ _ _ hab hbc => hab.trans hbc⟩

theorem internalKey_le_iff {a b : PointEntry K V} :
    a.internalKey ≤ b.internalKey ↔ a.key < b.key ∨ (a.key = b.key ∧ b.seq ≤ a.seq) :=
  Prod.Lex.toLex_le_toLex

/-- If no two entries have the same key and number, the entries of one key get strictly older. -/
theorem strictly_sorted {es : List (PointEntry K V)}
    (hsorted : es.Pairwise (fun a b => a.internalKey ≤ b.internalKey))
    (hdistinct : es.Pairwise (fun a b => a.key = b.key → a.seq ≠ b.seq)) :
    es.Pairwise (fun a b => a.key < b.key ∨ (a.key = b.key ∧ b.seq < a.seq)) := by
  refine (hsorted.and hdistinct).imp ?_
  rintro a b ⟨hle, hne⟩
  rcases internalKey_le_iff.mp hle with hlt | ⟨heq, hle⟩
  · exact Or.inl hlt
  · exact Or.inr ⟨heq, lt_of_le_of_ne hle (Ne.symm (hne heq))⟩

theorem strictly_sorted_mergeEntries {es : List (PointEntry K V)}
    (hdistinct : es.Pairwise (fun a b => a.key = b.key → a.seq ≠ b.seq)) :
    (mergeEntries es).Pairwise
      (fun a b => a.key < b.key ∨ (a.key = b.key ∧ b.seq < a.seq)) := by
  refine strictly_sorted (List.pairwise_insertionSort _ es) ?_
  refine (List.Perm.pairwise_iff ?_ (List.perm_insertionSort _ _)).mpr hdistinct
  intro a b hab hkey heq
  exact hab hkey.symm heq.symm

namespace CompactionIterator

variable {it : CompactionIterator K}

@[simp] theorem key_prepareOutput (e : PointEntry K V) : (it.prepareOutput e).key = e.key := by
  unfold prepareOutput
  split <;> rfl

@[simp] theorem type_prepareOutput (e : PointEntry K V) :
    (it.prepareOutput e).type = e.type := by
  unfold prepareOutput
  split <;> rfl

/-- Whatever is emitted comes from the newest entry of a key. With equal sequence numbers of one
key the first of them counts, so these are excluded. -/
theorem mem_nextFromInput {es : List (PointEntry K V)}
    (hsorted : es.Pairwise (fun a b => a.key < b.key ∨ (a.key = b.key ∧ b.seq < a.seq)))
    {current : Option K} (hcurrent : ∀ c ∈ current, ∀ e ∈ es, c ≤ e.key) {out : PointEntry K V} :
    out ∈ it.nextFromInput current es ↔
      ∃ e, e.NewestIn es ∧ current ≠ some e.key ∧ it.drops e = false ∧
        out = it.prepareOutput e := by
  induction es generalizing current with
  | nil => simp [nextFromInput, PointEntry.NewestIn]
  | cons e es ih =>
    obtain ⟨hhead, htail⟩ := List.pairwise_cons.mp hsorted
    have hle : ∀ e' ∈ es, e.key ≤ e'.key := by
      intro e' he'
      cases hhead e' he' with
      | inl h => exact h.le
      | inr h => exact h.1.le
    by_cases hhidden : current = some e.key
    · have hstep : it.nextFromInput current (e :: es) = it.nextFromInput current es := by
        rw [nextFromInput, if_pos hhidden]
      rw [hstep, ih htail (fun c hc e' he' => hcurrent c hc e' (List.mem_cons_of_mem e he'))]
      refine exists_congr fun x => ?_
      by_cases hx : x.key = e.key
      · simp [hhidden, hx]
      · rw [PointEntry.newestIn_cons_of_ne hx]
    · have hrest : out ∈ it.nextFromInput (some e.key) es ↔ _ := ih htail (by simpa using hle)
      have hstep : out ∈ it.nextFromInput current (e :: es) ↔
          (it.drops e = false ∧ out = it.prepareOutput e) ∨
            out ∈ it.nextFromInput (some e.key) es := by
        rw [nextFromInput, if_neg hhidden]
        cases it.drops e <;> simp
      rw [hstep, hrest]
      constructor
      · rintro (⟨hkeep, rfl⟩ | ⟨x, hx, hkey, hkeep, rfl⟩)
        · exact ⟨e, PointEntry.newestIn_head hhead, hhidden, hkeep, rfl⟩
        · have hne : x.key ≠ e.key := fun h => hkey (by rw [h])
          refine ⟨x, (PointEntry.newestIn_cons_of_ne hne).mpr hx, ?_, hkeep, rfl⟩
          intro heq
          have hlt : e.key < x.key := lt_of_le_of_ne (hle x hx.1) (Ne.symm hne)
          exact absurd (hcurrent x.key heq e List.mem_cons_self) (not_le.mpr hlt)
      · rintro ⟨x, hx, hkey, hkeep, rfl⟩
        by_cases hxe : x.key = e.key
        · obtain rfl := hx.eq_head hhead hxe
          exact Or.inl ⟨hkeep, rfl⟩
        · exact Or.inr ⟨x, (PointEntry.newestIn_cons_of_ne hxe).mp hx,
            fun h => hxe (Option.some.inj h).symm, hkeep, rfl⟩

theorem nextFromInput_sorted {es : List (PointEntry K V)}
    (hsorted : es.Pairwise (fun a b => a.key < b.key ∨ (a.key = b.key ∧ b.seq ≤ a.seq)))
    (current : Option K) :
    (it.nextFromInput current es).Pairwise (fun a b => a.key ≤ b.key) ∧
      ∀ out ∈ it.nextFromInput current es, ∃ e ∈ es, out.key = e.key := by
  induction es generalizing current with
  | nil => simp [nextFromInput]
  | cons e es ih =>
    obtain ⟨hhead, htail⟩ := List.pairwise_cons.mp hsorted
    have hlift : ∀ current', (it.nextFromInput current' es).Pairwise (fun a b => a.key ≤ b.key) ∧
        ∀ out ∈ it.nextFromInput current' es, ∃ e' ∈ e :: es, out.key = e'.key := by
      intro current'
      obtain ⟨hpair, hfrom⟩ := ih htail current'
      refine ⟨hpair, fun out hout => ?_⟩
      obtain ⟨e', he', hkey⟩ := hfrom out hout
      exact ⟨e', List.mem_cons_of_mem e he', hkey⟩
    unfold nextFromInput
    split
    · exact hlift current
    split
    · exact hlift (some e.key)
    · obtain ⟨hpair, hfrom⟩ := hlift (some e.key)
      refine ⟨List.pairwise_cons.mpr ⟨?_, hpair⟩, ?_⟩
      · intro out hout
        obtain ⟨e', he', hkey⟩ := (ih htail (some e.key)).2 out hout
        rw [key_prepareOutput, hkey]
        cases hhead e' he' with
        | inl h => exact h.le
        | inr h => exact h.1.le
      · intro out hout
        cases List.mem_cons.mp hout with
        | inl heq => exact ⟨e, List.mem_cons_self, by rw [heq, key_prepareOutput]⟩
        | inr hmem => exact hfrom out hmem

end CompactionIterator

namespace CompactionJob

variable (job : CompactionJob K V) (it : CompactionIterator K) (files : List (SstFile K V))

/-- The job compacts these files: the iterator has their tombstones, and what it emits is what
the subcompactions go through. -/
structure ReadsFrom : Prop where
  rangeDelAgg_eq : it.rangeDelAgg = job.inputTombstones
  entries_eq : (job.subCompactStates.flatMap fun s => s.entries) = it.emits files
  distinct : (files.flatMap fun f => f.points).Pairwise (fun a b => a.key = b.key → a.seq ≠ b.seq)

variable {job it files}

theorem ReadsFrom.mem_entries (h : job.ReadsFrom it files) {out : PointEntry K V} :
    (out ∈ job.subCompactStates.flatMap fun s => s.entries) ↔
      ∃ e, e.NewestIn (mergingIterator files) ∧ it.drops e = false ∧
        out = it.prepareOutput e := by
  rw [h.entries_eq, CompactionIterator.emits, mergingIterator,
    CompactionIterator.mem_nextFromInput (strictly_sorted_mergeEntries h.distinct) (by simp)]
  simp

/-- The value 7 of the key `3`, written at 9 into a file with a tombstone over it at 5. -/
def newerValueFile : SstFile Bytes ℕ :=
  ReadSystem.tombstoneFile [⟨[51], 9, .kTypeValue, 7⟩] (by simp) (by decide)

def bottommostIterator : CompactionIterator Bytes :=
  ⟨coveredJob.inputTombstones, fun _ => true, true⟩

theorem inputs_ne_coveredJob : coveredJob.inputs ≠ [] := coveredJob.inputs_ne

/-- The file is compacted to the bottommost level. -/
def newerValueJob : CompactionJob Bytes ℕ :=
  { coveredJob with
    subCompactStates := [⟨bottommostIterator.emits [newerValueFile], [⟨8, ([50], [52])⟩]⟩]
    inputs_ne := inputs_ne_coveredJob
    entries_sorted := by decide
    outputs_le := by decide }

end CompactionJob

end Spry
