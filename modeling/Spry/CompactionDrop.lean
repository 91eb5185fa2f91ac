import Spry.CompactionJob
import Spry.VersionGetMerge

/-!
# The skipped entries and the live snapshots

The scan of the job skips a value as soon as an input tombstone over its key is newer. It does
not look at the live snapshots. A snapshot between the value and every such tombstone reads the
value before the compaction and misses it afterwards; if there is no such snapshot, the reads at
the live snapshots stay what they were.
-/

namespace Spry

variable {K V : Type}

namespace ReadEnv

variable (env : ReadEnv V)

/-- An entry below the largest covering tombstone ends the read as if there were no more
entries. -/
theorem saveValues_below {ctx : GetContext V} (hctx : ctx.Reading) {e : PointEntry K V}
    (es : List (PointEntry K V)) (hseq : e.seq < ctx.maxCoveringTombstoneSeq) :
    (env.saveValues ctx (e :: es)).state.outcome = some (Version.finish env ctx) := by
  cases hctx with
  | inl hctx =>
    have hdecides : ¬ e.IsOperand ctx.maxCoveringTombstoneSeq := fun h => not_lt.mpr h.2 hseq
    rw [env.saveValues_of_decides es hdecides, saveValue, if_pos hseq,
      Version.finish_of_notFound hctx]
    simp [saveDeletion, hctx, GetState.outcome]
  | inr hctx => rw [env.saveValues_covered hctx es hseq, Version.finish_of_merge env hctx]

end ReadEnv

variable [LinearOrder K]

section Scan

variable {e : PointEntry K V} {rds : List (RangeTombstone K)}

theorem covers_of_flagDeleteCurrentEntry (h : flagDeleteCurrentEntry e rds = some true) :
    e.type = .kTypeValue ∧ ∃ t ∈ rds, t.Covers e.key ∧ e.seq < t.seq := by
  induction rds with
  | nil => simp [flagDeleteCurrentEntry] at h
  | cons rd rds ih =>
    unfold flagDeleteCurrentEntry at h
    split_ifs at h with hstart htype hseq hcov
    · cases h
    · cases h
    · exact ⟨not_not.mp htype, rd, List.mem_cons_self, ⟨hcov.1, hcov.2.1⟩, hcov.2.2⟩
    · obtain ⟨htype', t, ht, hrest⟩ := ih h
      exact ⟨htype', t, List.mem_cons_of_mem rd ht, hrest⟩

theorem not_lt_start {rd t : RangeTombstone K}
    (hsorted : (rd :: rds).Pairwise (fun a b => a.start ≤ b.start)) (ht : t ∈ rd :: rds)
    (hcov : t.Covers e.key) : ¬ e.key < rd.start := by
  apply not_lt.mpr
  cases List.mem_cons.mp ht with
  | inl heq =>
    rw [← heq]
    exact hcov.1
  | inr hmem => exact ((List.pairwise_cons.mp hsorted).1 t hmem).trans hcov.1

/-- The early exit on a larger start loses nothing, since the tombstones are sorted. -/
theorem flagDeleteCurrentEntry_of_covers
    (hsorted : rds.Pairwise (fun a b => a.start ≤ b.start)) (hseq : ∀ t ∈ rds, e.seq ≠ t.seq)
    (htype : e.type = .kTypeValue) (hcov : ∃ t ∈ rds, t.Covers e.key ∧ e.seq < t.seq) :
    flagDeleteCurrentEntry e rds = some true := by
  induction rds with
  | nil =>
    obtain ⟨t, ht, _⟩ := hcov
    cases ht
  | cons rd rds ih =>
    have hrest := (List.pairwise_cons.mp hsorted).2
    obtain ⟨t, ht, htcov, hlt⟩ := hcov
    rw [flagDeleteCurrentEntry, if_neg (not_lt_start hsorted ht htcov),
      if_neg (not_not.mpr htype), if_neg (hseq rd List.mem_cons_self)]
    by_cases hrd : rd.start ≤ e.key ∧ e.key < rd.stop ∧ e.seq < rd.seq
    · rw [if_pos hrd]
    · rw [if_neg hrd]
      apply ih hrest (fun u hu => hseq u (List.mem_cons_of_mem rd hu))
      cases List.mem_cons.mp ht with
      | inl heq =>
        rw [heq] at htcov hlt
        exact absurd ⟨htcov.1, htcov.2, hlt⟩ hrd
      | inr hmem => exact ⟨t, hmem, htcov, hlt⟩

theorem flagDeleteCurrentEntry_eq_true_iff
    (hsorted : rds.Pairwise (fun a b => a.start ≤ b.start)) (hseq : ∀ t ∈ rds, e.seq ≠ t.seq) :
    flagDeleteCurrentEntry e rds = some true ↔
      e.type = .kTypeValue ∧ ∃ t ∈ rds, t.Covers e.key ∧ e.seq < t.seq := by
  constructor
  · exact covers_of_flagDeleteCurrentEntry
  · intro h
    exact flagDeleteCurrentEntry_of_covers hsorted hseq h.1 h.2

theorem seq_lt_of_flagDeleteCurrentEntry_false
    (hsorted : rds.Pairwise (fun a b => a.start ≤ b.start)) (htype : e.type = .kTypeValue)
    (h : flagDeleteCurrentEntry e rds = some false) :
    ∀ t ∈ rds, t.Covers e.key → t.seq < e.seq := by
  induction rds with
  | nil => simp
  | cons rd rds ih =>
    have hrest := (List.pairwise_cons.mp hsorted).2
    intro t ht hcov
    rw [flagDeleteCurrentEntry, if_neg (not_lt_start hsorted ht hcov),
      if_neg (not_not.mpr htype)] at h
    split_ifs at h with hseq hrd
    · cases h
    cases List.mem_cons.mp ht with
    | inl heq =>
      rw [heq] at hcov ⊢
      have hnot : ¬ e.seq < rd.seq := fun hlt => hrd ⟨hcov.1, hcov.2, hlt⟩
      omega
    | inr hmem => exact ih hrest h t hmem hcov

theorem flagDeleteCurrentEntry_eq_false {b : Bool}
    (hnone : ∀ t ∈ rds, t.Covers e.key → t.seq < e.seq)
    (h : flagDeleteCurrentEntry e rds = some b) : b = false := by
  cases b with
  | false => rfl
  | true =>
    obtain ⟨_, t, ht, hcov, hlt⟩ := covers_of_flagDeleteCurrentEntry h
    have := hnone t ht hcov
    omega

end Scan

namespace SstFile

def filterPoints (f : SstFile K V) (keep : PointEntry K V → Bool) : SstFile K V :=
  { f with
    points := f.points.filter keep
    sorted := f.sorted.filter keep
    points_within := fun p hp => f.points_within p (List.mem_filter.mp hp).1 }

theorem visible_filterPoints (f : SstFile K V) (keep : PointEntry K V → Bool) (k : K)
    (snapshot : ℕ) :
    (f.filterPoints keep).visible k snapshot = (f.visible k snapshot).filter keep := by
  simp only [visible, filterPoints, List.filter_filter, Bool.and_comm]

end SstFile

namespace Version

variable {env : ReadEnv V} {k : K} {snapshot : ℕ}

def resume (env : ReadEnv V) (k : K) (snapshot : ℕ) (rest : List (ℕ × SstFile K V))
    (ctx : GetContext V) : Outcome V :=
  match ctx.state.outcome with
  | some outcome => outcome
  | none => readFiles env k snapshot ctx rest

theorem resume_saveValues_below {ctx : GetContext V} (hctx : ctx.Reading)
    {older : List (PointEntry K V)} (holder : ∀ e ∈ older, e.seq < ctx.maxCoveringTombstoneSeq)
    (rest : List (ℕ × SstFile K V)) :
    resume env k snapshot rest (env.saveValues ctx older) = resume env k snapshot rest ctx := by
  cases older with
  | nil => rfl
  | cons e older =>
    have hlt := holder e List.mem_cons_self
    simp only [resume, env.saveValues_below hctx older hlt, GetContext.outcome_of_reading hctx]
    exact (readFiles_of_covered (Nat.zero_lt_of_lt hlt) rest).symm

theorem resume_saveValues_append {ctx : GetContext V} (hctx : ctx.Reading)
    (above : List (PointEntry K V)) {older : List (PointEntry K V)}
    (holder : ∀ e ∈ older, e.seq < ctx.maxCoveringTombstoneSeq)
    (rest : List (ℕ × SstFile K V)) :
    resume env k snapshot rest (env.saveValues ctx (above ++ older)) =
      resume env k snapshot rest (env.saveValues ctx above) := by
  induction above generalizing ctx with
  | nil => exact resume_saveValues_below hctx holder rest
  | cons e above ih =>
    by_cases he : e.IsOperand ctx.maxCoveringTombstoneSeq
    · rw [List.cons_append, ReadEnv.saveValues, ReadEnv.saveValues,
        env.saveValue_operand he]
      exact ih (Or.inr rfl) holder
    · rw [List.cons_append, env.saveValues_of_decides _ he, env.saveValues_of_decides _ he]

/-- Leaving out entries that the tombstones of their file hide at the snapshot changes no read
at the snapshot. -/
theorem readFiles_filterPoints {ctx : GetContext V} (hctx : ctx.Reading) (level : ℕ)
    (f : SstFile K V) (keep : PointEntry K V → Bool) (rest : List (ℕ × SstFile K V))
    (hhidden : ∀ e ∈ f.visible k snapshot, keep e = false →
      e.seq < f.maxCoveringTombstoneSeqnum k snapshot) :
    readFiles env k snapshot ctx ((level, f.filterPoints keep) :: rest) =
      readFiles env k snapshot ctx ((level, f) :: rest) := by
  by_cases hmax : 0 < ctx.maxCoveringTombstoneSeq
  · rw [readFiles_of_covered hmax, readFiles_of_covered hmax]
  obtain hzero : ctx.maxCoveringTombstoneSeq = 0 := by omega
  let m := f.maxCoveringTombstoneSeqnum k snapshot
  let ctx' : GetContext V := { ctx with maxCoveringTombstoneSeq := m }
  have hstep : ∀ g : SstFile K V, g.tombstones = f.tombstones →
      readFiles env k snapshot ctx ((level, g) :: rest) =
        resume env k snapshot rest (env.saveValues ctx' (g.visible k snapshot)) := by
    intro g hg
    have hm : g.maxCoveringTombstoneSeqnum k snapshot = m := by
      simp only [SstFile.maxCoveringTombstoneSeqnum, hg, m]
    simp only [readFiles, ReadEnv.tableGet, hm, hzero, Nat.zero_max]
    rfl
  have habove : (f.above k snapshot m).filter keep = f.above k snapshot m := by
    rw [List.filter_eq_self]
    intro e he
    obtain ⟨hvis, hle⟩ := SstFile.mem_above.mp he
    by_contra hkeep
    have := hhidden e hvis (by simpa using hkeep)
    omega
  have hbelow : ∀ e ∈ (f.visible k snapshot).filter (fun e => e.seq < m),
      e.seq < ctx'.maxCoveringTombstoneSeq := by
    intro e he
    simpa using (List.mem_filter.mp he).2
  rw [hstep f rfl, hstep (f.filterPoints keep) rfl, f.visible_filterPoints,
    @SstFile.visible_eq_above_append K V _ f k snapshot m, List.filter_append, habove,
    resume_saveValues_append (by exact hctx) _ hbelow, resume_saveValues_append (by exact hctx)]
  intro e he
  exact hbelow e (List.mem_filter.mp he).1

end Version

namespace CompactionJob

variable (job : CompactionJob K V)

theorem sorted_rangeDelVecSelf :
    job.rangeDelVecSelf.Pairwise (fun a b => a.start ≤ b.start) :=
  sorted_sortTombstones _

theorem mem_inputTombstones_of_mem_rangeDelVecSelf {t : RangeTombstone K}
    (ht : t ∈ job.rangeDelVecSelf) : t ∈ job.inputTombstones := by
  rw [rangeDelVecSelf, mem_sortTombstones] at ht
  simp only [List.mem_flatMap] at ht
  obtain ⟨l, hl, f, hf, htf⟩ := ht
  simp only [inputTombstones, CompactionLevel.tombstones, List.mem_flatMap]
  refine ⟨l, hl, f, hf, ?_⟩
  split_ifs at htf
  · exact htf
  · cases htf

def HiddenFromSnapshots (snapshots : List ℕ) (e : PointEntry K V) : Prop :=
  ∀ s ∈ snapshots, e.seq ≤ s →
    ∃ t ∈ job.inputTombstones, t.Covers e.key ∧ e.seq < t.seq ∧ t.seq ≤ s

def SafelyCovered (snapshots : List ℕ) (e : PointEntry K V) : Prop :=
  ∃ t ∈ job.inputTombstones, t.Covers e.key ∧ e.seq < t.seq ∧
    ∀ s ∈ snapshots, ¬ (e.seq ≤ s ∧ s < t.seq)

variable {job}

theorem SafelyCovered.hiddenFromSnapshots {snapshots : List ℕ} {e : PointEntry K V}
    (h : job.SafelyCovered snapshots e) : job.HiddenFromSnapshots snapshots e := by
  obtain ⟨t, ht, hcov, hlt, hnone⟩ := h
  intro s hs hle
  refine ⟨t, ht, hcov, hlt, ?_⟩
  have := hnone s hs
  omega

theorem HiddenFromSnapshots.safelyCovered {snapshots : List ℕ} {e : PointEntry K V}
    (h : job.HiddenFromSnapshots snapshots e)
    (hcov : ∃ t ∈ job.inputTombstones, t.Covers e.key ∧ e.seq < t.seq) :
    job.SafelyCovered snapshots e := by
  obtain ⟨t₀, ht₀⟩ := hcov
  obtain ⟨t, ⟨ht, htcov, hlt⟩, hmin⟩ := Set.exists_min_image
    {t | t ∈ job.inputTombstones ∧ t.Covers e.key ∧ e.seq < t.seq} (fun t => t.seq)
    ((List.finite_toSet job.inputTombstones).subset fun t ht => ht.1) ⟨t₀, ht₀⟩
  refine ⟨t, ht, htcov, hlt, ?_⟩
  intro s hs hbetween
  obtain ⟨u, hu, hucov, hult, hus⟩ := h s hs hbetween.1
  have := hmin u ⟨hu, hucov, hult⟩
  omega

/-- The value 7 of the key `3`, written at 2, in a level-0 file with a tombstone over it at 5. -/
def coveredEntry : PointEntry Bytes ℕ := ⟨[51], 2, .kTypeValue, 7⟩

def coveredJob : CompactionJob Bytes ℕ :=
  { rdfTypes := [.plrdfStringKey]
    usingStringKey := true
    stoll := Bytes.stoll
    inputs :=
      [{ level := 0
         files :=
          [{ number := 7
             smallest := [50]
             largest := [52]
             tombstones := [⟨[50], [52], 5, ReadSystem.tombstoneSeq_pos⟩]
             hasTableReader := true
             smallest_le_largest := by decide
             nonempty := ReadSystem.tombstone_nonempty
             tombstones_within := ReadSystem.tombstone_within }] }]
    outputLevel := 1
    subCompactStates := [⟨[coveredEntry], [⟨8, ([50], [52])⟩]⟩]
    inputs_ne := by simp
    entries_sorted := by simp
    outputs_sorted := by simp
    outputs_le := by decide }

/-- A file with the emitted entries and the input tombstones: if no live snapshot separates a
skipped entry from the tombstones that hide it, leaving the skipped entries out changes no read
at a live snapshot. -/
theorem readFiles_of_safelyCovered (job : CompactionJob K V) (snapshots : List ℕ)
    (f : SstFile K V) (htombs : ∀ t ∈ job.inputTombstones, t ∈ f.tombstones)
    (hsafe : ∀ e ∈ f.points, flagDeleteCurrentEntry e job.rangeDelVecSelf = some true →
      job.SafelyCovered snapshots e)
    (env : ReadEnv V) (key : K) (snapshot : ℕ) (hsnapshot : snapshot ∈ snapshots) (level : ℕ)
    (rest : List (ℕ × SstFile K V)) :
    Version.readFiles env key snapshot {}
        ((level, f.filterPoints fun e =>
          flagDeleteCurrentEntry e job.rangeDelVecSelf ≠ some true) :: rest) =
      Version.readFiles env key snapshot {} ((level, f) :: rest) := by
  apply Version.readFiles_filterPoints (Or.inl rfl)
  intro e he hskip
  obtain ⟨hpoint, hkey, hle⟩ := SstFile.mem_visible.mp he
  obtain ⟨t, ht, hcov, hlt, hts⟩ :=
    (hsafe e hpoint (by simpa using hskip)).hiddenFromSnapshots snapshot hsnapshot hle
  rw [hkey] at hcov
  exact hlt.trans_le (SstFile.seq_le_maxCovering (htombs t ht) hcov hts)

end CompactionJob

end Spry
