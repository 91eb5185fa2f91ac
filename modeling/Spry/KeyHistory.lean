import Spry.BundleCommute

/-!
# The history of a key in the filters

On a level below the top, a delta treats every key on its own: a source file that lists the key
clears it, an output range covers it, and a sampled key that is covered is spared. So the verdicts
of the string-key filter and of its split form after any run are two readings of one automaton of
the key, and jobs that work on different keys may be committed in any order.
-/

namespace Spry

open HalfOpen PLRDF

variable {K : Type} [LinearOrder K]

/-- What the filters know of a key on a level. -/
inductive KeyState where
  | clear
  | covered
  | spared
  deriving DecidableEq, Repr

/-- The state without the split keys. -/
def KeyState.unsplit : KeyState → KeyState
  | .spared => .covered
  | s => s

theorem KeyState.unsplit_ite {c₁ c₂ c₃ : Prop} [Decidable c₁] [Decidable c₂] [Decidable c₃]
    (s : KeyState) :
    (if c₁ ∧ c₂ ∧ c₃ ∧ s ≠ .clear then .spared else s).unsplit = s.unsplit := by
  split_ifs with h
  · cases s with
    | clear => exact absurd rfl h.2.2.2
    | covered => rfl
    | spared => rfl
  · rfl

/-- What a delta makes of a key on a level below the top. -/
def RDFUpdateMetadata.next (d : RDFUpdateMetadata K) (level : ℕ) (key : K) (s : KeyState) :
    KeyState :=
  let kept := if key ∈ listedAt d.splitPlrdfStringkeyCompactionDelta level then .clear else s
  match d.type, d.splitPlrdfStringkeyCompactionDelta with
  | .kFlush, _ => s
  | .kCompactionDirectRemoved, _ => kept
  | _, [] => s
  | _, e :: _ =>
    let shifted :=
      if level = e.olevel ∧ key ∈ coverage d.rangetombstonesOnOutputLevel then .covered else kept
    if level = e.olevel ∧ d.splitFlag = true ∧ key ∈ d.splitSampledKeysStr ∧ shifted ≠ .clear then
      .spared
    else shifted

def keyState (deltas : List (RDFUpdateMetadata K)) (level : ℕ) (key : K) : KeyState :=
  deltas.foldl (fun s d => d.next level key s) .clear

namespace PLRDF

variable {f g : PLRDF K} {level : ℕ} {key : K} {s : KeyState}

/-- The state of a key in a filter. -/
structure Shows (f : PLRDF K) (level : ℕ) (key : K) (s : KeyState) : Prop where
  wellFormed : f.WellFormed
  covered : key ∈ f.levelCoverage level ↔ s ≠ .clear
  spared : key ∈ f.getSplitKeys level ↔ s = .spared

theorem shows_empty : (empty : PLRDF K).Shows level key .clear := by
  refine ⟨wellFormed_empty, ?_, ?_⟩
  · simp [levelCoverage, getLevelRanges, empty]
  · simp [getSplitKeys, empty]

namespace Shows

variable (hs : f.Shows level key s)
include hs

theorem isEntryAlive_iff : f.isEntryAlive level key = true ↔ s ≠ .covered := by
  rw [hs.wellFormed.isEntryAlive_iff, hs.covered, hs.spared]
  cases s with
  | clear => simp
  | covered => simp
  | spared => simp

theorem applyFlush {d : FlushDelta K} (h : f.applyFlush d = some g) : g.Shows level key s := by
  obtain ⟨hg, hcov⟩ := hs.wellFormed.applyFlush h
  refine ⟨hg, by rw [hcov, hs.covered], ?_⟩
  rw [← hs.spared]
  unfold PLRDF.applyFlush insertRangeDeleteToLevel0 at h
  split_ifs at h
  · rw [← Option.some.inj h]
  · rw [← Option.some.inj h]
    rfl

theorem cleared (hg : g.WellFormed) {entries : List (LevelFiles K)}
    (hcov : g.levelCoverage level = f.levelCoverage level \ listedAt entries level)
    (hkeys : KeepsCovered f g) :
    g.Shows level key (if key ∈ listedAt entries level then .clear else s) := by
  refine ⟨hg, ?_, ?_⟩
  · rw [hcov]
    split_ifs with hlisted
    · simp [hlisted]
    · simp [hlisted, hs.covered]
  · rw [hkeys level key, hcov]
    split_ifs with hlisted
    · simp [hlisted]
    · simp only [Set.mem_sdiff, hs.covered, hs.spared, hlisted, not_false_eq_true, and_true]
      exact and_iff_left_of_imp fun h => by simp [h]

theorem foldlM_deleteRDF {entries : List (LevelFiles K)} (hlevel : level ≠ 0)
    (hwf : ∀ e ∈ entries, ∀ x ∈ e.boundaries, x.1 ≤ x.2)
    (h : entries.foldlM PLRDF.deleteRDFAssociatedWithFilesAtCurrentLevel f = some g) :
    g.Shows level key (if key ∈ listedAt entries level then .clear else s) := by
  induction entries generalizing f s with
  | nil =>
    obtain rfl := Option.some.inj h
    simpa [listedAt] using hs
  | cons e es ih =>
    obtain ⟨mid, hmid, hrest⟩ := Option.bind_eq_some_iff.mp h
    obtain ⟨hhead, htail⟩ := List.forall_mem_cons.mp hwf
    obtain ⟨hmidwf, hkeeps⟩ :=
      hs.wellFormed.deleteRDFAssociatedWithFilesAtCurrentLevel hhead hmid
    have hcov := levelCoverage_deleteRDF hs.wellFormed.ordered hhead hmid hlevel
    have hlast := ih (hs.cleared hmidwf hcov hkeeps) htail hrest
    have hlisted : key ∈ listedAt (e :: es) level ↔
        key ∈ listedAt es level ∨ key ∈ listedAt [e] level := by
      simp [listedAt, or_comm]
    simp only [hlisted]
    by_cases h₁ : key ∈ listedAt es level
    · simpa [h₁] using hlast
    · simpa [h₁] using hlast

theorem shiftRDFToOutputLevel {e : LevelFiles K} {es : List (LevelFiles K)} {out : List (K × K)}
    (hlevel : level ≠ 0) (hout : Ascends out)
    (hwf : ∀ e' ∈ e :: es, ∀ x ∈ e'.boundaries, x.1 ≤ x.2)
    (h : f.shiftRDFToOutputLevel (e :: es) out = some g) :
    g.Shows level key (if level = e.olevel ∧ key ∈ coverage out then .covered
      else if key ∈ listedAt (e :: es) level then .clear else s) := by
  obtain ⟨hg, mid, hremoved, hcov, hkeys⟩ := hs.wellFormed.shiftRDFToOutputLevel hout hwf h
  have hmid : key ∈ mid.levelCoverage level ↔ s ≠ .clear ∧ key ∉ listedAt (e :: es) level := by
    rw [hremoved.deeper level hlevel, Set.mem_sdiff, hs.covered]
  by_cases hnew : level = e.olevel ∧ key ∈ coverage out
  · rw [if_pos hnew]
    refine ⟨hg, ?_, ?_⟩
    · simp [hcov level, if_pos hnew.1, hnew.2]
    · exact iff_of_false (fun hk => ((hkeys level key).mp hk).2 hnew.1 hnew.2) (by simp)
  · rw [if_neg hnew]
    have hkept : key ∈ g.levelCoverage level ↔ key ∈ mid.levelCoverage level := by
      rw [hcov level]
      split_ifs with holevel
      · exact or_iff_left fun hk => hnew ⟨holevel, hk⟩
      · rfl
    refine ⟨hg, ?_, ?_⟩
    · rw [hkept, hmid]
      split_ifs with hlisted
      · simp [hlisted]
      · simp [hlisted]
    · rw [hkeys level key, hs.spared, hmid, and_iff_left fun holevel hk => hnew ⟨holevel, hk⟩]
      split_ifs with hlisted
      · simp [hlisted]
      · exact and_iff_left_of_imp fun h => by simp [h, hlisted]

theorem splitRangesOnLevel (n : ℕ) {keys : List K} (hkeys : keys.Pairwise (· ≤ ·)) :
    (f.splitRangesOnLevel n keys).Shows level key
      (if level = n ∧ key ∈ keys ∧ s ≠ .clear then .spared else s) := by
  obtain ⟨hg, hcov, hmem⟩ := hs.wellFormed.splitRangesOnLevel n hkeys
  refine ⟨hg, ?_, ?_⟩
  · rw [hcov, hs.covered]
    split_ifs with h
    · simp [h.2.2]
    · rfl
  · by_cases hn : level = n
    · subst hn
      rw [hmem key, hs.covered, hs.spared]
      split_ifs with h
      · exact iff_of_true ⟨Or.inr h.2.1, h.2.2⟩ rfl
      · constructor
        · rintro ⟨hspared | hkey, hne⟩
          · exact hspared
          · exact absurd ⟨rfl, hkey, hne⟩ h
        · intro hspared
          exact ⟨Or.inl hspared, by simp [hspared]⟩
    · rw [getSplitKeys_splitRangesOnLevel_of_ne hn, hs.spared, if_neg fun h => hn h.1]

end Shows

end PLRDF

namespace VersionRDFBundle

variable {stoll : K → Option ℤ} {b b' : VersionRDFBundle K} {d : RDFUpdateMetadata K} {level : ℕ}
  {key : K} {s : KeyState}

/-- The state of a key in the string-key filter and in its split form. -/
structure Tracks (b : VersionRDFBundle K) (level : ℕ) (key : K) (s : KeyState) : Prop where
  split : b.splitPlrdfStringkey.Shows level key s
  plain : b.plrdfStringkey.Shows level key s.unsplit

/-- A delta whose two string-key parts list the same files, as jobs build them when both filters
are on. -/
structure TwinDelta (d : RDFUpdateMetadata K) : Prop extends ProperDelta d where
  same : d.plrdfStringkeyCompactionDelta = d.splitPlrdfStringkeyCompactionDelta

theorem next_of_cons (hd : d.IsCompaction) {e : LevelFiles K} {es : List (LevelFiles K)}
    (hentries : d.splitPlrdfStringkeyCompactionDelta = e :: es) {shifted : KeyState}
    (hshifted : shifted = if level = e.olevel ∧ key ∈ coverage d.rangetombstonesOnOutputLevel then
      .covered else if key ∈ listedAt (e :: es) level then .clear else s) :
    d.next level key s =
      if level = e.olevel ∧ d.splitFlag = true ∧ key ∈ d.splitSampledKeysStr ∧ shifted ≠ .clear then
        .spared
      else shifted := by
  subst hshifted
  rcases hd with htype | htype
  · simp only [RDFUpdateMetadata.next, htype, hentries]
  · simp only [RDFUpdateMetadata.next, htype, hentries]

theorem next_of_nil (hd : d.IsCompaction) (hentries : d.splitPlrdfStringkeyCompactionDelta = []) :
    d.next level key s = s := by
  rcases hd with htype | htype
  · simp only [RDFUpdateMetadata.next, htype, hentries]
  · simp only [RDFUpdateMetadata.next, htype, hentries]

theorem tracks_applyCompactionDelta (hs : Tracks b level key s) (hlevel : level ≠ 0)
    (hd : TwinDelta d) (htype : d.IsCompaction) (h : b.applyCompactionDelta stoll d = some b') :
    Tracks b' level key (d.next level key s) := by
  have hwf := hd.boundaries
  have hsplitShift := (compactionParts h).splitPlrdfStringkey
  have hplainShift := (compactionParts h).plrdfStringkey
  rw [hd.same] at hplainShift
  cases hentries : d.splitPlrdfStringkeyCompactionDelta with
  | nil =>
    rw [hentries] at hsplitShift hplainShift
    rw [next_of_nil htype hentries]
    exact ⟨Option.some.inj hsplitShift ▸ hs.split, Option.some.inj hplainShift ▸ hs.plain⟩
  | cons e es =>
    have hout := hd.ascends hentries h
    rw [hentries] at hsplitShift hplainShift hwf
    obtain ⟨mid, hmid, hlast⟩ := Option.bind_eq_some_iff.mp hsplitShift
    have hmidShows := hs.split.shiftRDFToOutputLevel hlevel hout hwf hmid
    have hplainShows := hs.plain.shiftRDFToOutputLevel hlevel hout hwf hplainShift
    generalize hshifted : (if level = e.olevel ∧ key ∈ coverage d.rangetombstonesOnOutputLevel then
      KeyState.covered else if key ∈ listedAt (e :: es) level then .clear else s) = shifted
      at hmidShows
    rw [next_of_cons htype hentries hshifted.symm]
    constructor
    · simp only [Option.pure_def, Option.some.injEq] at hlast
      rw [← hlast]
      by_cases hflag : d.splitFlag = true ∧ d.splitSampledKeysStr ≠ []
      · rw [if_pos hflag]
        simpa only [hflag.1, true_and] using hmidShows.splitRangesOnLevel e.olevel hd.sampled
      · rw [if_neg hflag, if_neg fun h => hflag ⟨h.2.1, List.ne_nil_of_mem h.2.2.1⟩]
        exact hmidShows
    · -- the split does not show without the split keys
      rw [KeyState.unsplit_ite, ← hshifted]
      split_ifs at hplainShows ⊢
      · exact hplainShows
      · exact hplainShows
      · exact hplainShows

theorem tracks_applyDelta (hs : Tracks b level key s) (hlevel : level ≠ 0) (hd : TwinDelta d)
    (h : b.applyDelta stoll d = some b') : Tracks b' level key (d.next level key s) := by
  rcases applyDelta_cases h with ⟨htype, h⟩ | ⟨htype, h⟩ | ⟨htype, h⟩
  · have hparts := flushParts h
    simp only [RDFUpdateMetadata.next, htype]
    exact ⟨hs.split.applyFlush hparts.splitPlrdfStringkey,
      hs.plain.applyFlush hparts.plrdfStringkey⟩
  · exact tracks_applyCompactionDelta hs hlevel hd htype h
  · have hparts := removalParts h
    have hsplit := hs.split.foldlM_deleteRDF hlevel hd.boundaries hparts.splitPlrdfStringkey
    have hplain := hs.plain.foldlM_deleteRDF hlevel (hd.same ▸ hd.boundaries)
      hparts.plrdfStringkey
    rw [hd.same] at hplain
    simp only [RDFUpdateMetadata.next, htype]
    refine ⟨hsplit, ?_⟩
    split_ifs at hplain ⊢
    · exact hplain
    · exact hplain

theorem tracks_foldlM {deltas : List (RDFUpdateMetadata K)}
    (hdeltas : ∀ d ∈ deltas, TwinDelta d) (hlevel : level ≠ 0) (hs : Tracks b level key s)
    (h : deltas.foldlM (applyDelta stoll) b = some b') :
    Tracks b' level key (deltas.foldl (fun s d => d.next level key s) s) := by
  induction deltas generalizing b s with
  | nil => exact Option.some.inj h ▸ hs
  | cons d deltas ih =>
    obtain ⟨mid, hmid, hrest⟩ := Option.bind_eq_some_iff.mp h
    obtain ⟨hd, hdeltas⟩ := List.forall_mem_cons.mp hdeltas
    exact ih hdeltas (tracks_applyDelta hs hlevel hd hmid) hrest

theorem tracks_keyState {deltas : List (RDFUpdateMetadata K)}
    (hdeltas : ∀ d ∈ deltas, TwinDelta d) (hlevel : level ≠ 0)
    (hb : deltas.foldlM (applyDelta stoll) empty = some b) :
    Tracks b level key (keyState deltas level key) :=
  tracks_foldlM hdeltas hlevel ⟨shows_empty, shows_empty⟩ hb

/-- After any run of deltas the split filter calls a key dead on a level if the automaton has it
covered, and the filter without split keys also if it has it spared. -/
theorem isEntryAlive_iff_keyState {deltas : List (RDFUpdateMetadata K)}
    (hdeltas : ∀ d ∈ deltas, TwinDelta d)
    (hb : deltas.foldlM (applyDelta stoll) empty = some b) {level : ℕ} (hlevel : level ≠ 0)
    (key : K) :
    (b.splitPlrdfStringkey.isEntryAlive level key = true ↔
        keyState deltas level key ≠ .covered) ∧
      (b.plrdfStringkey.isEntryAlive level key = true ↔ keyState deltas level key = .clear) := by
  have htracks : Tracks b level key _ := tracks_keyState hdeltas hlevel hb
  refine ⟨htracks.split.isEntryAlive_iff, ?_⟩
  rw [htracks.plain.isEntryAlive_iff]
  cases keyState deltas level key with
  | clear => simp [KeyState.unsplit]
  | covered => simp [KeyState.unsplit]
  | spared => simp [KeyState.unsplit]

/-- The delta with the part for the filter without split keys filled in. -/
def twin (d : RDFUpdateMetadata K) : RDFUpdateMetadata K :=
  { d with plrdfStringkeyCompactionDelta := d.splitPlrdfStringkeyCompactionDelta }

theorem TwinDelta.of_properDelta (hd : ProperDelta d) : TwinDelta (twin d) :=
  ⟨⟨⟨hd.boundaries, hd.tombstones, hd.outputs⟩, hd.sampled⟩, rfl⟩

theorem isEntryAlive_iff_keyState_samples : ∃ b : VersionRDFBundle ℕ,
    [twin sampleSplitDelta, twin sampleSplitDeltaDown].foldlM (applyDelta fun _ => none) empty =
        some b ∧
      b.splitPlrdfStringkey.isEntryAlive 2 3 = true ∧
      ¬ b.plrdfStringkey.isEntryAlive 2 3 = true := by
  have hrun : ([twin sampleSplitDelta, twin sampleSplitDeltaDown].foldlM
      (applyDelta fun _ => none) empty).isSome = true := by decide
  obtain ⟨b, hb⟩ := Option.isSome_iff_exists.mp hrun
  have hdeltas : ∀ d ∈ [twin sampleSplitDelta, twin sampleSplitDeltaDown], TwinDelta d := by
    simp only [List.forall_mem_cons]
    exact ⟨.of_properDelta (properDelta_samples.1 _ (by simp)),
      .of_properDelta properDelta_samples.2, by simp⟩
  obtain ⟨hsplit, hplain⟩ := isEntryAlive_iff_keyState hdeltas hb (by decide : 2 ≠ 0) 3
  exact ⟨b, hb, hsplit.mpr (by decide), fun h => absurd (hplain.mp h) (by decide)⟩

section Schedules

variable {before jobs jobs' : List (RDFUpdateMetadata K)}

theorem next_of_flush (hd : d.type = .kFlush) : d.next level key s = s := by
  simp only [RDFUpdateMetadata.next, hd]

theorem next_eq_self (hd : JobDelta d) (hkey : key ∉ d.reach) : d.next level key s = s := by
  have hlisted : key ∉ listedAt d.splitPlrdfStringkeyCompactionDelta level := by
    rintro ⟨e, he, _, hcov⟩
    exact RDFUpdateMetadata.notMem_coverage_of_notMem_reach hkey e he hcov
  have hout : key ∉ coverage d.rangetombstonesOnOutputLevel := fun h => hkey (Or.inr h)
  have hsampled : key ∉ d.splitSampledKeysStr := fun h => hkey (Or.inl (hd.fromInputs key h))
  simp only [RDFUpdateMetadata.next, hlisted, hout, hsampled, if_false, and_false, false_and]
  split
  · rfl
  · rfl
  · rfl
  · rfl

theorem Independent.next_comm {d₁ d₂ : RDFUpdateMetadata K} (h : Independent d₁ d₂)
    (hd₁ : JobDelta d₁) (hd₂ : JobDelta d₂) (s : KeyState) :
    d₂.next level key (d₁.next level key s) = d₁.next level key (d₂.next level key s) := by
  cases h with
  | flushFirst h₁ _ _ => rw [next_of_flush h₁, next_of_flush h₁]
  | flushSecond _ h₂ _ => rw [next_of_flush h₂, next_of_flush h₂]
  | compactions _ _ hhull =>
    by_cases hkey : key ∈ d₁.reach
    · have haway : key ∉ d₂.reach := fun hk => Set.disjoint_left.mp hhull
        (d₁.reach_subset_hull hkey) (d₂.reach_subset_hull hk)
      rw [next_eq_self hd₂ haway, next_eq_self hd₂ haway]
    · rw [next_eq_self hd₁ hkey, next_eq_self hd₁ hkey]

theorem independent_symm {d₁ d₂ : RDFUpdateMetadata K} (h : Independent d₁ d₂) :
    Independent d₂ d₁ := by
  cases h with
  | flushFirst h₁ h₂ hname => exact .flushSecond h₂ h₁ hname
  | flushSecond h₁ h₂ hname => exact .flushFirst h₂ h₁ hname
  | compactions h₁ h₂ hhull => exact .compactions h₂ h₁ hhull.symm

instance : Std.Symm (Independent (K := K)) := ⟨fun _ _ => independent_symm⟩

theorem keyState_of_perm (hjobs : ∀ d ∈ jobs, JobDelta d)
    (hindependent : jobs.Pairwise Independent) (hperm : jobs.Perm jobs')
    (after : List (RDFUpdateMetadata K)) :
    keyState (before ++ jobs ++ after) level key =
      keyState (before ++ jobs' ++ after) level key := by
  have hcomm : ∀ d₁ ∈ jobs, ∀ d₂ ∈ jobs, ∀ s, d₂.next level key (d₁.next level key s) =
      d₁.next level key (d₂.next level key s) := by
    intro d₁ h₁ d₂ h₂ s
    by_cases heq : d₁ = d₂
    · rw [heq]
    · exact (hindependent.forall h₁ h₂ heq).next_comm (hjobs d₁ h₁) (hjobs d₂ h₂) s
  simp only [keyState, List.foldl_append]
  rw [hperm.foldl_eq' hcomm]

/-- Whether a flush or a compaction exits does not depend on the filters. -/
theorem exists_applyDelta (hd : d.type = .kFlush ∨ d.IsCompaction)
    (h : b.applyDelta stoll d = some b') (c : VersionRDFBundle K) :
    ∃ y, c.applyDelta stoll d = some y := by
  rcases hd with hd | hd
  · rw [applyDelta_of_flush hd] at h ⊢
    exact exists_applyFlushDelta h c
  · rw [applyDelta_of_isCompaction hd] at h ⊢
    exact exists_applyCompactionDelta h c

theorem exists_applyDelta_of_mem (hjobs : ∀ d ∈ jobs, d.type = .kFlush ∨ d.IsCompaction)
    (h : jobs.foldlM (applyDelta stoll) b = some b') :
    ∀ d ∈ jobs, ∀ c : VersionRDFBundle K, ∃ y, c.applyDelta stoll d = some y := by
  induction jobs generalizing b with
  | nil => simp
  | cons d jobs ih =>
    obtain ⟨mid, hmid, hrest⟩ := Option.bind_eq_some_iff.mp h
    obtain ⟨hd, hjobs⟩ := List.forall_mem_cons.mp hjobs
    exact List.forall_mem_cons.mpr ⟨exists_applyDelta hd hmid, ih hjobs hrest⟩

theorem exists_foldlM_applyDelta
    (hjobs : ∀ d ∈ jobs, ∀ c : VersionRDFBundle K, ∃ y, c.applyDelta stoll d = some y)
    (c : VersionRDFBundle K) : ∃ y, jobs.foldlM (applyDelta stoll) c = some y := by
  induction jobs generalizing c with
  | nil => exact ⟨c, rfl⟩
  | cons d jobs ih =>
    obtain ⟨hd, hjobs⟩ := List.forall_mem_cons.mp hjobs
    obtain ⟨mid, hmid⟩ := hd c
    obtain ⟨y, hy⟩ := ih hjobs mid
    exact ⟨y, by rw [List.foldlM_cons, hmid]; exact hy⟩

/-- Jobs that are independent of each other may be committed in any order: the same jobs return,
and whatever is committed after them, both filters give the same verdicts. -/
theorem isEntryAlive_of_perm (hbefore : ∀ d ∈ before, TwinDelta d)
    (hjobs : ∀ d ∈ jobs, TwinDelta d ∧ JobDelta d ∧ (d.type = .kFlush ∨ d.IsCompaction))
    (hindependent : jobs.Pairwise Independent) (hperm : jobs.Perm jobs')
    (hb : (before ++ jobs).foldlM (applyDelta stoll) empty = some b) :
    ∃ b', (before ++ jobs').foldlM (applyDelta stoll) empty = some b' ∧
      ∀ (after : List (RDFUpdateMetadata K)) (x y : VersionRDFBundle K),
        (∀ d ∈ after, TwinDelta d) → after.foldlM (applyDelta stoll) b = some x →
        after.foldlM (applyDelta stoll) b' = some y → ∀ level ≠ 0, ∀ key,
          x.splitPlrdfStringkey.isEntryAlive level key =
            y.splitPlrdfStringkey.isEntryAlive level key ∧
          x.plrdfStringkey.isEntryAlive level key = y.plrdfStringkey.isEntryAlive level key := by
  have happend : ∀ (ds es : List (RDFUpdateMetadata K)) (x : VersionRDFBundle K),
      (ds ++ es).foldlM (applyDelta stoll) empty = some x ↔
        ∃ c, ds.foldlM (applyDelta stoll) empty = some c ∧
          es.foldlM (applyDelta stoll) c = some x := by
    intro ds es x
    rw [List.foldlM_append]
    exact Option.bind_eq_some_iff
  obtain ⟨c, hc, hrun⟩ := (happend before jobs b).mp hb
  obtain ⟨b', hb'⟩ := exists_foldlM_applyDelta
    (fun d hd => exists_applyDelta_of_mem (fun d hd => (hjobs d hd).2.2) hrun d
      (hperm.mem_iff.mpr hd)) c
  have hb'' := (happend before jobs' b').mpr ⟨c, hc, hb'⟩
  refine ⟨b', hb'', fun after x y hafter hx hy level hlevel key => ?_⟩
  have htwin : ∀ jobs : List (RDFUpdateMetadata K), (∀ d ∈ jobs, TwinDelta d) →
      ∀ d ∈ before ++ jobs ++ after, TwinDelta d := by
    intro jobs hjobs
    exact List.forall_mem_append.mpr ⟨List.forall_mem_append.mpr ⟨hbefore, hjobs⟩, hafter⟩
  have hx : Tracks x level key _ := tracks_keyState
    (htwin jobs fun d hd => (hjobs d hd).1) hlevel ((happend _ after x).mpr ⟨b, hb, hx⟩)
  have hy : Tracks y level key _ := tracks_keyState
    (htwin jobs' fun d hd => (hjobs d (hperm.mem_iff.mpr hd)).1) hlevel
    ((happend _ after y).mpr ⟨b', hb'', hy⟩)
  rw [← keyState_of_perm (fun d hd => (hjobs d hd).2.1) hindependent hperm after] at hy
  exact ⟨Bool.eq_iff_iff.mpr (hx.split.isEntryAlive_iff.trans hy.split.isEntryAlive_iff.symm),
    Bool.eq_iff_iff.mpr (hx.plain.isEntryAlive_iff.trans hy.plain.isEntryAlive_iff.symm)⟩

theorem isEntryAlive_of_perm_samples : ∃ b b' : VersionRDFBundle ℕ,
    [twin sampleSplitDelta, twin sampleSplitDeltaDown, twin sampleSplitDeltaRight].foldlM
        (applyDelta fun _ => none) empty = some b ∧
      [twin sampleSplitDelta, twin sampleSplitDeltaRight, twin sampleSplitDeltaDown].foldlM
        (applyDelta fun _ => none) empty = some b' ∧
      b.splitPlrdfStringkey.isEntryAlive 2 3 = b'.splitPlrdfStringkey.isEntryAlive 2 3 := by
  have hrun : ([twin sampleSplitDelta, twin sampleSplitDeltaDown, twin sampleSplitDeltaRight].foldlM
      (applyDelta fun _ => none) empty).isSome = true := by decide
  obtain ⟨b, hb⟩ := Option.isSome_iff_exists.mp hrun
  have hright : ProperDelta sampleSplitDeltaRight :=
    ⟨⟨by decide, by decide, by decide⟩, by decide⟩
  have hjobs : ∀ d ∈ [twin sampleSplitDeltaDown, twin sampleSplitDeltaRight],
      TwinDelta d ∧ JobDelta d ∧ (d.type = .kFlush ∨ d.IsCompaction) := by
    have hleft := TwinDelta.of_properDelta properDelta_samples.2
    have hright := TwinDelta.of_properDelta hright
    simp only [List.forall_mem_cons]
    exact ⟨⟨hleft, ⟨hleft.toProperDelta, by decide⟩, Or.inr (Or.inl rfl)⟩,
      ⟨hright, ⟨hright.toProperDelta, by decide⟩, Or.inr (Or.inl rfl)⟩, by simp⟩
  have hindependent : [twin sampleSplitDeltaDown, twin sampleSplitDeltaRight].Pairwise
      Independent := by
    refine List.pairwise_pair.mpr ?_
    cases independent_samples with
    | flushFirst h₁ _ _ => cases h₁
    | flushSecond _ h₂ _ => cases h₂
    | compactions h₁ h₂ hhull => exact .compactions h₁ h₂ hhull
  have hbefore : ∀ d ∈ [twin sampleSplitDelta], TwinDelta d := by
    simp only [List.forall_mem_cons]
    exact ⟨.of_properDelta (properDelta_samples.1 _ (by simp)), by simp⟩
  obtain ⟨b', hb', hsame⟩ :=
    isEntryAlive_of_perm hbefore hjobs hindependent (List.Perm.swap _ _ []) hb
  exact ⟨b, b', hb, hb', (hsame [] b b' (by simp) rfl rfl 2 (by decide) 3).1⟩

end Schedules

end VersionRDFBundle

end Spry
