import Spry.SuRFBundle

/-!
# Which files have a trie

The files with a trie on each level after a flush, a compaction, a move or a direct removal, in
terms of those that had one before and of what the delta lists.
-/

namespace Spry

open HalfOpen

namespace SuRFRDF

variable {K : Type}

theorem mem_atLevel_directMoveFileToLevel (f : SuRFRDF K) {fd src dst : ℕ} (hne : src ≠ dst)
    (level n : ℕ) :
    n ∈ LevelMap.atLevel (f.directMoveFileToLevel fd src dst).levelFileSurfRdf level ↔
      (n ∈ LevelMap.atLevel f.levelFileSurfRdf level ∧ ¬ (level = src ∧ n = fd)) ∨
        (level = dst ∧ n = fd ∧ fd ∈ LevelMap.atLevel f.levelFileSurfRdf src) := by
  unfold directMoveFileToLevel
  cases hold : f.entry src fd with
  | none =>
    have hnot : fd ∉ LevelMap.atLevel f.levelFileSurfRdf src := by
      rw [LevelMap.mem_atLevel_iff]
      simpa [entry] using hold
    simp only [hnot, and_false, or_false]
    refine (and_iff_left_of_imp fun hmem => ?_).symm
    rintro ⟨rfl, rfl⟩
    exact hnot hmem
  | some surf =>
    have hmem : fd ∈ LevelMap.atLevel f.levelFileSurfRdf src := by
      rw [LevelMap.mem_atLevel_iff]
      simp only [entry] at hold
      rw [hold]
      rfl
    rw [LevelMap.mem_atLevel_eraseAt, LevelMap.mem_atLevel_insertAt]
    constructor
    · rintro ⟨⟨rfl, rfl⟩ | hn, hnot⟩
      · exact Or.inr ⟨rfl, rfl, hmem⟩
      · exact Or.inl ⟨hn, hnot⟩
    · rintro (⟨hn, hnot⟩ | ⟨rfl, rfl, _⟩)
      · exact ⟨Or.inr hn, hnot⟩
      · exact ⟨Or.inl ⟨rfl, rfl⟩, fun heq => hne heq.1.symm⟩

theorem mem_atLevel_foldl_directMove {dst : ℕ} {ps : List (ℕ × ℕ)} (hps : ∀ p ∈ ps, p.1 ≠ dst)
    (f : SuRFRDF K) (level n : ℕ) :
    n ∈ LevelMap.atLevel (ps.foldl (fun f p => f.directMoveFileToLevel p.2 p.1 dst)
        f).levelFileSurfRdf level ↔
      (n ∈ LevelMap.atLevel f.levelFileSurfRdf level ∧ (level, n) ∉ ps) ∨
        (level = dst ∧ ∃ src, (src, n) ∈ ps ∧ n ∈ LevelMap.atLevel f.levelFileSurfRdf src) := by
  induction ps generalizing f with
  | nil => simp
  | cons p ps ih =>
    obtain ⟨src, fd⟩ := p
    have hsrc : src ≠ dst := hps (src, fd) List.mem_cons_self
    have hrest : ∀ p ∈ ps, p.1 ≠ dst := fun p hp => hps p (List.mem_cons_of_mem _ hp)
    rw [List.foldl_cons, ih hrest]
    simp only [f.mem_atLevel_directMoveFileToLevel hsrc, List.mem_cons, not_or, Prod.mk.injEq]
    constructor
    · rintro (⟨⟨hn, hnot⟩ | ⟨rfl, rfl, hmem⟩, hps'⟩ | ⟨rfl, src', hlisted, ⟨hn, _⟩ | ⟨rfl, _⟩⟩)
      · exact Or.inl ⟨hn, hnot, hps'⟩
      · exact Or.inr ⟨rfl, src, Or.inl ⟨rfl, rfl⟩, hmem⟩
      · exact Or.inr ⟨rfl, src', Or.inr hlisted, hn⟩
      · exact absurd rfl (hrest _ hlisted)
    · rintro (⟨hn, hnot, hps'⟩ | ⟨rfl, src', hlisted, hn⟩)
      · exact Or.inl ⟨Or.inl ⟨hn, hnot⟩, hps'⟩
      · by_cases hhead : src' = src ∧ n = fd
        · obtain ⟨rfl, rfl⟩ := hhead
          exact Or.inl ⟨Or.inr ⟨rfl, rfl, hn⟩, fun hmem => hrest _ hmem rfl⟩
        · exact Or.inr ⟨rfl, src', hlisted.resolve_left hhead, Or.inl ⟨hn, hhead⟩⟩

variable [LinearOrder K]

def Holds (f : Option (SuRFRDF K)) (level fd : ℕ) : Prop :=
  fd ∈ LevelMap.atLevel (f.getD empty).levelFileSurfRdf level

def ListedAt (info : SuRFCompactionMovingRDInfo K) (level fd : ℕ) : Prop :=
  ∃ src ∈ info.sources, src.1 = level ∧ fd ∈ src.2

/-- Which files have a trie after a compaction: a move takes those of its files that have one to
the output level, any other compaction builds one for each output file with pieces. -/
def HoldsAfterCompaction (env : SuRFEnv K) (f : Option (SuRFRDF K))
    (info : SuRFCompactionMovingRDInfo K) (level fd : ℕ) : Prop :=
  if info.flagDirectMoveToDstLevel then
    (Holds f level fd ∧ ¬ ListedAt info level fd) ∨
      (level = info.dstLevel ∧ ∃ n, ListedAt info n fd ∧ Holds f n fd)
  else
    (Holds f level fd ∧ ¬ ListedAt info level fd) ∨
      (level = info.dstLevel ∧ ∃ piece ∈ clipTagged
        (coalesceAll (sortPairs (info.inputTombstones.map
          fun r => (env.condense r.1, env.condense r.2))))
        (info.destinations.map fun dst => (dst.1, (env.condense dst.2.1, env.condense dst.2.2))),
        piece.2 ≠ [] ∧ piece.1 = fd)

def HoldsAfter (env : SuRFEnv K) (f : Option (SuRFRDF K)) (d : SuRFMetadata K)
    (level fd : ℕ) : Prop :=
  match d.type with
  | .kFlush => Holds f level fd ∨
      (level = 0 ∧ ∃ info ∈ d.surfFlushInfo, info.rdList ≠ [] ∧ info.dstFd = fd)
  | .kCompaction | .kCompactionDirectMoved =>
    match d.surfCompactionInfo with
    | none => Holds f level fd
    | some info => HoldsAfterCompaction env f info level fd
  | .kCompactionDirectRemoved => Holds f level fd ∧
      ¬ ∃ info ∈ d.surfDirectRemovalInfo, info.srcLevel = level ∧ fd ∈ info.srcFdList

omit [LinearOrder K] in
theorem listedAt_iff {info : SuRFCompactionMovingRDInfo K} {level fd : ℕ} :
    ListedAt info level fd ↔
      (level, fd) ∈ info.sources.flatMap fun src => src.2.map fun fd => (src.1, fd) := by
  simp only [ListedAt, List.mem_flatMap, List.mem_map, Prod.mk.injEq]
  constructor
  · rintro ⟨src, hsrc, hlevel, hfd⟩
    exact ⟨src, hsrc, fd, hfd, hlevel, rfl⟩
  · rintro ⟨src, hsrc, _, hfd, hlevel, rfl⟩
    exact ⟨src, hsrc, hlevel, hfd⟩

theorem holds_applyCompaction (env : SuRFEnv K) (f : Option (SuRFRDF K))
    {info : SuRFCompactionMovingRDInfo K}
    (hdeeper : info.flagDirectMoveToDstLevel = true → ∀ src ∈ info.sources, src.1 < info.dstLevel)
    (level fd : ℕ) :
    Holds (applyCompaction env f (some info)) level fd ↔
      HoldsAfterCompaction env f info level fd := by
  by_cases hmove : info.flagDirectMoveToDstLevel = true
  · simp only [applyCompaction, HoldsAfterCompaction, hmove, if_true, Holds, Option.getD_some]
    have hpairs : ∀ p ∈ info.sources.flatMap fun src => src.2.map fun fd => (src.1, fd),
        p.1 ≠ info.dstLevel := by
      intro p hp
      obtain ⟨src, hsrc, hp⟩ := List.mem_flatMap.mp hp
      obtain ⟨_, _, rfl⟩ := List.mem_map.mp hp
      exact (hdeeper hmove src hsrc).ne
    have hmem := mem_atLevel_foldl_directMove hpairs (f.getD empty) level fd
    rw [List.foldl_flatMap] at hmem
    simp only [List.foldl_map] at hmem
    rw [hmem]
    simp only [listedAt_iff]
  · rw [applyCompaction_of_not_move env f hmove, HoldsAfterCompaction, if_neg hmove, Holds,
      Option.getD_some, levelFileSurfRdf_shiftRDFToOutputLevel,
      LevelMap.mem_atLevel_foldl_insertAt info.dstLevel
        (fun ranges => SuRF.rangesToSurf env (processRanges none ranges)),
      levelFileSurfRdf_removeSuRF, LevelMap.mem_atLevel_eraseFiles]
    simp only [Holds, ListedAt, List.mem_filter, and_assoc, decide_eq_true_eq]

theorem holds_applyFlush (env : SuRFEnv K) (f : Option (SuRFRDF K))
    (info : Option (SuRFFlushToLevel0Info K)) (level fd : ℕ) :
    Holds (applyFlush env f info) level fd ↔ Holds f level fd ∨
      (level = 0 ∧ ∃ info' ∈ info, info'.rdList ≠ [] ∧ info'.dstFd = fd) := by
  cases info with
  | none => simp [applyFlush]
  | some info =>
    simp only [applyFlush, Holds, Option.getD_some, insertRangeDeleteToLevel0,
      List.map_eq_nil_iff, Option.mem_def, Option.some.injEq, exists_eq_left']
    split_ifs with hempty hold
    · simp [hempty]
    · -- the file number is at level 0 already
      refine (or_iff_left_of_imp ?_).symm
      rintro ⟨rfl, _, rfl⟩
      exact hold
    · rw [levelFileSurfRdf_insertRangesAtLevelOfFd, LevelMap.mem_atLevel_insertAt, or_comm]
      simp only [ne_eq, hempty, not_false_eq_true, true_and, eq_comm]

omit [LinearOrder K] in
theorem holds_applyDirectRemoval (f : Option (SuRFRDF K))
    (info : Option SuRFCompactionDirectRemovalInfo) (level fd : ℕ) :
    Holds (applyDirectRemoval f info) level fd ↔ Holds f level fd ∧
      ¬ ∃ info' ∈ info, info'.srcLevel = level ∧ fd ∈ info'.srcFdList := by
  cases info with
  | none => simp [applyDirectRemoval]
  | some info =>
    change fd ∈ LevelMap.atLevel ((f.getD empty).removeSuRF
      [(info.srcLevel, info.srcFdList)]).levelFileSurfRdf level ↔ _
    rw [levelFileSurfRdf_removeSuRF, LevelMap.mem_atLevel_eraseFiles]
    simp [Holds]

/-- Tries are built, moved and erased as `HoldsAfter` says, if files move to deeper levels. -/
theorem holds_applyDelta (env : SuRFEnv K) (f : Option (SuRFRDF K)) {d : SuRFMetadata K}
    (hdeeper : ∀ info ∈ d.surfCompactionInfo, info.flagDirectMoveToDstLevel = true →
      ∀ src ∈ info.sources, src.1 < info.dstLevel) (level fd : ℕ) :
    Holds (applyDelta env f d) level fd ↔ HoldsAfter env f d level fd := by
  have hcompaction : Holds (applyCompaction env f d.surfCompactionInfo) level fd ↔
      match d.surfCompactionInfo with
      | none => Holds f level fd
      | some info => HoldsAfterCompaction env f info level fd := by
    cases hinfo : d.surfCompactionInfo with
    | none => rfl
    | some info => exact holds_applyCompaction env f (hdeeper info hinfo) level fd
  unfold applyDelta HoldsAfter
  cases d.type with
  | kFlush => exact holds_applyFlush env f d.surfFlushInfo level fd
  | kCompaction => exact hcompaction
  | kCompactionDirectRemoved => exact holds_applyDirectRemoval f d.surfDirectRemovalInfo level fd
  | kCompactionDirectMoved => exact hcompaction

end SuRFRDF

end Spry
