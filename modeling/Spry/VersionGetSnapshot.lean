import Spry.VersionGetNewest

/-!
# Reads at a snapshot that predates the tombstones

A filter has no sequence numbers. At a snapshot below all tombstones over a key the plain read
sees none of them, and goes through a file exactly if the file shows it nothing but operands. A
filter that covers the key still ends the read on the first change of level it is asked for.
-/

namespace Spry

variable {K V : Type}

def PointEntry.IsDeletion (e : PointEntry K V) : Prop :=
  e.type = .kTypeDeletion ∨ e.type = .kTypeSingleDeletion

theorem ReadEnv.entryOutcome_eq_notFound_iff (env : ReadEnv V) (e : PointEntry K V) :
    env.entryOutcome e = .notFound ↔ e.IsDeletion := by
  unfold entryOutcome PointEntry.IsDeletion
  cases htype : e.type with
  | kTypeDeletion => simp
  | kTypeSingleDeletion => simp
  | kTypeValue => simp [userValue]
  | kTypeMerge => simp [userValue]
  | kTypeBlobIndex => cases hvalue : env.fetchBlob e.value <;> simp [userValue, hvalue]
  | kTypeWideColumnEntity =>
    cases hvalue : env.valueOfDefaultColumn e.value <;> simp [userValue, hvalue]

variable [LinearOrder K]

def SstFile.Undecided (f : SstFile K V) (k : K) (snapshot : ℕ) : Prop :=
  ∀ e ∈ f.visible k snapshot, e.type = .kTypeMerge

namespace Version

section Past

variable {env : ReadEnv V} {k : K} {snapshot : ℕ}

theorem finish_ne_notFound_of_merge {ctx : GetContext V} (h : ctx.state = .kMerge) :
    finish env ctx ≠ .notFound := by
  simp only [finish, h]
  cases env.fullMerge none ctx.operands with
  | none => simp
  | some value => simp

theorem readFiles_ne_notFound_of_merge {ctx : GetContext V} (hctx : ctx.state = .kMerge)
    (files : List (ℕ × SstFile K V)) : readFiles env k snapshot ctx files ≠ .notFound := by
  induction files generalizing ctx with
  | nil => exact finish_ne_notFound_of_merge hctx
  | cons p rest ih =>
    by_cases hmax : 0 < ctx.maxCoveringTombstoneSeq
    · rw [readFiles_of_covered hmax]
      exact finish_ne_notFound_of_merge hctx
    · obtain ⟨hfound, hmerge⟩ := @ReadEnv.tableGet_of_merge K V env _ ctx p.2 k snapshot hctx
      simp only [readFiles, hmax, if_false]
      cases hout : (env.tableGet ctx p.2 k snapshot).state.outcome with
      | some outcome =>
        intro heq
        simp only at heq
        exact hfound (heq ▸ hout)
      | none => exact ih (hmerge hout)

theorem passes_iff_undecided {ctx : GetContext V} (hctx : ctx.Reading)
    (hmax : ctx.maxCoveringTombstoneSeq = 0) {files : List (ℕ × SstFile K V)}
    (hpast : ∀ p ∈ files, p.2.maxCoveringTombstoneSeqnum k snapshot = 0) :
    Passes env k snapshot ctx files ↔ ∀ p ∈ files, p.2.Undecided k snapshot := by
  induction files generalizing ctx with
  | nil => simp [Passes]
  | cons p rest ih =>
    have hafter : ReadEnv.maxAfter ctx p.2 k snapshot = 0 := by
      rw [ReadEnv.maxAfter, hmax, hpast p List.mem_cons_self]
      rfl
    have hfirst : (env.tableGet ctx p.2 k snapshot).state.outcome = none ↔
        p.2.Undecided k snapshot := by
      rw [env.tableGet_outcome_eq_none hctx, hafter]
      simp [SstFile.Undecided, PointEntry.IsOperand]
    rw [List.forall_mem_cons, ← hfirst, Passes]
    constructor
    · intro h
      refine ⟨h.2.1, ?_⟩
      exact (ih (env.reading_tableGet hctx h.2.1) (by rw [env.maxCovering_tableGet, hafter])
        (fun q hq => hpast q (List.mem_cons_of_mem p hq))).mp h.2.2
    · intro h
      refine ⟨hmax, h.1, ?_⟩
      exact (ih (env.reading_tableGet hctx h.1) (by rw [env.maxCovering_tableGet, hafter])
        (fun q hq => hpast q (List.mem_cons_of_mem p hq))).mpr h.2

theorem exists_newestVisible {files : List (ℕ × SstFile K V)}
    (hpast : ∀ p ∈ files, p.2.maxCoveringTombstoneSeqnum k snapshot = 0)
    (h : ∃ p ∈ files, p.2.visible k snapshot ≠ []) :
    ∃ e, NewestVisible files k snapshot e := by
  obtain ⟨p, hp, hvis⟩ := h
  obtain ⟨e₀, es, hcons⟩ := List.exists_cons_of_ne_nil hvis
  have he₀ : e₀ ∈ {e | e ∈ files.flatMap fun p => p.2.visible k snapshot} :=
    List.mem_flatMap.mpr ⟨p, hp, by rw [hcons]; exact List.mem_cons_self⟩
  obtain ⟨e, he, hmax⟩ := Set.exists_max_image _ (fun e => e.seq) (List.finite_toSet _) ⟨e₀, he₀⟩
  refine ⟨e, List.mem_flatMap.mp he, ?_, ?_⟩
  · intro q hq e' he'
    exact hmax e' (List.mem_flatMap.mpr ⟨q, hq, he'⟩)
  · intro q hq
    rw [hpast q hq]
    exact Nat.zero_le _

theorem readFiles_of_visible_eq_nil {ctx : GetContext V} (hctx : ctx.state = .kNotFound)
    {files : List (ℕ × SstFile K V)} (h : ∀ p ∈ files, p.2.visible k snapshot = []) :
    readFiles env k snapshot ctx files = .notFound := by
  induction files generalizing ctx with
  | nil => exact finish_of_notFound hctx
  | cons p rest ih =>
    by_cases hmax : 0 < ctx.maxCoveringTombstoneSeq
    · rw [readFiles_of_covered hmax, finish_of_notFound hctx]
    · obtain ⟨hstate, hpass⟩ :=
        readFiles_cons_of_visible_eq_nil hctx hmax (h p List.mem_cons_self) rest
      rw [hpass]
      exact ih hstate (fun q hq => h q (List.mem_cons_of_mem p hq))

theorem readFiles_ne_notFound_of_operand {files : List (ℕ × SstFile K V)}
    (hfiles : files.Pairwise (fun p q => SstFile.NewerFor k p.2 q.2)) {e : PointEntry K V}
    (hnewest : NewestVisible files k snapshot e) (htype : e.type = .kTypeMerge) :
    readFiles env k snapshot {} files ≠ .notFound := by
  obtain ⟨p, rest, es, ctx, _, hmax, hvis, hafter, hread⟩ :=
    @readFiles_reaches_newest K V _ env k snapshot files hfiles e hnewest {} rfl rfl
  obtain ⟨hfound, hmerge⟩ := env.tableGet_of_newest_operand hvis htype hafter
  rw [hread]
  simp only [readFiles, hmax, lt_irrefl, if_false]
  cases hout : (env.tableGet ctx p.2 k snapshot).state.outcome with
  | some outcome =>
    intro heq
    simp only at heq
    exact hfound (heq ▸ hout)
  | none => exact readFiles_ne_notFound_of_merge (hmerge hout) rest

/-- At a snapshot below the tombstones a key is missing exactly if it has no visible entry or
the newest one is a deletion. -/
theorem readFiles_eq_notFound_iff {files : List (ℕ × SstFile K V)}
    (hfiles : files.Pairwise (fun p q => SstFile.NewerFor k p.2 q.2))
    (hpast : ∀ p ∈ files, p.2.maxCoveringTombstoneSeqnum k snapshot = 0) :
    readFiles env k snapshot {} files = .notFound ↔
      ∀ e, NewestVisible files k snapshot e → e.IsDeletion := by
  constructor
  · intro h e he
    by_cases htype : e.type = .kTypeMerge
    · exact absurd h (readFiles_ne_notFound_of_operand hfiles he htype)
    · rw [readFiles_of_newestVisible hfiles he htype rfl rfl] at h
      exact (env.entryOutcome_eq_notFound_iff e).mp h
  · intro h
    by_cases hsome : ∃ p ∈ files, p.2.visible k snapshot ≠ []
    · obtain ⟨e, he⟩ := exists_newestVisible hpast hsome
      have htype : e.type ≠ .kTypeMerge := by
        cases h e he with
        | inl h => simp [h]
        | inr h => simp [h]
      rw [readFiles_of_newestVisible hfiles he htype rfl rfl]
      exact (env.entryOutcome_eq_notFound_iff e).mpr (h e he)
    · apply readFiles_of_visible_eq_nil rfl
      intro p hp
      by_contra hvis
      exact hsome ⟨p, hp, hvis⟩

end Past

variable (v : Version K V) (alive : Alive) (endLevel : ℕ) (k : K) (snapshot : ℕ)

def Predates : Prop :=
  ∀ level, ∀ f ∈ v.files level, ∀ t ∈ f.tombstones, t.Covers k → snapshot < t.seq

/-- The entry is the newest one of the key at or below the snapshot. -/
structure NewestAt (e : PointEntry K V) : Prop where
  held : ∃ level, ∃ f ∈ v.files level, e ∈ f.visible k snapshot
  newest : ∀ level, ∀ f ∈ v.files level, ∀ p ∈ f.visible k snapshot, p.seq ≤ e.seq

/-- The verdicts end the read before a value or a deletion of the key is visible: an eager filter
at the start or when it is asked for the next level, a deferred one when it leaves a level. -/
def HidesRest (mode : GateMode) (files : List (ℕ × SstFile K V)) : Prop :=
  (mode = .eager ∧ nextAlive alive endLevel files = false) ∨
    ∃ pre p post, files = pre ++ p :: post ∧ (∀ q ∈ pre ++ [p], q.2.Undecided k snapshot) ∧
      nextLevel endLevel post ≠ p.1 ∧
      ((mode = .deferred ∧ rememberedFor alive files p.1 = false) ∨
        (mode = .eager ∧ nextAlive alive endLevel post = false))

variable {v alive endLevel k snapshot}

theorem Predates.maxCovering_eq_zero (h : v.Predates k snapshot) :
    ∀ p ∈ v.picks k, p.2.maxCoveringTombstoneSeqnum k snapshot = 0 := by
  intro p hp
  exact SstFile.maxCovering_eq_zero (h p.1 p.2 (mem_picks.mp hp).1)

theorem newestVisible_picks_iff (h : v.Predates k snapshot) (e : PointEntry K V) :
    NewestVisible (v.picks k) k snapshot e ↔ v.NewestAt k snapshot e := by
  have hpick : ∀ level, ∀ f ∈ v.files level, ∀ p ∈ f.visible k snapshot,
      (level, f) ∈ v.picks k := by
    intro level f hf p hp
    obtain ⟨hpoint, hkey, _⟩ := SstFile.mem_visible.mp hp
    exact mem_picks.mpr ⟨hf, SstFile.overlaps_of_holds (Or.inl ⟨p, hpoint, hkey, rfl⟩)⟩
  constructor
  · intro hnewest
    obtain ⟨p, hp, he⟩ := hnewest.held
    refine ⟨⟨p.1, p.2, (mem_picks.mp hp).1, he⟩, ?_⟩
    intro level f hf p' hp'
    exact hnewest.points _ (hpick level f hf p' hp') p' hp'
  · intro hnewest
    obtain ⟨level, f, hf, he⟩ := hnewest.held
    refine ⟨⟨_, hpick level f hf e he, he⟩, ?_, ?_⟩
    · intro p hp
      exact hnewest.newest p.1 p.2 (mem_picks.mp hp).1
    · intro p hp
      rw [h.maxCovering_eq_zero p hp]
      exact Nat.zero_le _

theorem filterCloses_iff_hidesRest {env : ReadEnv V} {mode : GateMode}
    (hmode : mode = .deferred ∨ mode = .eager) {files : List (ℕ × SstFile K V)}
    (hpast : ∀ p ∈ files, p.2.maxCoveringTombstoneSeqnum k snapshot = 0) :
    FilterCloses env k snapshot alive endLevel mode {} files ↔
      HidesRest alive endLevel k snapshot mode files := by
  have hgate : ∀ closed, GateCloses env k snapshot endLevel {} files closed ↔
      ∃ pre p post, files = pre ++ p :: post ∧ (∀ q ∈ pre ++ [p], q.2.Undecided k snapshot) ∧
        nextLevel endLevel post ≠ p.1 ∧ closed p post := by
    intro closed
    have hpasses : ∀ pre p post, files = pre ++ p :: post →
        (Passes env k snapshot {} (pre ++ [p]) ↔
          ∀ q ∈ pre ++ [p], q.2.Undecided k snapshot) := by
      intro pre p post heq
      apply passes_iff_undecided (Or.inl rfl) rfl
      intro q hq
      apply hpast q
      rw [heq]
      simp only [List.mem_append, List.mem_cons, List.not_mem_nil, or_false] at hq ⊢
      exact hq.imp_right Or.inl
    constructor
    · intro h
      obtain ⟨pre, p, post, heq, hpass, hrest⟩ := h
      exact ⟨pre, p, post, heq, (hpasses pre p post heq).mp hpass, hrest⟩
    · intro h
      obtain ⟨pre, p, post, heq, hpass, hrest⟩ := h
      exact ⟨pre, p, post, heq, (hpasses pre p post heq).mpr hpass, hrest⟩
  cases hmode with
  | inl hmode =>
    subst hmode
    simp only [FilterCloses, HidesRest, hgate]
    simp
  | inr hmode =>
    subst hmode
    simp only [FilterCloses, HidesRest, hgate]
    simp

theorem outcome_ne_exception (state : GetState V) : state.outcome ≠ some .exception := by
  cases state <;> simp [GetState.outcome]

theorem readFiles_ne_exception {env : ReadEnv V} (ctx : GetContext V)
    (files : List (ℕ × SstFile K V)) : readFiles env k snapshot ctx files ≠ .exception := by
  have hfinish : ∀ ctx, finish env ctx ≠ .exception := by
    intro ctx
    unfold finish
    split
    · split <;> simp
    · simp
  induction files generalizing ctx with
  | nil => exact hfinish ctx
  | cons p rest ih =>
    by_cases hmax : 0 < ctx.maxCoveringTombstoneSeq
    · rw [readFiles_of_covered hmax]
      exact hfinish ctx
    · simp only [readFiles, hmax, if_false]
      cases hout : (env.tableGet ctx p.2 k snapshot).state.outcome with
      | some outcome =>
        intro heq
        simp only at heq
        exact outcome_ne_exception _ (heq ▸ hout)
      | none => exact ih _

/-- The verdict for a level that is read is false exactly if the level has a tombstone over the
key. -/
def Exact (v : Version K V) (k : K) (alive : Alive) : Prop :=
  ∀ level, ∀ f ∈ v.files level, f.Overlaps k →
    (alive level (some f.number) = false ↔ ∃ g ∈ v.files level, ∃ t ∈ g.tombstones, t.Covers k)

end Version

namespace ReadSystem

variable (sys : ReadSystem K V) (fs : RangeFilters K) (v : Version K V) (endLevel : ℕ) (key : K)
  (snapshot : ℕ)

def perLevelTypes : List RdfType :=
  [.plrdf, .splitPlrdf, .plrdfStringKey, .splitPlrdfStringKey, .surfLfRdf, .surfLfSplitRdf]

/-- At a snapshot that predates all tombstones over the key the plain read returns the newest
visible entry. A filter changes nothing exactly if it gives a verdict and, where its verdicts
hide the rest of the files, there is nothing to hide. -/
theorem get_predating_eq_get_none_iff (rdf : RdfType) (hrdf : rdf ∈ perLevelTypes)
    (hfirst : v.NewestFirst key) (hpast : v.Predates key snapshot) :
    (∀ e, v.NewestAt key snapshot e → e.type ≠ .kTypeMerge →
      sys.get fs .none v endLevel key snapshot {} = sys.env.entryOutcome e) ∧
    (sys.get fs rdf v endLevel key snapshot {} = sys.get fs .none v endLevel key snapshot {} ↔
      ∃ alive, sys.verdict fs rdf key = some alive ∧
        (Version.HidesRest alive endLevel key snapshot rdf.mode (v.picks key) →
          ∀ e, v.NewestAt key snapshot e → e.IsDeletion)) := by
  have hmode : rdf.mode = .deferred ∨ rdf.mode = .eager := by
    cases rdf <;> simp_all [perLevelTypes, RdfType.mode]
  have hzero := hpast.maxCovering_eq_zero
  constructor
  · intro e he htype
    rw [sys.get_none]
    exact Version.readFiles_of_newestVisible hfirst.picks
      ((Version.newestVisible_picks_iff hpast e).mpr he) htype rfl rfl
  cases hverdict : sys.verdict fs rdf key with
  | none =>
    have hthrows : sys.get fs rdf v endLevel key snapshot {} = .exception := by
      simp only [get, hverdict]
    rw [hthrows, sys.get_none]
    apply iff_of_false
    · exact (Version.readFiles_ne_exception _ _).symm
    · simp
  | some alive =>
    have hcloses := @Version.filterCloses_iff_hidesRest K V _ alive endLevel key snapshot
      sys.env rdf.mode hmode (v.picks key) hzero
    have hmissing : sys.get fs .none v endLevel key snapshot {} = .notFound ↔
        ∀ e, v.NewestAt key snapshot e → e.IsDeletion := by
      rw [sys.get_none, Version.readFiles_eq_notFound_iff hfirst.picks hzero]
      simp only [Version.newestVisible_picks_iff hpast]
    simp only [Option.some.injEq, exists_eq_left', ← hcloses, ← hmissing]
    by_cases hclosed : Version.FilterCloses sys.env key snapshot alive endLevel rdf.mode {}
        (v.picks key)
    · rw [sys.get_of_closes hverdict hclosed]
      constructor
      · intro h _
        exact h.symm
      · intro h
        exact (h hclosed).symm
    · rw [sys.get_of_not_closes hverdict hclosed]
      exact iff_of_true rfl (fun h => absurd h hclosed)

/-- A tombstone from `2` to `4`, written at 5, with the given points. -/
def tombstoneFile (points : List (PointEntry Bytes ℕ))
    (sorted : points.Pairwise (fun p q => p.key < q.key ∨ p.key = q.key ∧ q.seq < p.seq))
    (within : ∀ p ∈ points, [50] ≤ p.key ∧ p.key ≤ [52]) : SstFile Bytes ℕ :=
  { number := 8
    smallest := [50]
    largest := [52]
    points := points
    tombstones := [⟨[50], [52], 5, tombstoneSeq_pos⟩]
    sorted := sorted
    points_within := within
    tombstones_within := tombstone_within }

def oldValueFile : SstFile Bytes ℕ :=
  { number := 4
    smallest := [51]
    largest := [51]
    points := [⟨[51], 2, .kTypeValue, 7⟩]
    tombstones := []
    sorted := by simp
    points_within := by simp
    tombstones_within := forall_mem_nil_within }

def tombstoneFilters : RangeFilters Bytes :=
  ⟨{ VersionRDFBundle.empty with plrdfStringkey := ⟨∅, [[], [([50], [52])]], [[], []]⟩ }, none,
    none⟩

def coveredVersion (points : List (PointEntry Bytes ℕ))
    (sorted : points.Pairwise (fun p q => p.key < q.key ∨ p.key = q.key ∧ q.seq < p.seq))
    (within : ∀ p ∈ points, [50] ≤ p.key ∧ p.key ≤ [52]) : Version Bytes ℕ :=
  Version.tower [] [tombstoneFile points sorted within, oldValueFile]

section Covered

variable {points : List (PointEntry Bytes ℕ)}
  {sorted : points.Pairwise (fun p q => p.key < q.key ∨ p.key = q.key ∧ q.seq < p.seq)}
  {within : ∀ p ∈ points, [50] ≤ p.key ∧ p.key ≤ [52]}

theorem newestFirst_coveredVersion (hpoints : ∀ p ∈ points, p.key = [51] → 2 < p.seq) :
    (coveredVersion points sorted within).NewestFirst [51] := by
  apply Version.newestFirst_tower
  simp only [List.nil_append, List.pairwise_pair]
  intro a b ha hb
  obtain rfl : 2 = b := by
    cases hb with
    | inl hb => simpa [oldValueFile] using hb
    | inr hb => simp [oldValueFile] at hb
  cases ha with
  | inl ha =>
    obtain ⟨p, hp, hkey, rfl⟩ := ha
    exact hpoints p hp hkey
  | inr ha =>
    obtain ⟨t, ht, _, rfl⟩ := ha
    rw [List.mem_singleton.mp ht]
    decide

theorem exact_coveredVersion :
    (coveredVersion points sorted within).Exact [51]
      (fun level _ => tombstoneFilters.bundle.plrdfStringkey.isEntryAlive level [51]) := by
  intro level f hf _
  match level with
  | 0 => cases hf
  | 1 =>
    exact iff_of_true rfl
      ⟨_, List.mem_singleton_self _, _, List.mem_singleton_self _, by decide⟩
  | 2 =>
    have halive : tombstoneFilters.bundle.plrdfStringkey.isEntryAlive 2 [51] = true := rfl
    apply iff_of_false
    · simp [halive]
    · intro h
      obtain ⟨g, hg, t, ht, _⟩ := h
      rw [List.mem_singleton.mp hg] at ht
      cases ht
  | level + 3 => cases hf

end Covered

/-- A read at 3, before the tombstone at 5, misses the value written at 2. -/
theorem plrdf_hides_value_from_snapshot :
    (coveredVersion [] (by simp) (by simp)).NewestFirst [51] ∧
      (coveredVersion [] (by simp) (by simp)).Predates [51] 3 ∧
      (coveredVersion [] (by simp) (by simp)).Exact [51]
        (fun level _ => tombstoneFilters.bundle.plrdfStringkey.isEntryAlive level [51]) ∧
      sampleSystem.get tombstoneFilters .none (coveredVersion [] (by simp) (by simp)) 3 [51] 3
        {} = .ok 7 ∧
      sampleSystem.get tombstoneFilters .plrdfStringKey (coveredVersion [] (by simp) (by simp)) 3
        [51] 3 {} = .notFound := by
  refine ⟨newestFirst_coveredVersion (by simp), ?_, exact_coveredVersion, by decide, by decide⟩
  intro level f hf
  have hmem := Version.mem_of_mem_files_tower hf
  simp only [List.nil_append, List.mem_cons, List.not_mem_nil, or_false] at hmem
  cases hmem with
  | inl hmem => rw [hmem]; decide
  | inr hmem => rw [hmem]; decide

def besideVersion : Version Bytes ℕ :=
  Version.tower [] [tombstoneFile [⟨[51], 2, .kTypeValue, 7⟩] (by simp) (by decide)]

/-- A value next to the tombstone is found before the level is left. -/
theorem get_predating_eq_get_none_beside :
    sampleSystem.get tombstoneFilters .plrdfStringKey besideVersion 3 [51] 3 {} =
      sampleSystem.get tombstoneFilters .none besideVersion 3 [51] 3 {} := by
  refine (get_predating_eq_get_none_iff sampleSystem tombstoneFilters besideVersion 3 [51] 3
    .plrdfStringKey (by decide) (Version.newestFirst_tower (List.pairwise_singleton _ _))
    ?_).2.mpr ⟨_, rfl, ?_⟩
  · intro level f hf
    rw [List.mem_singleton.mp (Version.mem_of_mem_files_tower hf)]
    decide
  · intro hhides
    cases hhides with
    | inl hhides => cases hhides.1
    | inr hhides =>
      obtain ⟨pre, p, post, heq, hundecided, _⟩ := hhides
      cases pre with
      | nil =>
        obtain ⟨rfl, _⟩ := List.cons.inj heq
        cases hundecided _ List.mem_cons_self ⟨[51], 2, .kTypeValue, 7⟩ (by decide)
      | cons q pre =>
        have hlength := congrArg List.length heq
        simp [show besideVersion.picks [51] = [_] from rfl] at hlength

end ReadSystem

end Spry
