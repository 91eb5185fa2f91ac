import Spry.VersionGetLatest

/-!
# The newest entry of a key decides the plain read

When files are visited newest first, the files in front of the newest visible entry hold nothing
of the key, and its own file hands it over first. The top-level filter is asked before all of
this, about level 1, and so can hide an entry that has never been compacted.
-/

namespace Spry

variable {K V : Type} [LinearOrder K]

def ReadEnv.entryOutcome (env : ReadEnv V) (e : PointEntry K V) : Outcome V :=
  match e.type with
  | .kTypeDeletion | .kTypeSingleDeletion => .notFound
  | _ =>
    match env.userValue e.type e.value with
    | none => .error
    | some value => .ok value

namespace Version

variable {env : ReadEnv V} {k : K} {snapshot : ℕ}

theorem tableGet_outcome_of_newest {ctx : GetContext V} {f : SstFile K V} {e : PointEntry K V}
    {es : List (PointEntry K V)} (hctx : ctx.state = .kNotFound)
    (hvis : f.visible k snapshot = e :: es) (htype : e.type ≠ .kTypeMerge)
    (hseq : ReadEnv.maxAfter ctx f k snapshot ≤ e.seq) :
    (env.tableGet ctx f k snapshot).state.outcome = some (env.entryOutcome e) := by
  have hlt : ¬ e.seq < ReadEnv.maxAfter ctx f k snapshot := not_lt.mpr hseq
  unfold ReadEnv.maxAfter at hlt
  simp only [ReadEnv.tableGet, hvis, ReadEnv.saveValues, ReadEnv.saveValue, hlt, if_false]
  cases htype' : e.type with
  | kTypeMerge => exact absurd htype' htype
  | kTypeDeletion =>
    simp [ReadEnv.saveDeletion, hctx, GetState.outcome, ReadEnv.entryOutcome, htype']
  | kTypeSingleDeletion =>
    simp [ReadEnv.saveDeletion, hctx, GetState.outcome, ReadEnv.entryOutcome, htype']
  | kTypeValue =>
    simp [ReadEnv.saveBase, hctx, GetState.outcome, ReadEnv.entryOutcome, htype',
      ReadEnv.foundOr, ReadEnv.userValue]
  | kTypeBlobIndex =>
    simp only [ReadEnv.saveBase, hctx, ReadEnv.entryOutcome, htype', ReadEnv.userValue]
    cases env.fetchBlob e.value <;> rfl
  | kTypeWideColumnEntity =>
    simp only [ReadEnv.saveBase, hctx, ReadEnv.entryOutcome, htype', ReadEnv.userValue]
    cases env.valueOfDefaultColumn e.value <;> rfl

/-- An entry is the newest visible one of its key among the files, and no visible tombstone over
the key is newer. -/
structure NewestVisible (files : List (ℕ × SstFile K V)) (k : K) (snapshot : ℕ)
    (e : PointEntry K V) : Prop where
  held : ∃ p ∈ files, e ∈ p.2.visible k snapshot
  points : ∀ p ∈ files, ∀ e' ∈ p.2.visible k snapshot, e'.seq ≤ e.seq
  tombstones : ∀ p ∈ files, p.2.maxCoveringTombstoneSeqnum k snapshot ≤ e.seq

/-- The files in front of the newest visible entry hold nothing of the key, and its own file
hands it over first. -/
theorem readFiles_reaches_newest {files : List (ℕ × SstFile K V)}
    (hfiles : files.Pairwise (fun p q => SstFile.NewerFor k p.2 q.2)) {e : PointEntry K V}
    (hnewest : NewestVisible files k snapshot e) {ctx : GetContext V}
    (hctx : ctx.state = .kNotFound) (hmax : ctx.maxCoveringTombstoneSeq = 0) :
    ∃ (p : ℕ × SstFile K V) (rest : List (ℕ × SstFile K V)) (es : List (PointEntry K V))
      (ctx' : GetContext V), ctx'.state = .kNotFound ∧ ctx'.maxCoveringTombstoneSeq = 0 ∧
        p.2.visible k snapshot = e :: es ∧ ReadEnv.maxAfter ctx' p.2 k snapshot ≤ e.seq ∧
        readFiles env k snapshot ctx files = readFiles env k snapshot ctx' (p :: rest) := by
  obtain ⟨⟨q, hq, he⟩, hpoints, htombs⟩ := hnewest
  induction files generalizing ctx with
  | nil => cases hq
  | cons p rest ih =>
    obtain ⟨hnew, hrest⟩ := List.pairwise_cons.mp hfiles
    by_cases heq : q = p
    · subst heq
      obtain ⟨es, hvis⟩ := SstFile.visible_eq_cons he (hpoints q List.mem_cons_self)
      refine ⟨q, rest, es, ctx, hctx, hmax, hvis, ?_, rfl⟩
      rw [ReadEnv.maxAfter, hmax, Nat.zero_max]
      exact htombs q List.mem_cons_self
    · -- a file in front holds nothing of the key, since it would be newer
      have hmem : q ∈ rest := (List.mem_cons.mp hq).resolve_left heq
      have hholds : q.2.Holds k e.seq := SstFile.holds_of_mem_visible he
      have hvis : p.2.visible k snapshot = [] := by
        rw [List.eq_nil_iff_forall_not_mem]
        intro e' he'
        have hlt := hnew q hmem e'.seq e.seq (SstFile.holds_of_mem_visible he') hholds
        have hle := hpoints p List.mem_cons_self e' he'
        omega
      have hzero : p.2.maxCoveringTombstoneSeqnum k snapshot = 0 := by
        by_contra hne
        obtain ⟨t, ht, hcov, _, hteq⟩ :=
          SstFile.exists_of_maxCovering_pos (Nat.pos_of_ne_zero hne)
        have hlt := hnew q hmem t.seq e.seq (Or.inr ⟨t, ht, hcov, rfl⟩) hholds
        have hle := htombs p List.mem_cons_self
        omega
      obtain ⟨hstate, hskip⟩ := readFiles_cons_of_visible_eq_nil hctx hmax.not_gt hvis rest
      have hmax' : (env.tableGet ctx p.2 k snapshot).maxCoveringTombstoneSeq = 0 := by
        rw [env.maxCovering_tableGet, ReadEnv.maxAfter, hmax, hzero]
        rfl
      rw [hskip]
      apply ih hrest hstate hmax'
      · intro p' hp'
        exact hpoints p' (List.mem_cons_of_mem p hp')
      · intro p' hp'
        exact htombs p' (List.mem_cons_of_mem p hp')
      · exact hmem

theorem readFiles_of_newestVisible {files : List (ℕ × SstFile K V)}
    (hfiles : files.Pairwise (fun p q => SstFile.NewerFor k p.2 q.2)) {e : PointEntry K V}
    (hnewest : NewestVisible files k snapshot e) (htype : e.type ≠ .kTypeMerge)
    {ctx : GetContext V} (hctx : ctx.state = .kNotFound)
    (hmax : ctx.maxCoveringTombstoneSeq = 0) :
    readFiles env k snapshot ctx files = env.entryOutcome e := by
  obtain ⟨p, rest, es, ctx', hctx', hmax', hvis, hafter, hread⟩ :=
    @readFiles_reaches_newest K V _ env k snapshot files hfiles e hnewest ctx hctx hmax
  rw [hread]
  simp only [readFiles, hmax', lt_irrefl, if_false,
    tableGet_outcome_of_newest hctx' hvis htype hafter]

end Version

namespace ReadSystem

variable (sys : ReadSystem K V) (fs : RangeFilters K) (v : Version K V) (endLevel : ℕ) (key : K)
  (snapshot : ℕ)

/-- The newest entry of the key is a value in a level-0 file, newer than every tombstone over
the key. -/
structure FreshValue (e : PointEntry K V) : Prop where
  held : ∃ f ∈ v.files 0, e ∈ f.points
  key_eq : e.key = key
  type_eq : e.type = .kTypeValue
  newest : ∀ level, ∀ f ∈ v.files level, ∀ p ∈ f.points, p.key = key → p.seq ≤ e.seq
  uncovered : ∀ level, ∀ f ∈ v.files level, ∀ t ∈ f.tombstones, t.Covers key → t.seq < e.seq

variable {sys fs v endLevel key snapshot} {e : PointEntry K V}

theorem FreshValue.newestVisible (h : FreshValue v key e) (hseen : v.SeenBy key snapshot) :
    Version.NewestVisible (v.picks key) key snapshot e := by
  obtain ⟨⟨f, hf, he⟩, hkey, _, hnewest, huncovered⟩ := h
  refine ⟨⟨(0, f), ?_, ?_⟩, ?_, ?_⟩
  · exact Version.mem_picks.mpr ⟨hf, SstFile.overlaps_of_holds (Or.inl ⟨e, he, hkey, rfl⟩)⟩
  · exact SstFile.mem_visible.mpr ⟨he, hkey, hseen.points 0 f hf e he hkey⟩
  · intro p hp e' he'
    obtain ⟨hpoint, hkey', _⟩ := SstFile.mem_visible.mp he'
    exact hnewest p.1 p.2 (Version.mem_picks.mp hp).1 e' hpoint hkey'
  · intro p hp
    apply SstFile.maxCovering_le
    intro t ht hcov
    exact (huncovered p.1 p.2 (Version.mem_picks.mp hp).1 t ht hcov).le

theorem FreshValue.get_none (h : FreshValue v key e) (hseen : v.SeenBy key snapshot)
    (hfirst : v.NewestFirst key) :
    sys.get fs .none v endLevel key snapshot {} = .ok e.value := by
  have htype : e.type ≠ .kTypeMerge := by simp [h.type_eq]
  rw [ReadSystem.get_none,
    Version.readFiles_of_newestVisible hfirst.picks (h.newestVisible hseen) htype rfl rfl]
  simp [ReadEnv.entryOutcome, h.type_eq, ReadEnv.userValue]

/-- A filter that is asked once, at the start, leaves the value alone exactly if its verdict is
true. -/
theorem get_first_eq_ok_iff (h : FreshValue v key e) (hseen : v.SeenBy key snapshot)
    (hfirst : v.NewestFirst key) {rdf : RdfType} (hmode : rdf.mode = .first) {alive : Alive}
    (hverdict : sys.verdict fs rdf key = some alive) :
    sys.get fs rdf v endLevel key snapshot {} = .ok e.value ↔
      Version.nextAlive alive endLevel (v.picks key) = true := by
  cases halive : Version.nextAlive alive endLevel (v.picks key) with
  | false =>
    have hcloses : Version.FilterCloses sys.env key snapshot alive endLevel rdf.mode {}
        (v.picks key) := by
      rw [hmode]
      exact halive
    simp [sys.get_of_closes hverdict hcloses]
  | true =>
    have hcloses : ¬ Version.FilterCloses sys.env key snapshot alive endLevel rdf.mode {}
        (v.picks key) := by
      rw [hmode]
      simp [Version.FilterCloses, halive]
    simp [sys.get_of_not_closes hverdict hcloses, h.get_none hseen hfirst]

variable (sys fs endLevel)

/-- Under the top-level filters the newest value, on level 0, is returned exactly if the filter
spares the key on level 1. -/
theorem get_topLevel_eq_ok_iff (h : FreshValue v key e) (hseen : v.SeenBy key snapshot)
    (hfirst : v.NewestFirst key) :
    (sys.get fs .topLevelRdf v endLevel key snapshot {} = .ok e.value ↔
      ∃ n, sys.stoll key = some n ∧ fs.bundle.topLevelRdf.isEntryAlive 1 n = true) ∧
    (sys.get fs .topLevelRdfStringKey v endLevel key snapshot {} = .ok e.value ↔
      fs.bundle.topLevelRdfStringkey.isEntryAlive 1 key = true) := by
  constructor
  · cases hn : sys.stoll key with
    | none => simp [get, verdict, hn]
    | some n =>
      have hverdict : sys.verdict fs .topLevelRdf key =
          some (fun _ _ => fs.bundle.topLevelRdf.isEntryAlive 1 n) := by
        simp [verdict, hn]
      rw [get_first_eq_ok_iff h hseen hfirst rfl hverdict]
      simp [Version.nextAlive]
  · rw [get_first_eq_ok_iff h hseen hfirst rfl rfl]
    rfl

theorem forall_mem_nil_within :
    ∀ t ∈ ([] : List (RangeTombstone Bytes)), [51] ≤ t.start ∧ t.stop ≤ [51] := by simp

/-- A level-0 file with the key `3` and the value 7, written at 9. -/
def freshFile : SstFile Bytes ℕ :=
  { number := 11
    smallest := [51]
    largest := [51]
    points := [⟨[51], 9, .kTypeValue, 7⟩]
    tombstones := []
    sorted := by simp
    points_within := by simp
    tombstones_within := forall_mem_nil_within }

theorem freshValue_freshFile :
    FreshValue (Version.tower [freshFile] []) [51] ⟨[51], 9, .kTypeValue, 7⟩ ∧
      (Version.tower [freshFile] []).SeenBy [51] 9 := by
  have hone : ∀ level, ∀ f ∈ (Version.tower [freshFile] []).files level, f = freshFile :=
    fun _ _ hf => List.mem_singleton.mp (Version.mem_of_mem_files_tower hf)
  refine ⟨⟨⟨freshFile, List.mem_singleton_self _, by simp [freshFile]⟩, rfl, rfl, ?_, ?_⟩,
    ?_, ?_⟩
  all_goals
    intro level f hf
    rw [hone level f hf]
    decide

/-- A tombstone from `2` to `4` is flushed with file 7. -/
def topLevelFlush : RDFUpdateMetadata Bytes :=
  { type := .kFlush
    topLevelPlrdfStringkeyFlushDelta := ⟨7, [([50], [52])], []⟩ }

/-- File 7 is compacted into file 8 on level 1, with a sampled key `5`. -/
def topLevelCompaction : RDFUpdateMetadata Bytes :=
  { type := .kCompaction
    splitFlag := true
    topLevelPlrdfStringkeyCompactionDelta := [⟨0, 1, [([50], [52])], [7]⟩]
    splitSampledKeysStr := [[53]]
    fdRangetombstonesInfo := some ⟨[⟨0, [7], [([50], [52])]⟩], 1, [⟨8, ([49], [57])⟩]⟩ }

/-- A key is written again after a tombstone over it has been compacted to level 1: the read
under the top-level filter misses the new value. -/
theorem topLevel_hides_fresh_value :
    ∃ b b', VersionRDFBundle.empty.applyDelta Bytes.stoll topLevelFlush = some b ∧
      b.applyDelta Bytes.stoll topLevelCompaction = some b' ∧
      FreshValue (Version.tower [freshFile] []) [51] ⟨[51], 9, .kTypeValue, 7⟩ ∧
      (Version.tower [freshFile] []).SeenBy [51] 9 ∧
      (Version.tower [freshFile] []).NewestFirst [51] ∧
      sampleSystem.get ⟨b', none, none⟩ .topLevelRdfStringKey (Version.tower [freshFile] []) 0
        [51] 9 {} = .notFound := by
  refine ⟨_, _, rfl, rfl, freshValue_freshFile.1, freshValue_freshFile.2,
    Version.newestFirst_tower (List.pairwise_singleton _ _), ?_⟩
  decide

theorem get_topLevel_eq_ok_sample :
    sampleSystem.get sampleFilters .topLevelRdfStringKey (Version.tower [freshFile] []) 0 [51] 9
      {} = .ok 7 :=
  (get_topLevel_eq_ok_iff sampleSystem sampleFilters 0 freshValue_freshFile.1
    freshValue_freshFile.2 (Version.newestFirst_tower (List.pairwise_singleton _ _))).2.mpr rfl

end ReadSystem

end Spry
