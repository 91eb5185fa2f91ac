import Spry.StringKey
import Spry.TableGet
import Spry.VersionGetGate

/-!
# Filtered reads at the latest sequence number

Without merge operands a read that goes through a file has seen no entry of the key in it. A
false verdict of a filter stands for a tombstone of the level, so the unfiltered read finds
nothing either: the tombstone is met before the level is left, or, for a split filter, before any
entry of the key on that level.
-/

namespace Spry

variable {K V : Type} [LinearOrder K]

namespace Version

variable (v : Version K V) (k : K)

/-- Every entry of the key and every tombstone over it is at or below the snapshot. -/
structure SeenBy (snapshot : ℕ) : Prop where
  points : ∀ level, ∀ f ∈ v.files level, ∀ p ∈ f.points, p.key = k → p.seq ≤ snapshot
  tombstones : ∀ level, ∀ f ∈ v.files level, ∀ t ∈ f.tombstones, t.Covers k → t.seq ≤ snapshot

def NoOperands : Prop :=
  ∀ level, ∀ f ∈ v.files level, ∀ p ∈ f.points, p.key = k → p.type ≠ .kTypeMerge

/-- A false verdict for a level read there stands for a tombstone of that level over the key. -/
def Sound (alive : Alive) : Prop :=
  ∀ level, ∀ f ∈ v.files level, f.Overlaps k → alive level (some f.number) = false →
    ∃ g ∈ v.files level, ∃ t ∈ g.tombstones, t.Covers k

/-- A false verdict of a split filter stands for a tombstone of that level over the key that is
newer than every entry of the key on the level. -/
def SplitSound (alive : Alive) : Prop :=
  ∀ level, ∀ f ∈ v.files level, f.Overlaps k → alive level (some f.number) = false →
    ∃ g ∈ v.files level, ∃ t ∈ g.tombstones, t.Covers k ∧
      ∀ h ∈ v.files level, ∀ p ∈ h.points, p.key = k → p.seq < t.seq

variable {v k} {env : ReadEnv V} {snapshot : ℕ}

theorem finish_of_notFound {ctx : GetContext V} (h : ctx.state = .kNotFound) :
    finish env ctx = .notFound := by
  simp [finish, h]

theorem readFiles_of_covered {ctx : GetContext V} (h : 0 < ctx.maxCoveringTombstoneSeq)
    (files : List (ℕ × SstFile K V)) : readFiles env k snapshot ctx files = finish env ctx := by
  cases files with
  | nil => rfl
  | cons p rest => simp only [readFiles, h, if_true]

theorem maxCovering_le_readContext (ctx : GetContext V) (files : List (ℕ × SstFile K V)) :
    ctx.maxCoveringTombstoneSeq ≤
      (readContext env k snapshot ctx files).maxCoveringTombstoneSeq := by
  induction files generalizing ctx with
  | nil => exact le_rfl
  | cons p rest ih =>
    refine le_trans ?_ (ih (env.tableGet ctx p.2 k snapshot))
    rw [env.maxCovering_tableGet]
    exact le_max_left _ _

theorem seq_le_readContext {ctx : GetContext V} {files : List (ℕ × SstFile K V)}
    {p : ℕ × SstFile K V} (hp : p ∈ files) {t : RangeTombstone K} (ht : t ∈ p.2.tombstones)
    (hcov : t.Covers k) (hseq : t.seq ≤ snapshot) :
    t.seq ≤ (readContext env k snapshot ctx files).maxCoveringTombstoneSeq := by
  induction files generalizing ctx with
  | nil => cases hp
  | cons q rest ih =>
    cases List.mem_cons.mp hp with
    | inl heq =>
      subst heq
      refine le_trans ?_ (maxCovering_le_readContext (env.tableGet ctx p.2 k snapshot) rest)
      rw [env.maxCovering_tableGet]
      exact (SstFile.seq_le_maxCovering ht hcov hseq).trans (le_max_right _ _)
    | inr hp => exact ih hp

theorem state_tableGet_of_visible_eq_nil {ctx : GetContext V} {f : SstFile K V}
    (h : f.visible k snapshot = []) : (env.tableGet ctx f k snapshot).state = ctx.state := by
  simp only [ReadEnv.tableGet, h, ReadEnv.saveValues]

theorem readFiles_cons_of_visible_eq_nil {ctx : GetContext V} {p : ℕ × SstFile K V}
    (hctx : ctx.state = .kNotFound) (hmax : ¬ 0 < ctx.maxCoveringTombstoneSeq)
    (hvis : p.2.visible k snapshot = []) (rest : List (ℕ × SstFile K V)) :
    (env.tableGet ctx p.2 k snapshot).state = .kNotFound ∧
      readFiles env k snapshot ctx (p :: rest) =
        readFiles env k snapshot (env.tableGet ctx p.2 k snapshot) rest := by
  have hstate : (env.tableGet ctx p.2 k snapshot).state = .kNotFound := by
    rw [state_tableGet_of_visible_eq_nil hvis, hctx]
  refine ⟨hstate, ?_⟩
  simp only [readFiles, hmax, if_false, hstate]
  rfl

theorem visible_eq_nil_of_passes {ctx : GetContext V} {f : SstFile K V}
    (hctx : ctx.state = .kNotFound)
    (hplain : ∀ e ∈ f.points, e.key = k → e.type ≠ .kTypeMerge)
    (hnone : (env.tableGet ctx f k snapshot).state.outcome = none) :
    f.visible k snapshot = [] := by
  rw [List.eq_nil_iff_forall_not_mem]
  intro e he
  have hoperand := (env.tableGet_outcome_eq_none (Or.inl hctx)).mp hnone e he
  obtain ⟨hpoint, hkey, _⟩ := SstFile.mem_visible.mp he
  exact hplain e hpoint hkey hoperand.1

theorem state_readContext {ctx : GetContext V} {files : List (ℕ × SstFile K V)}
    (hctx : ctx.state = .kNotFound)
    (hplain : ∀ p ∈ files, ∀ e ∈ p.2.points, e.key = k → e.type ≠ .kTypeMerge)
    (hpass : Passes env k snapshot ctx files) :
    (readContext env k snapshot ctx files).state = .kNotFound := by
  induction files generalizing ctx with
  | nil => exact hctx
  | cons p rest ih =>
    obtain ⟨_, hnone, hrest⟩ := hpass
    have hnil := visible_eq_nil_of_passes hctx (hplain p List.mem_cons_self) hnone
    apply ih
    · rw [state_tableGet_of_visible_eq_nil hnil, hctx]
    · intro q hq
      exact hplain q (List.mem_cons_of_mem p hq)
    · exact hrest

/-- The tombstone of the level is met before any entry of the key: files in front of it on the
level would hold newer entries, and its own file holds older ones only. -/
theorem readFiles_of_hidden {ctx : GetContext V} {files : List (ℕ × SstFile K V)}
    (hctx : ctx.state = .kNotFound)
    (hsorted : files.Pairwise (fun p q => p.1 ≤ q.1))
    (hnewest : files.Pairwise (fun p q => SstFile.NewerFor k p.2 q.2))
    {level : ℕ} (hlevel : ∀ p ∈ files, level ≤ p.1) {q : ℕ × SstFile K V} (hq : q ∈ files)
    (hqlevel : q.1 = level) {t : RangeTombstone K} (ht : t ∈ q.2.tombstones)
    (hcov : t.Covers k) (hseq : t.seq ≤ snapshot)
    (holder : ∀ p ∈ files, p.1 = level → ∀ e ∈ p.2.points, e.key = k → e.seq < t.seq) :
    readFiles env k snapshot ctx files = .notFound := by
  induction files generalizing ctx with
  | nil => cases hq
  | cons p rest ih =>
    by_cases hmax : 0 < ctx.maxCoveringTombstoneSeq
    · rw [readFiles_of_covered hmax, finish_of_notFound hctx]
    obtain ⟨hle, hsorted⟩ := List.pairwise_cons.mp hsorted
    obtain ⟨hnew, hnewest⟩ := List.pairwise_cons.mp hnewest
    cases List.mem_cons.mp hq with
    | inl heq =>
      subst heq
      have hmaxt : t.seq ≤ ReadEnv.maxAfter ctx q.2 k snapshot :=
        (SstFile.seq_le_maxCovering ht hcov hseq).trans (le_max_right _ _)
      cases hvis : q.2.visible k snapshot with
      | nil =>
        obtain ⟨hstate, hpass⟩ := readFiles_cons_of_visible_eq_nil hctx hmax hvis rest
        have hpos : 0 < (env.tableGet ctx q.2 k snapshot).maxCoveringTombstoneSeq := by
          rw [env.maxCovering_tableGet]
          exact t.seq_pos.trans_le hmaxt
        rw [hpass, readFiles_of_covered hpos, finish_of_notFound hstate]
      | cons e es =>
        -- the newest visible entry lies under the tombstone and counts as deleted
        have he : e ∈ q.2.visible k snapshot := by rw [hvis]; exact List.mem_cons_self
        obtain ⟨hpoint, hkey, _⟩ := SstFile.mem_visible.mp he
        have hlt : e.seq < ReadEnv.maxAfter ctx q.2 k snapshot :=
          (holder q List.mem_cons_self hqlevel e hpoint hkey).trans_le hmaxt
        have hstate : (env.tableGet ctx q.2 k snapshot).state = .kDeleted := by
          unfold ReadEnv.maxAfter at hlt
          simp only [ReadEnv.tableGet, hvis, ReadEnv.saveValues, ReadEnv.saveValue, hlt,
            if_true, ReadEnv.saveDeletion, hctx]
        simp only [readFiles, hmax, if_false, hstate]
        rfl
    | inr hmem =>
      have hplevel : p.1 = level :=
        le_antisymm (hqlevel ▸ hle q hmem) (hlevel p List.mem_cons_self)
      have hvis : p.2.visible k snapshot = [] := by
        rw [List.eq_nil_iff_forall_not_mem]
        intro e he
        obtain ⟨hpoint, hkey, _⟩ := SstFile.mem_visible.mp he
        have hold := holder p List.mem_cons_self hplevel e hpoint hkey
        have hyoung := hnew q hmem e.seq t.seq (SstFile.holds_of_mem_visible he)
          (Or.inr ⟨t, ht, hcov, rfl⟩)
        omega
      obtain ⟨hstate, hpass⟩ := readFiles_cons_of_visible_eq_nil hctx hmax hvis rest
      rw [hpass]
      exact ih hstate hsorted hnewest (fun p' hp' => hlevel p' (List.mem_cons_of_mem p hp'))
        hmem (fun p' hp' => holder p' (List.mem_cons_of_mem p hp'))

theorem level_lt_of_mem_post {pre post : List (ℕ × SstFile K V)} {p q : ℕ × SstFile K V}
    {endLevel : ℕ} (hsorted : (pre ++ p :: post).Pairwise (fun p q => p.1 ≤ q.1))
    (hlevel : nextLevel endLevel post ≠ p.1) (hq : q ∈ post) :
    ∀ r ∈ pre ++ [p], r.1 < q.1 := by
  obtain ⟨_, hpost, hcross⟩ := List.pairwise_append.mp hsorted
  obtain ⟨hp, hpost⟩ := List.pairwise_cons.mp hpost
  have hlt : p.1 < q.1 := by
    cases post with
    | nil => cases hq
    | cons q' post =>
      have hfirst : p.1 < q'.1 := lt_of_le_of_ne (hp q' List.mem_cons_self) (Ne.symm hlevel)
      cases List.mem_cons.mp hq with
      | inl heq => rw [heq]; exact hfirst
      | inr hq => exact hfirst.trans_le ((List.pairwise_cons.mp hpost).1 q hq)
  intro r hr
  cases List.mem_append.mp hr with
  | inl hr => exact (hcross r hr p List.mem_cons_self).trans_lt hlt
  | inr hr => rw [List.mem_singleton.mp hr]; exact hlt

theorem mem_picks_of_covers {level : ℕ} {g : SstFile K V} (hg : g ∈ v.files level)
    {t : RangeTombstone K} (ht : t ∈ g.tombstones) (hcov : t.Covers k) :
    (level, g) ∈ v.picks k :=
  mem_picks.mpr ⟨hg, SstFile.overlaps_of_holds (Or.inr ⟨t, ht, hcov, rfl⟩)⟩

theorem NoOperands.of_picks (hplain : v.NoOperands k) {pre post : List (ℕ × SstFile K V)}
    (h : v.picks k = pre ++ post) :
    ∀ p ∈ pre, ∀ e ∈ p.2.points, e.key = k → e.type ≠ .kTypeMerge := by
  intro p hp
  have hpick : p ∈ v.picks k := by
    rw [h]
    exact List.mem_append_left _ hp
  exact hplain p.1 p.2 (mem_picks.mp hpick).1

theorem readFiles_of_hidden_level {alive : Alive} {endLevel : ℕ} {ctx : GetContext V}
    (hctx : ctx.state = .kNotFound) (hseen : v.SeenBy k snapshot) (hnewest : v.NewestFirst k)
    (hsound : v.SplitSound k alive)
    {pre post : List (ℕ × SstFile K V)} (heq : v.picks k = pre ++ post)
    (hlevels : ∀ q ∈ post, ∀ r ∈ pre, r.1 < q.1)
    (hclosed : nextAlive alive endLevel post = false) :
    readFiles env k snapshot ctx post = .notFound := by
  have hsorted := v.picks_sorted k
  have hnew := hnewest.picks
  rw [heq] at hsorted hnew
  cases post with
  | nil => exact finish_of_notFound hctx
  | cons q post =>
    have hqpick : q ∈ v.picks k := by rw [heq]; simp
    obtain ⟨hqfile, hqover⟩ := mem_picks.mp hqpick
    obtain ⟨g, hg, t, ht, hcov, holder⟩ := hsound q.1 q.2 hqfile hqover hclosed
    have hgpick := mem_picks_of_covers hg ht hcov
    have hgpost : (q.1, g) ∈ q :: post := by
      rw [heq] at hgpick
      cases List.mem_append.mp hgpick with
      | inl hpre => exact absurd (hlevels q List.mem_cons_self _ hpre) (lt_irrefl _)
      | inr hpost => exact hpost
    have hfirst : ∀ p ∈ q :: post, q.1 ≤ p.1 := by
      intro p hp
      cases List.mem_cons.mp hp with
      | inl hp => rw [hp]
      | inr hp =>
        exact (List.pairwise_cons.mp (List.pairwise_append.mp hsorted).2.1).1 p hp
    refine readFiles_of_hidden hctx (List.pairwise_append.mp hsorted).2.1
      (List.pairwise_append.mp hnew).2.1 hfirst hgpost rfl ht hcov
      (hseen.tombstones _ g hg t ht hcov) ?_
    intro p hp hplevel e he hkey
    have hppick : p ∈ v.picks k := by
      rw [heq]
      exact List.mem_append_right _ hp
    exact holder p.2 (hplevel ▸ (mem_picks.mp hppick).1) e he hkey

theorem Sound.exists_tombstone {alive : Alive} (hsound : v.Sound k alive)
    {p : ℕ × SstFile K V} (hmem : p ∈ v.picks k)
    (hclosed : rememberedFor alive (v.picks k) p.1 = false) :
    ∃ f ∈ v.files p.1, ∃ t ∈ f.tombstones, t.Covers k := by
  -- the verdict was asked for with the first file of the level
  obtain ⟨g, hg⟩ : ∃ g, (v.picks k).find? (fun q => q.1 = p.1) = some g := by
    cases hfind : (v.picks k).find? (fun q => q.1 = p.1) with
    | some g => exact ⟨g, rfl⟩
    | none => exact absurd (List.find?_eq_none.mp hfind p hmem) (by simp)
  have hglevel : g.1 = p.1 := by simpa using List.find?_some hg
  obtain ⟨hgfile, hgover⟩ := mem_picks.mp (List.mem_of_find?_eq_some hg)
  rw [hglevel] at hgfile
  rw [rememberedFor, hg] at hclosed
  exact hsound p.1 g.2 hgfile hgover hclosed

section Closes

variable {alive : Alive} {endLevel : ℕ} {ctx : GetContext V}
  (hctx : ctx.state = .kNotFound) (hplain : v.NoOperands k) (hseen : v.SeenBy k snapshot)
include hctx hplain hseen

/-- Where a deferred filter ends the read, the level that is left had a tombstone over the key,
so the plain read stops as well. -/
theorem readFiles_of_deferred_closes (hsound : v.Sound k alive)
    (h : GateCloses env k snapshot endLevel ctx (v.picks k)
      (fun p _ => rememberedFor alive (v.picks k) p.1 = false)) :
    readFiles env k snapshot ctx (v.picks k) = .notFound := by
  obtain ⟨pre, p, post, heq, hpass, hlevel, hclosed⟩ := h
  have hsorted := v.picks_sorted k
  have hmem : p ∈ v.picks k := by rw [heq]; simp
  obtain ⟨f, hf, t, ht, hcov⟩ := hsound.exists_tombstone hmem hclosed
  have hfpick : (p.1, f) ∈ pre ++ [p] := by
    have hpick := mem_picks_of_covers hf ht hcov
    rw [heq] at hpick hsorted
    cases List.mem_append.mp hpick with
    | inl hpre => exact List.mem_append_left _ hpre
    | inr hpost =>
      cases List.mem_cons.mp hpost with
      | inl hp => rw [hp]; simp
      | inr hpost =>
        have := level_lt_of_mem_post hsorted hlevel hpost p (by simp)
        exact absurd this (lt_irrefl _)
  have hmax : t.seq ≤ (readContext env k snapshot ctx (pre ++ [p])).maxCoveringTombstoneSeq :=
    seq_le_readContext hfpick ht hcov (hseen.tombstones _ f hf t ht hcov)
  have hpos := t.seq_pos.trans_le hmax
  have hsplit : v.picks k = (pre ++ [p]) ++ post := by simp [heq]
  have hstate := state_readContext hctx (hplain.of_picks hsplit) hpass
  rw [hsplit, readFiles_append env k snapshot post hpass, readFiles_of_covered hpos,
    finish_of_notFound hstate]

theorem readFiles_of_eager_closes (hnewest : v.NewestFirst k) (hsound : v.SplitSound k alive)
    (h : GateCloses env k snapshot endLevel ctx (v.picks k)
      (fun _ post => nextAlive alive endLevel post = false)) :
    readFiles env k snapshot ctx (v.picks k) = .notFound := by
  obtain ⟨pre, p, post, heq, hpass, hlevel, hclosed⟩ := h
  have hsorted := v.picks_sorted k
  rw [heq] at hsorted
  have hsplit : v.picks k = (pre ++ [p]) ++ post := by simp [heq]
  have hstate := state_readContext hctx (hplain.of_picks hsplit) hpass
  rw [hsplit, readFiles_append env k snapshot post hpass]
  exact readFiles_of_hidden_level hstate hseen hnewest hsound hsplit
    (fun q hq => level_lt_of_mem_post hsorted hlevel hq) hclosed

end Closes

end Version

namespace ReadSystem

/-- The filter types the unfiltered read is compared with: the verdict is deferred, or given by a
split filter over the levels. -/
def comparedTypes : List RdfType :=
  [.plrdf, .plrdfStringKey, .surfLfRdf, .splitPlrdf, .splitPlrdfStringKey]

variable (sys : ReadSystem K V) (fs : RangeFilters K) (v : Version K V) (endLevel : ℕ) (key : K)
  (snapshot : ℕ)

theorem verdict_eq_none_iff (rdf : RdfType) :
    sys.verdict fs rdf key = none ↔
      (rdf = .plrdf ∨ rdf = .splitPlrdf ∨ rdf = .topLevelRdf) ∧ sys.stoll key = none := by
  cases rdf <;> simp [verdict]

/-- At a sequence number that sees everything, a sound filter changes no read of a key that its
numeric form can convert. -/
theorem get_eq_get_none (rdf : RdfType) (hrdf : rdf ∈ comparedTypes)
    (hkey : rdf = .plrdf ∨ rdf = .splitPlrdf → ∃ n, sys.stoll key = some n)
    (hplain : v.NoOperands key) (hseen : v.SeenBy key snapshot) (hnewest : v.NewestFirst key)
    (hsound : ∀ alive, sys.verdict fs rdf key = some alive →
      (rdf.mode = .deferred → v.Sound key alive) ∧ (rdf.mode = .eager → v.SplitSound key alive))
    (maxSeq : ℕ) :
    sys.get fs rdf v endLevel key snapshot ⟨.kNotFound, [], maxSeq⟩ =
      sys.get fs .none v endLevel key snapshot ⟨.kNotFound, [], maxSeq⟩ := by
  have hmode : rdf.mode = .deferred ∨ rdf.mode = .eager := by
    cases rdf <;> simp_all [comparedTypes, RdfType.mode]
  cases hverdict : sys.verdict fs rdf key with
  | none =>
    obtain ⟨hnum, hthrow⟩ := (sys.verdict_eq_none_iff fs key rdf).mp hverdict
    have hnum' : rdf = .plrdf ∨ rdf = .splitPlrdf := by
      cases rdf <;> simp_all [comparedTypes]
    obtain ⟨n, hn⟩ := hkey hnum'
    rw [hthrow] at hn
    cases hn
  | some alive =>
    obtain ⟨hdeferred, heager⟩ := hsound alive hverdict
    by_cases hcloses : Version.FilterCloses sys.env key snapshot alive endLevel rdf.mode
        ⟨.kNotFound, [], maxSeq⟩ (v.picks key)
    · rw [sys.get_of_closes hverdict hcloses, sys.get_none]
      symm
      cases hmode with
      | inl hmode =>
        rw [hmode] at hcloses
        exact Version.readFiles_of_deferred_closes rfl hplain hseen (hdeferred hmode) hcloses
      | inr hmode =>
        rw [hmode] at hcloses
        cases hcloses with
        | inl hstart =>
          exact Version.readFiles_of_hidden_level rfl hseen hnewest (heager hmode)
            (List.nil_append _).symm (by simp) hstart
        | inr hcloses =>
          exact Version.readFiles_of_eager_closes rfl hplain hseen hnewest (heager hmode)
            hcloses
    · exact sys.get_of_not_closes hverdict hcloses

def sumEnv : ReadEnv ℕ := ⟨fun base operands => some (base.getD 0 + operands.sum), some, some⟩

def sampleSystem : ReadSystem Bytes ℕ := ⟨sumEnv, Bytes.stoll, ⟨true, false, id, id⟩⟩

def sampleFilters : RangeFilters Bytes :=
  ⟨{ VersionRDFBundle.empty with plrdf := ⟨∅, [[], [(10, 20)]], [[], []]⟩ }, none, none⟩

def lettersFile : SstFile Bytes ℕ :=
  { number := 4
    smallest := [97, 98, 99]
    largest := [97, 98, 99]
    points := [⟨[97, 98, 99], 1, .kTypeValue, 7⟩]
    tombstones := []
    sorted := by simp
    points_within := by simp
    tombstones_within := by simp }

/-- A key that is no number: the numeric filter throws where the plain read finds the value. -/
theorem get_plrdf_throws :
    (Version.tower [lettersFile] []).NoOperands [97, 98, 99] ∧
      (Version.tower [lettersFile] []).SeenBy [97, 98, 99] 1 ∧
      (Version.tower [lettersFile] []).NewestFirst [97, 98, 99] ∧
      sampleSystem.verdict sampleFilters .plrdf [97, 98, 99] = none ∧
      sampleSystem.get sampleFilters .plrdf (Version.tower [lettersFile] []) 0 [97, 98, 99] 1 {} =
        .exception ∧
      sampleSystem.get sampleFilters .none (Version.tower [lettersFile] []) 0 [97, 98, 99] 1 {} =
        .ok 7 := by
  have hone : ∀ level, ∀ f ∈ (Version.tower [lettersFile] []).files level, f = lettersFile :=
    fun _ _ hf => List.mem_singleton.mp (Version.mem_of_mem_files_tower hf)
  refine ⟨?_, ⟨?_, ?_⟩, Version.newestFirst_tower (List.pairwise_singleton _ _), ?_, ?_, ?_⟩
  · intro level f hf
    rw [hone level f hf]
    decide
  · intro level f hf
    rw [hone level f hf]
    decide
  · intro level f hf
    rw [hone level f hf]
    decide
  · rfl
  · rfl
  · decide

theorem tombstoneSeq_pos : 0 < 5 := by decide

theorem tombstone_nonempty :
    ∀ t ∈ [(⟨[50], [52], 5, tombstoneSeq_pos⟩ : RangeTombstone Bytes)], t.start < t.stop := by
  decide

theorem tombstone_within :
    ∀ t ∈ [(⟨[50], [52], 5, tombstoneSeq_pos⟩ : RangeTombstone Bytes)],
      [50] ≤ t.start ∧ t.stop ≤ [52] := by
  decide

/-- The key `12` under a tombstone from `10` to `20`, all on one level. -/
def coveredFile : SstFile Bytes ℕ :=
  { number := 4
    smallest := [49, 48]
    largest := [50, 48]
    points := [⟨[49, 50], 3, .kTypeValue, 7⟩]
    tombstones := [⟨[49, 48], [50, 48], 5, tombstoneSeq_pos⟩]
    sorted := by simp
    points_within := by decide
    tombstones_within := by decide }

theorem get_eq_get_none_covered :
    sampleSystem.verdict sampleFilters .plrdf [49, 50] ≠ none ∧
      sampleSystem.get sampleFilters .plrdf (Version.tower [] [coveredFile]) 2 [49, 50] 9 {} =
        sampleSystem.get sampleFilters .none (Version.tower [] [coveredFile]) 2 [49, 50] 9 {} := by
  have hone : ∀ level, ∀ f ∈ (Version.tower [] [coveredFile]).files level, f = coveredFile :=
    fun _ _ hf => List.mem_singleton.mp (Version.mem_of_mem_files_tower hf)
  refine ⟨by simp [verdict, sampleSystem, show Bytes.stoll [49, 50] = some 12 by decide], ?_⟩
  apply get_eq_get_none
  · decide
  · exact fun _ => ⟨12, by decide⟩
  · intro level f hf
    rw [hone level f hf]
    decide
  · refine ⟨?_, ?_⟩
    · intro level f hf
      rw [hone level f hf]
      decide
    · intro level f hf
      rw [hone level f hf]
      decide
  · exact Version.newestFirst_tower (List.pairwise_singleton _ _)
  · intro alive _
    refine ⟨?_, fun h => by cases h⟩
    intro _ level f hf _ _
    rw [hone level f hf] at hf
    exact ⟨coveredFile, hf, ⟨[49, 48], [50, 48], 5, by decide⟩, by simp [coveredFile], by decide⟩

end ReadSystem

end Spry
