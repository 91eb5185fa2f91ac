import Spry.VersionGetSnapshot

/-!
# Merge operands above a tombstone

The newest entries of a key are operands, and below them lies the newest tombstone over the key.
The plain read collects the operands file by file; the file of the tombstone ends the collection,
either with an older entry, which the tombstone turns into the missing base, or after its lookup.
In the second case a deferred filter gets its turn before the operands are merged.
-/

namespace Spry

variable {K V : Type}

def ReadEnv.mergeOutcome (env : ReadEnv V) (operands : List V) : Outcome V :=
  match env.fullMerge none operands with
  | none => .error
  | some value => .ok value

theorem ReadEnv.mergeOutcome_ne_notFound (env : ReadEnv V) (operands : List V) :
    env.mergeOutcome operands ≠ .notFound := by
  unfold mergeOutcome
  cases env.fullMerge none operands with
  | none => simp
  | some value => simp

theorem GetContext.pushOperands_append (ctx : GetContext V) (es es' : List (PointEntry K V)) :
    ctx.pushOperands (es ++ es') = (ctx.pushOperands es).pushOperands es' :=
  List.foldl_append

theorem GetContext.pushOperands_withMax (ctx : GetContext V) (es : List (PointEntry K V))
    (seq : ℕ) :
    { ctx.pushOperands es with maxCoveringTombstoneSeq := seq } =
      { ctx with maxCoveringTombstoneSeq := seq }.pushOperands es := by
  induction es generalizing ctx with
  | nil => rfl
  | cons e es ih => exact ih (ctx.pushOperand e)

theorem ReadEnv.saveValues_covered (env : ReadEnv V) {ctx : GetContext V}
    (hctx : ctx.state = .kMerge) {e : PointEntry K V} (es : List (PointEntry K V))
    (hseq : e.seq < ctx.maxCoveringTombstoneSeq) :
    (env.saveValues ctx (e :: es)).state.outcome = some (env.mergeOutcome ctx.operands) := by
  have hdecides : ¬ e.IsOperand ctx.maxCoveringTombstoneSeq := fun h => not_lt.mpr h.2 hseq
  rw [env.saveValues_of_decides es hdecides, saveValue, if_pos hseq]
  simp only [saveDeletion, hctx, mergeOutcome]
  cases env.fullMerge none ctx.operands with
  | none => rfl
  | some value => rfl

variable [LinearOrder K]

namespace SstFile

variable (f : SstFile K V) (k : K) (snapshot : ℕ) (seq : ℕ)

/-- The visible entries of the key that a tombstone at `seq` leaves alone. -/
def above : List (PointEntry K V) := (f.visible k snapshot).filter (fun e => seq ≤ e.seq)

variable {f k snapshot seq}

theorem mem_above {e : PointEntry K V} :
    e ∈ f.above k snapshot seq ↔ e ∈ f.visible k snapshot ∧ seq ≤ e.seq := by
  simp [above]

theorem visible_eq_above_append :
    f.visible k snapshot = f.above k snapshot seq ++
      (f.visible k snapshot).filter (fun e => e.seq < seq) := by
  have hdesc := f.visible_descending k snapshot
  unfold above
  generalize f.visible k snapshot = es at hdesc
  induction es with
  | nil => rfl
  | cons e es ih =>
    obtain ⟨he, hes⟩ := List.pairwise_cons.mp hdesc
    by_cases hseq : seq ≤ e.seq
    · have hlt : ¬ e.seq < seq := not_lt.mpr hseq
      simp only [List.filter_cons, hseq, hlt, decide_true, decide_false, if_true]
      exact congrArg (e :: ·) (ih hes)
    · -- all later entries are older still
      have hlater : ∀ e' ∈ e :: es, e'.seq < seq := by
        intro e' he'
        cases List.mem_cons.mp he' with
        | inl heq => rw [heq]; omega
        | inr hmem =>
          have := he e' hmem
          omega
      have hnone : (e :: es).filter (fun e => decide (seq ≤ e.seq)) = [] := by
        rw [List.filter_eq_nil_iff]
        intro e' he'
        have := hlater e' he'
        simp [this]
      have hall : (e :: es).filter (fun e => decide (e.seq < seq)) = e :: es := by
        rw [List.filter_eq_self]
        intro e' he'
        simp [hlater e' he']
      rw [hnone, hall, List.nil_append]

end SstFile

namespace Version

theorem append_cons_cases {α : Type} {pre pre' post post' : List α} {p q : α}
    (h : pre ++ p :: post = pre' ++ q :: post') :
    (pre = pre' ∧ p = q ∧ post = post') ∨
      (∃ mid, pre' = pre ++ p :: mid) ∨
      (∃ mid, pre = pre' ++ q :: mid ∧ post' = mid ++ p :: post) := by
  cases List.append_eq_append_iff.mp h with
  | inl h =>
    obtain ⟨mid, hpre, hpost⟩ := h
    cases mid with
    | nil =>
      obtain ⟨rfl, rfl⟩ := List.cons.inj hpost
      exact Or.inl ⟨by simp [hpre], rfl, rfl⟩
    | cons r mid =>
      obtain ⟨rfl, _⟩ := List.cons.inj hpost
      exact Or.inr (Or.inl ⟨mid, hpre⟩)
  | inr h =>
    obtain ⟨mid, hpre, hpost⟩ := h
    cases mid with
    | nil =>
      obtain ⟨rfl, rfl⟩ := List.cons.inj hpost
      exact Or.inl ⟨by simp [hpre], rfl, rfl⟩
    | cons r mid =>
      obtain ⟨rfl, rfl⟩ := List.cons.inj hpost
      exact Or.inr (Or.inr ⟨mid, hpre, rfl⟩)

theorem finish_of_merge (env : ReadEnv V) {ctx : GetContext V} (h : ctx.state = .kMerge) :
    finish env ctx = env.mergeOutcome ctx.operands := by
  obtain ⟨state, operands, maxSeq⟩ := ctx
  cases h
  rfl

section Collect

variable {env : ReadEnv V} {k : K} {snapshot : ℕ}

theorem passes_append {ctx : GetContext V} (xs ys : List (ℕ × SstFile K V)) :
    Passes env k snapshot ctx (xs ++ ys) ↔
      Passes env k snapshot ctx xs ∧
        Passes env k snapshot (readContext env k snapshot ctx xs) ys := by
  induction xs generalizing ctx with
  | nil => simp [Passes, readContext]
  | cons p xs ih =>
    rw [List.cons_append, Passes, ih, Passes, and_assoc, and_assoc]
    rfl

theorem readContext_eq_pushOperands {ctx : GetContext V} (hctx : ctx.Reading)
    (hmax : ctx.maxCoveringTombstoneSeq = 0) {files : List (ℕ × SstFile K V)}
    (hpast : ∀ p ∈ files, p.2.maxCoveringTombstoneSeqnum k snapshot = 0)
    (hundecided : ∀ p ∈ files, p.2.Undecided k snapshot) :
    readContext env k snapshot ctx files =
      ctx.pushOperands (files.flatMap fun p => p.2.visible k snapshot) := by
  induction files generalizing ctx with
  | nil => rfl
  | cons p rest ih =>
    have hafter : ReadEnv.maxAfter ctx p.2 k snapshot = ctx.maxCoveringTombstoneSeq := by
      rw [ReadEnv.maxAfter, hpast p List.mem_cons_self, Nat.max_zero]
    have hnone : (env.tableGet ctx p.2 k snapshot).state.outcome = none := by
      rw [env.tableGet_outcome_eq_none hctx, hafter, hmax]
      intro e he
      exact ⟨hundecided p List.mem_cons_self e he, Nat.zero_le _⟩
    have htable : env.tableGet ctx p.2 k snapshot =
        ctx.pushOperands (p.2.visible k snapshot) := by
      rw [env.tableGet_of_outcome_eq_none hctx hnone, hafter]
    rw [List.flatMap_cons, GetContext.pushOperands_append, ← htable]
    apply ih (env.reading_tableGet hctx hnone)
    · rw [env.maxCovering_tableGet, hafter, hmax]
    · intro q hq
      exact hpast q (List.mem_cons_of_mem p hq)
    · intro q hq
      exact hundecided q (List.mem_cons_of_mem p hq)

end Collect

/-- The newest tombstone over the key, in the file `p` of the picker. -/
structure NewestTombstone (v : Version K V) (k : K) (pre : List (ℕ × SstFile K V))
    (p : ℕ × SstFile K V) (post : List (ℕ × SstFile K V)) (t : RangeTombstone K) : Prop where
  picks_eq : v.picks k = pre ++ p :: post
  mem : t ∈ p.2.tombstones
  covers : t.Covers k
  newest : ∀ level, ∀ f ∈ v.files level, ∀ u ∈ f.tombstones, u.Covers k → u.seq ≤ t.seq

/-- The entries of the key above the tombstone, newest first, are operands. -/
structure NewestOperands (v : Version K V) (k : K) (t : RangeTombstone K)
    (es : List (PointEntry K V)) : Prop where
  mem : ∀ e, e ∈ es ↔ e.key = k ∧ t.seq ≤ e.seq ∧ ∃ level, ∃ f ∈ v.files level, e ∈ f.points
  descending : es.Pairwise (fun a b => b.seq < a.seq)
  operands : ∀ e ∈ es, e.type = .kTypeMerge
  nonempty : es ≠ []

section Merge

variable {v : Version K V} {k : K} {snapshot : ℕ} {pre post : List (ℕ × SstFile K V)}
  {p : ℕ × SstFile K V} {t : RangeTombstone K} {es : List (PointEntry K V)}
  (hfirst : v.NewestFirst k) (hseen : v.SeenBy k snapshot)
  (ht : v.NewestTombstone k pre p post t)

theorem NewestTombstone.holds (ht : v.NewestTombstone k pre p post t) : p.2.Holds k t.seq :=
  Or.inr ⟨t, ht.mem, ht.covers, rfl⟩

theorem NewestTombstone.mem_files (ht : v.NewestTombstone k pre p post t)
    {q : ℕ × SstFile K V} (hq : q ∈ pre ++ p :: post) : q.2 ∈ v.files q.1 := by
  rw [← ht.picks_eq] at hq
  exact (mem_picks.mp hq).1

include hfirst ht

theorem seq_lt_of_mem_pre {q : ℕ × SstFile K V} (hq : q ∈ pre) {seq : ℕ}
    (hholds : q.2.Holds k seq) : t.seq < seq := by
  have hnewer := hfirst.picks
  rw [ht.picks_eq] at hnewer
  exact (List.pairwise_append.mp hnewer).2.2 q hq p List.mem_cons_self seq t.seq hholds ht.holds

theorem seq_lt_of_mem_post {q : ℕ × SstFile K V} (hq : q ∈ post) {seq : ℕ}
    (hholds : q.2.Holds k seq) : seq < t.seq := by
  have hnewer := hfirst.picks
  rw [ht.picks_eq] at hnewer
  have hrest := (List.pairwise_append.mp hnewer).2.1
  exact (List.pairwise_cons.mp hrest).1 q hq t.seq seq ht.holds hholds

theorem maxCovering_pre {q : ℕ × SstFile K V} (hq : q ∈ pre) :
    q.2.maxCoveringTombstoneSeqnum k snapshot = 0 := by
  apply SstFile.maxCovering_eq_zero
  intro u hu hcov
  have hlt := seq_lt_of_mem_pre hfirst ht hq (Or.inr ⟨u, hu, hcov, rfl⟩)
  have hle := ht.newest q.1 q.2 (ht.mem_files (List.mem_append_left _ hq)) u hu hcov
  omega

include hseen

omit hfirst in
theorem maxCovering_newestTombstone :
    p.2.maxCoveringTombstoneSeqnum k snapshot = t.seq := by
  have hfile := ht.mem_files (List.mem_append_right pre List.mem_cons_self)
  apply le_antisymm
  · exact SstFile.maxCovering_le (ht.newest p.1 p.2 hfile)
  · exact SstFile.seq_le_maxCovering ht.mem ht.covers
      (hseen.tombstones p.1 p.2 hfile t ht.mem ht.covers)

theorem eq_flatMap_above (hes : v.NewestOperands k t es) :
    es = (pre.flatMap fun q => q.2.visible k snapshot) ++ p.2.above k snapshot t.seq := by
  have hmem : ∀ e, e ∈ es ↔ e ∈ (pre.flatMap fun q => q.2.visible k snapshot) ++
      p.2.above k snapshot t.seq := by
    intro e
    symm
    rw [hes.mem, List.mem_append, List.mem_flatMap, SstFile.mem_above]
    constructor
    · intro h
      cases h with
      | inl h =>
        obtain ⟨q, hq, he⟩ := h
        obtain ⟨hpoint, hkey, _⟩ := SstFile.mem_visible.mp he
        have hlt := seq_lt_of_mem_pre hfirst ht hq (SstFile.holds_of_mem_visible he)
        exact ⟨hkey, hlt.le, q.1, q.2, ht.mem_files (List.mem_append_left _ hq), hpoint⟩
      | inr h =>
        obtain ⟨hpoint, hkey, _⟩ := SstFile.mem_visible.mp h.1
        exact ⟨hkey, h.2, p.1, p.2,
          ht.mem_files (List.mem_append_right _ List.mem_cons_self), hpoint⟩
    · intro h
      obtain ⟨hkey, hseq, level, f, hf, hpoint⟩ := h
      have hvis : e ∈ f.visible k snapshot :=
        SstFile.mem_visible.mpr ⟨hpoint, hkey, hseen.points level f hf e hpoint hkey⟩
      have hholds : f.Holds k e.seq := SstFile.holds_of_mem_visible hvis
      have hpick : (level, f) ∈ v.picks k := mem_picks.mpr ⟨hf, SstFile.overlaps_of_holds hholds⟩
      rw [ht.picks_eq, List.mem_append, List.mem_cons] at hpick
      obtain hpre | heq | hpost := hpick
      · exact Or.inl ⟨_, hpre, hvis⟩
      · rw [← heq]
        exact Or.inr ⟨hvis, hseq⟩
      · have hlt := seq_lt_of_mem_post hfirst ht hpost hholds
        omega
  have hdesc : ((pre.flatMap fun q => q.2.visible k snapshot) ++
      p.2.above k snapshot t.seq).Pairwise (fun a b => b.seq < a.seq) := by
    have hnewer := hfirst.picks
    rw [ht.picks_eq] at hnewer
    obtain ⟨hpre, _, hcross⟩ := List.pairwise_append.mp hnewer
    rw [List.pairwise_append, List.pairwise_flatMap]
    refine ⟨⟨fun q _ => q.2.visible_descending k snapshot, ?_⟩, ?_, ?_⟩
    · apply hpre.imp
      intro q q' hnew a ha b hb
      exact hnew a.seq b.seq (SstFile.holds_of_mem_visible ha)
        (SstFile.holds_of_mem_visible hb)
    · exact (p.2.visible_descending k snapshot).filter _
    · intro a ha b hb
      obtain ⟨q, hq, ha⟩ := List.mem_flatMap.mp ha
      exact hcross q hq p List.mem_cons_self a.seq b.seq (SstFile.holds_of_mem_visible ha)
        (SstFile.holds_of_mem_visible (SstFile.mem_above.mp hb).1)
  have : Std.Irrefl (fun a b : PointEntry K V => b.seq < a.seq) := ⟨fun a => lt_irrefl _⟩
  have : Std.Antisymm (fun a b : PointEntry K V => b.seq < a.seq) :=
    ⟨fun a b hab hba => absurd (hab.trans hba) (lt_irrefl _)⟩
  exact hes.descending.eq_of_mem_iff hdesc hmem

variable (env : ReadEnv V)

theorem reaches_tombstone (hes : v.NewestOperands k t es) :
    Passes env k snapshot {} pre ∧
      readContext env k snapshot {} pre =
        ({} : GetContext V).pushOperands (pre.flatMap fun q => q.2.visible k snapshot) := by
  have heq := eq_flatMap_above hfirst hseen ht hes
  have hundecided : ∀ q ∈ pre, q.2.Undecided k snapshot := by
    intro q hq e he
    apply hes.operands
    rw [heq]
    exact List.mem_append_left _ (List.mem_flatMap.mpr ⟨q, hq, he⟩)
  have hpast : ∀ q ∈ pre, q.2.maxCoveringTombstoneSeqnum k snapshot = 0 :=
    fun q hq => maxCovering_pre hfirst ht hq
  exact ⟨(passes_iff_undecided (Or.inl rfl) rfl hpast).mpr hundecided,
    readContext_eq_pushOperands (Or.inl rfl) rfl hpast hundecided⟩

/-- The lookup of the file of the tombstone: it decides nothing if the file has no older entry of
the key, and merges the operands otherwise. -/
theorem tableGet_newestTombstone (hes : v.NewestOperands k t es) :
    ((∀ e ∈ p.2.visible k snapshot, t.seq ≤ e.seq) ∧
        env.tableGet (readContext env k snapshot {} pre) p.2 k snapshot =
          ({ maxCoveringTombstoneSeq := t.seq } : GetContext V).pushOperands es) ∨
      ((∃ e ∈ p.2.visible k snapshot, e.seq < t.seq) ∧
        (env.tableGet (readContext env k snapshot {} pre) p.2 k snapshot).state.outcome =
          some (env.mergeOutcome (es.map fun e => e.value).reverse)) := by
  have heq := eq_flatMap_above hfirst hseen ht hes
  have hread := (reaches_tombstone hfirst hseen ht env hes).2
  have habove : ∀ e ∈ p.2.above k snapshot t.seq, e.IsOperand t.seq := by
    intro e he
    refine ⟨hes.operands e ?_, (SstFile.mem_above.mp he).2⟩
    rw [heq]
    exact List.mem_append_right _ he
  have hsplit := @SstFile.visible_eq_above_append K V _ p.2 k snapshot t.seq
  have htable : env.tableGet (readContext env k snapshot {} pre) p.2 k snapshot =
      env.saveValues (({ maxCoveringTombstoneSeq := t.seq } : GetContext V).pushOperands es)
        ((p.2.visible k snapshot).filter fun e => e.seq < t.seq) := by
    rw [ReadEnv.tableGet, hread, GetContext.maxCovering_pushOperands, Nat.zero_max,
      maxCovering_newestTombstone hseen ht, GetContext.pushOperands_withMax]
    nth_rewrite 1 [hsplit]
    rw [env.saveValues_operands_append _ (by simpa using habove), ← GetContext.pushOperands_append,
      ← heq]
  rw [htable]
  cases holder : (p.2.visible k snapshot).filter fun e => e.seq < t.seq with
  | nil =>
    refine Or.inl ⟨?_, rfl⟩
    intro e he
    have := List.filter_eq_nil_iff.mp holder e he
    simpa using this
  | cons e older =>
    have he : e ∈ (p.2.visible k snapshot).filter fun e => e.seq < t.seq := by
      rw [holder]
      exact List.mem_cons_self
    obtain ⟨hvis, hlt⟩ := List.mem_filter.mp he
    have hseq : e.seq < t.seq := by simpa using hlt
    refine Or.inr ⟨⟨e, hvis, hseq⟩, ?_⟩
    rw [env.saveValues_covered (GetContext.state_pushOperands_of_ne_nil _ (Or.inl hes.nonempty))
      older (by simpa using hseq), GetContext.operands_pushOperands]
    simp

theorem readFiles_eq_mergeOutcome (hes : v.NewestOperands k t es) :
    readFiles env k snapshot {} (v.picks k) =
      env.mergeOutcome (es.map fun e => e.value).reverse := by
  obtain ⟨hpass, hread⟩ := reaches_tombstone hfirst hseen ht env hes
  have hmax : (readContext env k snapshot {} pre).maxCoveringTombstoneSeq = 0 := by
    rw [hread, GetContext.maxCovering_pushOperands]
  rw [ht.picks_eq, readFiles_append env k snapshot _ hpass]
  simp only [readFiles, hmax, lt_irrefl, if_false]
  cases tableGet_newestTombstone hfirst hseen ht env hes with
  | inl h =>
    have hstate : (({ maxCoveringTombstoneSeq := t.seq } : GetContext V).pushOperands es).state =
        .kMerge := GetContext.state_pushOperands_of_ne_nil _ (Or.inl hes.nonempty)
    have hpos : 0 < (({ maxCoveringTombstoneSeq := t.seq } : GetContext V).pushOperands
        es).maxCoveringTombstoneSeq := by
      rw [GetContext.maxCovering_pushOperands]
      exact t.seq_pos
    rw [h.2, hstate]
    change readFiles env k snapshot _ post = _
    rw [readFiles_of_covered hpos, finish_of_merge env hstate, GetContext.operands_pushOperands]
    simp
  | inr h => rw [h.2]

variable {alive : Alive} {endLevel : ℕ}

/-- A sound deferred filter can only end the read on leaving the level of the tombstone, right
after its file. -/
theorem filterCloses_iff_leaves_tombstone (hes : v.NewestOperands k t es)
    (hsound : v.Sound k alive) :
    FilterCloses env k snapshot alive endLevel .deferred {} (v.picks k) ↔
      (∀ e ∈ p.2.visible k snapshot, t.seq ≤ e.seq) ∧ nextLevel endLevel post ≠ p.1 ∧
        rememberedFor alive (v.picks k) p.1 = false := by
  obtain ⟨hpass, hread⟩ := reaches_tombstone hfirst hseen ht env hes
  have hlookup := tableGet_newestTombstone hfirst hseen ht env hes
  have hsorted := v.picks_sorted k
  constructor
  · intro h
    obtain ⟨pre', q, post', heq, hpass', hlevel, hclosed⟩ := h
    obtain ⟨rfl, rfl, rfl⟩ | ⟨mid, rfl⟩ | ⟨mid, hpre, hpost⟩ :=
      append_cons_cases (ht.picks_eq.symm.trans heq)
    · -- the file of the tombstone itself
      refine ⟨?_, hlevel, hclosed⟩
      have hnone := ((passes_append _ _).mp hpass').2.2.1
      cases hlookup with
      | inl h => exact h.1
      | inr h =>
        rw [h.2] at hnone
        cases hnone
    · -- behind it the tombstone has been seen, and no file is read
      rw [show pre ++ p :: mid ++ [q] = (pre ++ [p]) ++ (mid ++ [q]) by simp, passes_append]
        at hpass'
      have hfile := ht.mem_files (List.mem_append_right pre List.mem_cons_self)
      have hle : t.seq ≤ (readContext env k snapshot {} (pre ++ [p])).maxCoveringTombstoneSeq :=
        seq_le_readContext (by simp) ht.mem ht.covers
          (hseen.tombstones p.1 p.2 hfile t ht.mem ht.covers)
      have hzero : (readContext env k snapshot {} (pre ++ [p])).maxCoveringTombstoneSeq = 0 := by
        cases mid with
        | nil => exact hpass'.2.1
        | cons r mid => exact hpass'.2.1
      have hpos := t.seq_pos
      omega
    · -- a level in front has no tombstone over the key
      have hq : q ∈ v.picks k := by rw [heq]; simp
      obtain ⟨f, hf, u, hu, hcov⟩ := hsound.exists_tombstone hq hclosed
      rw [heq] at hsorted
      have hlt : q.1 < p.1 :=
        level_lt_of_mem_post hsorted hlevel (by rw [hpost]; simp) q (by simp)
      have hfile := ht.mem_files (List.mem_append_right pre List.mem_cons_self)
      have hnewer := hfirst.levels q.1 p.1 hlt f hf p.2 hfile u.seq t.seq
        (Or.inr ⟨u, hu, hcov, rfl⟩) ht.holds
      have hle := ht.newest q.1 f hf u hu hcov
      omega
  · intro h
    obtain ⟨hvisible, hlevel, hclosed⟩ := h
    refine ⟨pre, p, post, ht.picks_eq, ?_, hlevel, hclosed⟩
    have hmax : (readContext env k snapshot {} pre).maxCoveringTombstoneSeq = 0 := by
      rw [hread, GetContext.maxCovering_pushOperands]
    rw [passes_append]
    refine ⟨hpass, hmax, ?_, trivial⟩
    cases hlookup with
    | inl h =>
      rw [h.2, GetContext.state_pushOperands_of_ne_nil _ (Or.inl hes.nonempty)]
      rfl
    | inr h =>
      obtain ⟨⟨e, he, hlt⟩, _⟩ := h
      have := hvisible e he
      omega

end Merge

end Version

namespace ReadSystem

variable (sys : ReadSystem K V) (fs : RangeFilters K) (v : Version K V) (endLevel : ℕ) (key : K)
  (snapshot : ℕ)

def deferredTypes : List RdfType := [.plrdf, .plrdfStringKey, .surfLfRdf]

/-- The newest entries of a key are operands above the newest tombstone over it. The plain read
returns their merge. Under a sound deferred filter the read does so exactly if the filter gives a
verdict and does not end the read on leaving the level of the tombstone, which it does if the
file of the tombstone has no older entry of the key and the remembered verdict is false. -/
theorem get_eq_mergeOutcome_iff (rdf : RdfType) (hrdf : rdf ∈ deferredTypes)
    (hfirst : v.NewestFirst key) (hseen : v.SeenBy key snapshot)
    (hsound : ∀ alive, sys.verdict fs rdf key = some alive → v.Sound key alive)
    (pre : List (ℕ × SstFile K V)) (p : ℕ × SstFile K V) (post : List (ℕ × SstFile K V))
    (t : RangeTombstone K) (ht : v.NewestTombstone key pre p post t)
    (es : List (PointEntry K V)) (hes : v.NewestOperands key t es) :
    sys.get fs .none v endLevel key snapshot {} =
        sys.env.mergeOutcome (es.map fun e => e.value).reverse ∧
      (sys.get fs rdf v endLevel key snapshot {} =
          sys.env.mergeOutcome (es.map fun e => e.value).reverse ↔
        ∃ alive, sys.verdict fs rdf key = some alive ∧
          ¬ ((∀ e ∈ p.2.visible key snapshot, t.seq ≤ e.seq) ∧
            Version.nextLevel endLevel post ≠ p.1 ∧
            Version.rememberedFor alive (v.picks key) p.1 = false)) := by
  have hmode : rdf.mode = .deferred := by
    cases rdf <;> simp_all [deferredTypes, RdfType.mode]
  have hplain : sys.get fs .none v endLevel key snapshot {} =
      sys.env.mergeOutcome (es.map fun e => e.value).reverse := by
    rw [sys.get_none]
    exact Version.readFiles_eq_mergeOutcome hfirst hseen ht sys.env hes
  refine ⟨hplain, ?_⟩
  cases hverdict : sys.verdict fs rdf key with
  | none =>
    have hthrows : sys.get fs rdf v endLevel key snapshot {} = .exception := by
      simp only [get, hverdict]
    rw [hthrows, ← hplain, sys.get_none]
    apply iff_of_false
    · exact (Version.readFiles_ne_exception _ _).symm
    · simp
  | some alive =>
    have hcloses := @Version.filterCloses_iff_leaves_tombstone K V _ v key snapshot pre post p t
      es hfirst hseen ht sys.env alive endLevel hes (hsound alive hverdict)
    simp only [Option.some.injEq, exists_eq_left', ← hcloses]
    by_cases hclosed : Version.FilterCloses sys.env key snapshot alive endLevel .deferred {}
        (v.picks key)
    · rw [sys.get_of_closes hverdict (by rw [hmode]; exact hclosed)]
      apply iff_of_false
      · exact (sys.env.mergeOutcome_ne_notFound _).symm
      · exact not_not.mpr hclosed
    · rw [sys.get_of_not_closes hverdict (by rw [hmode]; exact hclosed), hplain]
      exact iff_of_true rfl hclosed

/-- An operand 5 of the key `3` at 9, over a tombstone at 5, and an older value 7 at 2. -/
def operandEntry : PointEntry Bytes ℕ := ⟨[51], 9, .kTypeMerge, 5⟩

def baseEntry : PointEntry Bytes ℕ := ⟨[51], 2, .kTypeValue, 7⟩

def splitMergeVersion : Version Bytes ℕ := coveredVersion [operandEntry] (by simp) (by decide)

def joinedMergeVersion : Version Bytes ℕ :=
  Version.tower [] [tombstoneFile [operandEntry, baseEntry] (by decide) (by decide)]

def sampleTombstone : RangeTombstone Bytes := ⟨[50], [52], 5, tombstoneSeq_pos⟩

theorem seenBy_splitMergeVersion : splitMergeVersion.SeenBy [51] 9 := by
  constructor
  all_goals
    intro level f hf
    have hmem := Version.mem_of_mem_files_tower hf
    simp only [List.nil_append, List.mem_cons, List.not_mem_nil, or_false] at hmem
    cases hmem with
    | inl hmem => rw [hmem]; decide
    | inr hmem => rw [hmem]; decide

theorem newestOperands_tower {files : List (SstFile Bytes ℕ)}
    (hpoints : files.flatMap (fun f => f.points) = [operandEntry, baseEntry]) :
    (Version.tower [] files).NewestOperands [51] sampleTombstone [operandEntry] := by
  refine ⟨?_, List.pairwise_singleton _ _, by decide, by decide⟩
  intro e
  have hmem : (∃ level, ∃ f ∈ (Version.tower [] files).files level, e ∈ f.points) ↔
      e ∈ [operandEntry, baseEntry] := by
    rw [← hpoints, List.mem_flatMap]
    constructor
    · intro h
      obtain ⟨level, f, hf, he⟩ := h
      exact ⟨f, Version.mem_of_mem_files_tower hf, he⟩
    · intro h
      obtain ⟨f, hf, he⟩ := h
      obtain ⟨level, hlevel⟩ := Version.exists_mem_files_tower.mpr (List.mem_append_right [] hf)
      exact ⟨level, f, hlevel, he⟩
  rw [hmem, List.mem_singleton]
  constructor
  · intro h
    rw [h]
    decide
  · intro h
    obtain ⟨_, hseq, he⟩ := h
    cases List.mem_cons.mp he with
    | inl he => exact he
    | inr he =>
      rw [List.mem_singleton.mp he] at hseq
      exact absurd hseq (by decide)

theorem newestTombstone_tower {files : List (SstFile Bytes ℕ)} {post : List (ℕ × SstFile Bytes ℕ)}
    {f : SstFile Bytes ℕ} (hpicks : (Version.tower [] files).picks [51] = (1, f) :: post)
    (hf : f.tombstones = [sampleTombstone])
    (htombs : files.flatMap (fun f => f.tombstones) = [sampleTombstone]) :
    (Version.tower [] files).NewestTombstone [51] [] (1, f) post sampleTombstone := by
  refine ⟨hpicks, by simp [hf], by decide, ?_⟩
  intro level g hg u hu _
  have hmem : u ∈ files.flatMap (fun f => f.tombstones) :=
    List.mem_flatMap.mpr ⟨g, Version.mem_of_mem_files_tower hg, hu⟩
  rw [htombs, List.mem_singleton] at hmem
  rw [hmem]

/-- The operand is lost when the tombstone's file has no older entry of the key and the picker
goes on to the next level. -/
theorem plrdf_loses_operand :
    splitMergeVersion.NewestFirst [51] ∧ splitMergeVersion.SeenBy [51] 9 ∧
      splitMergeVersion.Exact [51]
        (fun level _ => tombstoneFilters.bundle.plrdfStringkey.isEntryAlive level [51]) ∧
      splitMergeVersion.NewestTombstone [51] []
        (1, tombstoneFile [operandEntry] (by simp) (by decide)) [(2, oldValueFile)]
        sampleTombstone ∧
      splitMergeVersion.NewestOperands [51] sampleTombstone [operandEntry] ∧
      sampleSystem.get tombstoneFilters .none splitMergeVersion 3 [51] 9 {} = .ok 5 ∧
      sampleSystem.get tombstoneFilters .plrdfStringKey splitMergeVersion 3 [51] 9 {} =
        .notFound := by
  refine ⟨newestFirst_coveredVersion (by decide), seenBy_splitMergeVersion, exact_coveredVersion,
    newestTombstone_tower rfl rfl rfl, newestOperands_tower rfl, by decide, by decide⟩

/-- With the older value in the file of the tombstone the operand is merged. -/
theorem get_eq_mergeOutcome_joined :
    sampleSystem.get tombstoneFilters .plrdfStringKey joinedMergeVersion 3 [51] 9 {} = .ok 5 := by
  have hone : ∀ level, ∀ f ∈ joinedMergeVersion.files level,
      f = tombstoneFile [operandEntry, baseEntry] (by decide) (by decide) :=
    fun _ _ hf => List.mem_singleton.mp (Version.mem_of_mem_files_tower hf)
  have hseen : joinedMergeVersion.SeenBy [51] 9 := by
    constructor
    all_goals
      intro level f hf
      rw [hone level f hf]
      decide
  have hsound : ∀ alive, sampleSystem.verdict tombstoneFilters .plrdfStringKey [51] = some alive →
      joinedMergeVersion.Sound [51] alive := by
    intro alive _ level f hf _ _
    rw [hone level f hf] at hf
    exact ⟨_, hf, sampleTombstone, List.mem_singleton_self _, by decide⟩
  refine (get_eq_mergeOutcome_iff sampleSystem tombstoneFilters joinedMergeVersion 3 [51] 9
    .plrdfStringKey (by decide) (Version.newestFirst_tower (List.pairwise_singleton _ _)) hseen
    hsound [] _ [] sampleTombstone (newestTombstone_tower rfl rfl rfl) [operandEntry]
    (newestOperands_tower rfl)).2.mpr ⟨_, rfl, ?_⟩
  intro h
  exact absurd (h.1 baseEntry (by decide)) (by decide)

end ReadSystem

end Spry
