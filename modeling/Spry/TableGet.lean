import Spry.VersionGet

/-!
# What the lookup of one file does to the read

The entries of a key are handed over newest first. Merge operands at or above the largest
covering tombstone are collected; the first other entry decides the read. A lookup that decides
nothing has only collected operands.
-/

namespace Spry

variable {K V : Type}

def GetContext.Reading (ctx : GetContext V) : Prop :=
  ctx.state = .kNotFound ∨ ctx.state = .kMerge

/-- An entry that a covering tombstone at `seq` leaves an operand. -/
def PointEntry.IsOperand (seq : ℕ) (e : PointEntry K V) : Prop :=
  e.type = .kTypeMerge ∧ seq ≤ e.seq

instance (seq : ℕ) (e : PointEntry K V) : Decidable (e.IsOperand seq) :=
  inferInstanceAs (Decidable (_ ∧ _))

def GetContext.pushOperand (ctx : GetContext V) (e : PointEntry K V) : GetContext V :=
  { ctx with state := .kMerge, operands := e.value :: ctx.operands }

def GetContext.pushOperands (ctx : GetContext V) (es : List (PointEntry K V)) : GetContext V :=
  es.foldl GetContext.pushOperand ctx

namespace GetContext

@[simp] theorem maxCovering_pushOperands (ctx : GetContext V) (es : List (PointEntry K V)) :
    (ctx.pushOperands es).maxCoveringTombstoneSeq = ctx.maxCoveringTombstoneSeq := by
  induction es generalizing ctx with
  | nil => rfl
  | cons e es ih => exact ih (ctx.pushOperand e)

theorem operands_pushOperands (ctx : GetContext V) (es : List (PointEntry K V)) :
    (ctx.pushOperands es).operands = (es.map (fun e => e.value)).reverse ++ ctx.operands := by
  induction es generalizing ctx with
  | nil => rfl
  | cons e es ih =>
    change ((ctx.pushOperand e).pushOperands es).operands = _
    rw [ih]
    simp [pushOperand]

theorem reading_pushOperands {ctx : GetContext V} (h : ctx.Reading)
    (es : List (PointEntry K V)) : (ctx.pushOperands es).Reading := by
  induction es generalizing ctx with
  | nil => exact h
  | cons e es ih => exact ih (Or.inr rfl)

theorem state_pushOperands_of_ne_nil (ctx : GetContext V) {es : List (PointEntry K V)}
    (h : es ≠ [] ∨ ctx.state = .kMerge) : (ctx.pushOperands es).state = .kMerge := by
  induction es generalizing ctx with
  | nil => exact h.resolve_left (fun h => h rfl)
  | cons e es ih => exact ih (ctx.pushOperand e) (Or.inr rfl)

theorem outcome_of_reading {ctx : GetContext V} (h : ctx.Reading) : ctx.state.outcome = none := by
  cases h with
  | inl h => rw [h]; rfl
  | inr h => rw [h]; rfl

end GetContext

namespace ReadEnv

variable (env : ReadEnv V)

theorem saveValue_operand {ctx : GetContext V} {e : PointEntry K V}
    (h : e.IsOperand ctx.maxCoveringTombstoneSeq) :
    env.saveValue ctx e = (ctx.pushOperand e, true) := by
  obtain ⟨htype, hseq⟩ := h
  rw [saveValue, if_neg (not_lt.mpr hseq)]
  simp only [htype]
  rfl

theorem foundOr_outcome_ne_none (value : Option V) : (foundOr value).outcome ≠ none := by
  cases value with
  | none => simp [foundOr, GetState.outcome]
  | some value => simp [foundOr, GetState.outcome]

theorem saveDeletion_outcome_ne_none (ctx : GetContext V) :
    (env.saveDeletion ctx).state.outcome ≠ none := by
  unfold saveDeletion
  split
  · exact foundOr_outcome_ne_none _
  · simp [GetState.outcome]

theorem saveBase_outcome_ne_none (ctx : GetContext V) (value : Option V) :
    (env.saveBase ctx value).state.outcome ≠ none := by
  unfold saveBase
  split
  · exact foundOr_outcome_ne_none _
  · exact foundOr_outcome_ne_none _

theorem saveValue_decides {ctx : GetContext V} {e : PointEntry K V}
    (h : ¬ e.IsOperand ctx.maxCoveringTombstoneSeq) :
    (env.saveValue ctx e).2 = false ∧ (env.saveValue ctx e).1.state.outcome ≠ none := by
  unfold saveValue
  by_cases hseq : e.seq < ctx.maxCoveringTombstoneSeq
  · rw [if_pos hseq]
    exact ⟨rfl, env.saveDeletion_outcome_ne_none ctx⟩
  · rw [if_neg hseq]
    cases htype : e.type with
    | kTypeValue => exact ⟨rfl, env.saveBase_outcome_ne_none ctx _⟩
    | kTypeBlobIndex => exact ⟨rfl, env.saveBase_outcome_ne_none ctx _⟩
    | kTypeWideColumnEntity => exact ⟨rfl, env.saveBase_outcome_ne_none ctx _⟩
    | kTypeDeletion => exact ⟨rfl, env.saveDeletion_outcome_ne_none ctx⟩
    | kTypeSingleDeletion => exact ⟨rfl, env.saveDeletion_outcome_ne_none ctx⟩
    | kTypeMerge => exact absurd ⟨htype, not_lt.mp hseq⟩ h

theorem saveValues_operands_append {ctx : GetContext V} {es : List (PointEntry K V)}
    (rest : List (PointEntry K V))
    (h : ∀ e ∈ es, e.IsOperand ctx.maxCoveringTombstoneSeq) :
    env.saveValues ctx (es ++ rest) = env.saveValues (ctx.pushOperands es) rest := by
  induction es generalizing ctx with
  | nil => rfl
  | cons e es ih =>
    rw [List.cons_append, saveValues, saveValue_operand env (h e List.mem_cons_self)]
    exact ih (fun e' he' => h e' (List.mem_cons_of_mem e he'))

theorem saveValues_operands {ctx : GetContext V} {es : List (PointEntry K V)}
    (h : ∀ e ∈ es, e.IsOperand ctx.maxCoveringTombstoneSeq) :
    env.saveValues ctx es = ctx.pushOperands es := by
  have := env.saveValues_operands_append [] h
  rwa [List.append_nil] at this

theorem saveValues_of_decides {ctx : GetContext V} {e : PointEntry K V}
    (es : List (PointEntry K V)) (h : ¬ e.IsOperand ctx.maxCoveringTombstoneSeq) :
    env.saveValues ctx (e :: es) = (env.saveValue ctx e).1 := by
  have hmore := (env.saveValue_decides h).1
  rw [saveValues]
  split
  · simp_all
  · simp_all

theorem saveValues_outcome_eq_none {ctx : GetContext V} (hctx : ctx.Reading)
    (es : List (PointEntry K V)) :
    (env.saveValues ctx es).state.outcome = none ↔
      ∀ e ∈ es, e.IsOperand ctx.maxCoveringTombstoneSeq := by
  constructor
  · intro h
    induction es generalizing ctx with
    | nil => simp
    | cons e es ih =>
      by_cases he : e.IsOperand ctx.maxCoveringTombstoneSeq
      · rw [saveValues, saveValue_operand env he] at h
        have hrest := ih (Or.inr rfl) h
        intro e' he'
        cases List.mem_cons.mp he' with
        | inl heq => rw [heq]; exact he
        | inr he' => exact hrest e' he'
      · rw [env.saveValues_of_decides es he] at h
        exact absurd h (env.saveValue_decides he).2
  · intro h
    rw [env.saveValues_operands h]
    exact GetContext.outcome_of_reading (GetContext.reading_pushOperands hctx es)

theorem foundOr_outcome_ne_notFound (value : Option V) :
    (foundOr value).outcome ≠ some .notFound := by
  cases value with
  | none => simp [foundOr, GetState.outcome]
  | some value => simp [foundOr, GetState.outcome]

theorem saveValue_outcome_ne_notFound {ctx : GetContext V} (hctx : ctx.state = .kMerge)
    (e : PointEntry K V) : (env.saveValue ctx e).1.state.outcome ≠ some .notFound := by
  have hdeletion : (env.saveDeletion ctx).state.outcome ≠ some .notFound := by
    simp only [saveDeletion, hctx]
    exact foundOr_outcome_ne_notFound _
  have hbase : ∀ value, (env.saveBase ctx value).state.outcome ≠ some .notFound := by
    intro value
    simp only [saveBase, hctx]
    exact foundOr_outcome_ne_notFound _
  unfold saveValue
  by_cases hseq : e.seq < ctx.maxCoveringTombstoneSeq
  · rw [if_pos hseq]
    exact hdeletion
  · rw [if_neg hseq]
    cases e.type with
    | kTypeValue => exact hbase _
    | kTypeBlobIndex => exact hbase _
    | kTypeWideColumnEntity => exact hbase _
    | kTypeDeletion => exact hdeletion
    | kTypeSingleDeletion => exact hdeletion
    | kTypeMerge => simp [GetState.outcome]

theorem saveValues_of_merge (ctx : GetContext V) (hctx : ctx.state = .kMerge)
    (es : List (PointEntry K V)) :
    (env.saveValues ctx es).state.outcome ≠ some .notFound ∧
      ((env.saveValues ctx es).state.outcome = none → (env.saveValues ctx es).state = .kMerge) := by
  induction es generalizing ctx with
  | nil => simp [saveValues, hctx, GetState.outcome]
  | cons e es ih =>
    by_cases he : e.IsOperand ctx.maxCoveringTombstoneSeq
    · rw [saveValues, saveValue_operand env he]
      exact ih (ctx.pushOperand e) rfl
    · rw [env.saveValues_of_decides es he]
      refine ⟨env.saveValue_outcome_ne_notFound hctx e, ?_⟩
      intro hnone
      exact absurd hnone (env.saveValue_decides he).2

theorem maxCovering_saveValue (ctx : GetContext V) (e : PointEntry K V) :
    (env.saveValue ctx e).1.maxCoveringTombstoneSeq = ctx.maxCoveringTombstoneSeq := by
  unfold saveValue saveDeletion saveBase
  split
  · split <;> rfl
  · split <;> first | rfl | (split <;> rfl)

theorem maxCovering_saveValues (ctx : GetContext V) (es : List (PointEntry K V)) :
    (env.saveValues ctx es).maxCoveringTombstoneSeq = ctx.maxCoveringTombstoneSeq := by
  induction es generalizing ctx with
  | nil => rfl
  | cons e es ih =>
    have hstep := env.maxCovering_saveValue ctx e
    rw [saveValues]
    split
    · rename_i ctx' heq
      rw [ih, ← hstep, heq]
    · rename_i ctx' heq
      rw [← hstep, heq]

variable [LinearOrder K] {ctx : GetContext V} {f : SstFile K V} {k : K} {snapshot : ℕ}

def maxAfter (ctx : GetContext V) (f : SstFile K V) (k : K) (snapshot : ℕ) : ℕ :=
  max ctx.maxCoveringTombstoneSeq (f.maxCoveringTombstoneSeqnum k snapshot)

@[simp] theorem maxCovering_tableGet :
    (env.tableGet ctx f k snapshot).maxCoveringTombstoneSeq = maxAfter ctx f k snapshot :=
  env.maxCovering_saveValues _ _

theorem tableGet_outcome_eq_none (hctx : ctx.Reading) :
    (env.tableGet ctx f k snapshot).state.outcome = none ↔
      ∀ e ∈ f.visible k snapshot, e.IsOperand (maxAfter ctx f k snapshot) :=
  env.saveValues_outcome_eq_none (by exact hctx) _

theorem tableGet_of_outcome_eq_none (hctx : ctx.Reading)
    (h : (env.tableGet ctx f k snapshot).state.outcome = none) :
    env.tableGet ctx f k snapshot =
      { ctx with maxCoveringTombstoneSeq := maxAfter ctx f k snapshot }.pushOperands
        (f.visible k snapshot) :=
  env.saveValues_operands ((env.tableGet_outcome_eq_none hctx).mp h)

theorem reading_tableGet (hctx : ctx.Reading)
    (h : (env.tableGet ctx f k snapshot).state.outcome = none) :
    (env.tableGet ctx f k snapshot).Reading := by
  rw [env.tableGet_of_outcome_eq_none hctx h]
  exact GetContext.reading_pushOperands (by exact hctx) _

theorem tableGet_of_merge (hctx : ctx.state = .kMerge) :
    (env.tableGet ctx f k snapshot).state.outcome ≠ some .notFound ∧
      ((env.tableGet ctx f k snapshot).state.outcome = none →
        (env.tableGet ctx f k snapshot).state = .kMerge) :=
  env.saveValues_of_merge _ (by exact hctx) _

/-- A file whose newest visible entry is an operand hands over the rest to a read that merges. -/
theorem tableGet_of_newest_operand {e : PointEntry K V} {es : List (PointEntry K V)}
    (hvis : f.visible k snapshot = e :: es) (htype : e.type = .kTypeMerge)
    (hafter : maxAfter ctx f k snapshot ≤ e.seq) :
    (env.tableGet ctx f k snapshot).state.outcome ≠ some .notFound ∧
      ((env.tableGet ctx f k snapshot).state.outcome = none →
        (env.tableGet ctx f k snapshot).state = .kMerge) := by
  rw [tableGet, hvis, saveValues, env.saveValue_operand ⟨htype, hafter⟩]
  exact env.saveValues_of_merge _ rfl es

end ReadEnv

end Spry
