import Spry.VersionGet

/-!
# Where a filter ends a read

`readFiles` is the read without a filter. A filtered read is the same read, unless the gate of
the filter closes on a change of level that the read reaches: `GateCloses` says at which file
this happens. The files reached are those read without a decision while no covering tombstone has
been seen.
-/

namespace Spry.Version

variable {K V : Type} [LinearOrder K] (env : ReadEnv V) (k : K) (snapshot : ℕ)

def readFiles : GetContext V → List (ℕ × SstFile K V) → Outcome V
  | ctx, [] => finish env ctx
  | ctx, (_, f) :: rest =>
    if 0 < ctx.maxCoveringTombstoneSeq then finish env ctx
    else
      match (env.tableGet ctx f k snapshot).state.outcome with
      | some outcome => outcome
      | none => readFiles (env.tableGet ctx f k snapshot) rest

def readContext (ctx : GetContext V) (files : List (ℕ × SstFile K V)) : GetContext V :=
  files.foldl (fun ctx p => env.tableGet ctx p.2 k snapshot) ctx

/-- The read goes through these files: none is cut off by a tombstone seen before, and none
decides. -/
def Passes : GetContext V → List (ℕ × SstFile K V) → Prop
  | _, [] => True
  | ctx, p :: rest =>
    ctx.maxCoveringTombstoneSeq = 0 ∧ (env.tableGet ctx p.2 k snapshot).state.outcome = none ∧
      Passes (env.tableGet ctx p.2 k snapshot) rest

theorem getLoop_ungated {mode : GateMode} (hmode : mode = .off ∨ mode = .first) (alive : Alive)
    (endLevel : ℕ) (remembered : Bool) (ctx : GetContext V) (files : List (ℕ × SstFile K V)) :
    getLoop env mode alive endLevel k snapshot remembered ctx files =
      readFiles env k snapshot ctx files := by
  induction files generalizing ctx with
  | nil => rfl
  | cons p rest ih =>
    by_cases hmax : 0 < ctx.maxCoveringTombstoneSeq
    · simp only [getLoop, readFiles, hmax, if_true]
    cases hout : (env.tableGet ctx p.2 k snapshot).state.outcome with
    | some outcome => simp only [getLoop, readFiles, hmax, hout, if_false]
    | none =>
      simp only [getLoop, readFiles, hmax, hout, if_false]
      cases hmode with
      | inl hmode =>
        subst hmode
        simp only [ih, ite_self]
      | inr hmode =>
        subst hmode
        simp only [ih, ite_self]

theorem readFiles_append {ctx : GetContext V} {pre : List (ℕ × SstFile K V)}
    (post : List (ℕ × SstFile K V)) (h : Passes env k snapshot ctx pre) :
    readFiles env k snapshot ctx (pre ++ post) =
      readFiles env k snapshot (readContext env k snapshot ctx pre) post := by
  induction pre generalizing ctx with
  | nil => rfl
  | cons p pre ih =>
    obtain ⟨hmax, hnone, hrest⟩ := h
    simp only [List.cons_append, readFiles, hmax, hnone]
    exact ih hrest

section Gate

variable (alive : Alive) (endLevel : ℕ)

def rememberedFor (files : List (ℕ × SstFile K V)) (level : ℕ) : Bool :=
  alive level ((files.find? (fun p => p.1 = level)).map fun p => p.2.number)

/-- The read reaches a file, the picker changes the level after it, and `closed` holds there. -/
def GateCloses (ctx : GetContext V) (files : List (ℕ × SstFile K V))
    (closed : ℕ × SstFile K V → List (ℕ × SstFile K V) → Prop) : Prop :=
  ∃ pre p post, files = pre ++ p :: post ∧ Passes env k snapshot ctx (pre ++ [p]) ∧
    nextLevel endLevel post ≠ p.1 ∧ closed p post

variable {env k snapshot endLevel}

theorem gateCloses_cons {ctx : GetContext V} {p : ℕ × SstFile K V}
    {rest : List (ℕ × SstFile K V)}
    {closed : ℕ × SstFile K V → List (ℕ × SstFile K V) → Prop}
    (hmax : ctx.maxCoveringTombstoneSeq = 0)
    (hnone : (env.tableGet ctx p.2 k snapshot).state.outcome = none) :
    GateCloses env k snapshot endLevel ctx (p :: rest) closed ↔
      (nextLevel endLevel rest ≠ p.1 ∧ closed p rest) ∨
        GateCloses env k snapshot endLevel (env.tableGet ctx p.2 k snapshot) rest closed := by
  constructor
  · intro h
    obtain ⟨pre, q, post, heq, hpass, hlevel, hclosed⟩ := h
    cases pre with
    | nil =>
      obtain ⟨rfl, rfl⟩ := List.cons.inj heq
      exact Or.inl ⟨hlevel, hclosed⟩
    | cons p' pre =>
      obtain ⟨rfl, rfl⟩ := List.cons.inj heq
      exact Or.inr ⟨pre, q, post, rfl, hpass.2.2, hlevel, hclosed⟩
  · intro h
    cases h with
    | inl h => exact ⟨[], p, rest, rfl, ⟨hmax, hnone, trivial⟩, h.1, h.2⟩
    | inr h =>
      obtain ⟨pre, q, post, rfl, hpass, hlevel, hclosed⟩ := h
      exact ⟨p :: pre, q, post, rfl, ⟨hmax, hnone, hpass⟩, hlevel, hclosed⟩

theorem not_gateCloses_of_stop {ctx : GetContext V} {p : ℕ × SstFile K V}
    {rest : List (ℕ × SstFile K V)}
    {closed : ℕ × SstFile K V → List (ℕ × SstFile K V) → Prop}
    (h : 0 < ctx.maxCoveringTombstoneSeq ∨
      (env.tableGet ctx p.2 k snapshot).state.outcome ≠ none) :
    ¬ GateCloses env k snapshot endLevel ctx (p :: rest) closed := by
  intro hcloses
  obtain ⟨pre, q, post, heq, hpass, _, _⟩ := hcloses
  have hfirst : ctx.maxCoveringTombstoneSeq = 0 ∧
      (env.tableGet ctx p.2 k snapshot).state.outcome = none := by
    cases pre with
    | nil =>
      obtain ⟨rfl, rfl⟩ := List.cons.inj heq
      exact ⟨hpass.1, hpass.2.1⟩
    | cons p' pre =>
      obtain ⟨rfl, rfl⟩ := List.cons.inj heq
      exact ⟨hpass.1, hpass.2.1⟩
  cases h with
  | inl h => omega
  | inr h => exact h hfirst.2

theorem not_gateCloses_nil {ctx : GetContext V}
    {closed : ℕ × SstFile K V → List (ℕ × SstFile K V) → Prop} :
    ¬ GateCloses env k snapshot endLevel ctx [] closed := by
  intro h
  obtain ⟨pre, q, post, heq, _⟩ := h
  simp at heq

theorem getLoop_eager (remembered : Bool) (ctx : GetContext V)
    (files : List (ℕ × SstFile K V)) :
    (GateCloses env k snapshot endLevel ctx files
        (fun _ post => nextAlive alive endLevel post = false) →
      getLoop env .eager alive endLevel k snapshot remembered ctx files = .notFound) ∧
    (¬ GateCloses env k snapshot endLevel ctx files
        (fun _ post => nextAlive alive endLevel post = false) →
      getLoop env .eager alive endLevel k snapshot remembered ctx files =
        readFiles env k snapshot ctx files) := by
  induction files generalizing ctx with
  | nil => exact ⟨fun h => absurd h not_gateCloses_nil, fun _ => rfl⟩
  | cons p rest ih =>
    by_cases hmax : 0 < ctx.maxCoveringTombstoneSeq
    · refine ⟨fun h => absurd h (not_gateCloses_of_stop (Or.inl hmax)), fun _ => ?_⟩
      simp only [getLoop, readFiles, hmax, if_true]
    cases hout : (env.tableGet ctx p.2 k snapshot).state.outcome with
    | some outcome =>
      refine ⟨fun h => absurd h (not_gateCloses_of_stop (Or.inr (by simp [hout]))), ?_⟩
      intro _
      simp only [getLoop, readFiles, hmax, hout, if_false]
    | none =>
      rw [gateCloses_cons (by omega) hout]
      simp only [getLoop, readFiles, hmax, hout, if_false]
      by_cases hlevel : nextLevel endLevel rest = p.1
      · simpa [hlevel] using ih (env.tableGet ctx p.2 k snapshot)
      · cases hverdict : nextAlive alive endLevel rest with
        | false => simp [hlevel]
        | true => simpa [hlevel] using ih (env.tableGet ctx p.2 k snapshot)

theorem gateCloses_congr {ctx : GetContext V} {files : List (ℕ × SstFile K V)}
    {closed closed' : ℕ × SstFile K V → List (ℕ × SstFile K V) → Prop}
    (h : ∀ p ∈ files, ∀ post, closed p post ↔ closed' p post) :
    GateCloses env k snapshot endLevel ctx files closed ↔
      GateCloses env k snapshot endLevel ctx files closed' := by
  constructor
  · intro hcloses
    obtain ⟨pre, p, post, rfl, hpass, hlevel, hclosed⟩ := hcloses
    exact ⟨pre, p, post, rfl, hpass, hlevel, (h p (by simp) post).mp hclosed⟩
  · intro hcloses
    obtain ⟨pre, p, post, rfl, hpass, hlevel, hclosed⟩ := hcloses
    exact ⟨pre, p, post, rfl, hpass, hlevel, (h p (by simp) post).mpr hclosed⟩

theorem rememberedFor_cons_of_ne {p : ℕ × SstFile K V} {rest : List (ℕ × SstFile K V)}
    {level : ℕ} (h : p.1 ≠ level) :
    rememberedFor alive (p :: rest) level = rememberedFor alive rest level := by
  simp [rememberedFor, h]

theorem rememberedFor_head (endLevel : ℕ) (p : ℕ × SstFile K V) (rest : List (ℕ × SstFile K V)) :
    rememberedFor alive (p :: rest) p.1 = nextAlive alive endLevel (p :: rest) := by
  simp [rememberedFor, nextAlive, nextLevel]

/-- The remembered verdict is false, for the level `cur` the one given. -/
def DeferredClosed (files : List (ℕ × SstFile K V)) (cur : ℕ) (remembered : Bool)
    (p : ℕ × SstFile K V) (_ : List (ℕ × SstFile K V)) : Prop :=
  (if p.1 = cur then remembered else rememberedFor alive files p.1) = false

theorem gateCloses_same_level {ctx : GetContext V} {p : ℕ × SstFile K V}
    {rest : List (ℕ × SstFile K V)} (remembered : Bool) :
    GateCloses env k snapshot endLevel ctx rest
        (DeferredClosed alive (p :: rest) p.1 remembered) ↔
      GateCloses env k snapshot endLevel ctx rest
        (DeferredClosed alive rest p.1 remembered) := by
  apply gateCloses_congr
  intro q _ post
  unfold DeferredClosed
  by_cases hq : q.1 = p.1
  · simp [hq]
  · simp [hq, rememberedFor_cons_of_ne alive (Ne.symm hq)]

theorem gateCloses_next_level {ctx : GetContext V} {p : ℕ × SstFile K V}
    {rest : List (ℕ × SstFile K V)} (remembered : Bool)
    (hsorted : (p :: rest).Pairwise (fun p q => p.1 ≤ q.1))
    (hlevel : nextLevel endLevel rest ≠ p.1) :
    GateCloses env k snapshot endLevel ctx rest
        (DeferredClosed alive (p :: rest) p.1 remembered) ↔
      GateCloses env k snapshot endLevel ctx rest
        (DeferredClosed alive rest (nextLevel endLevel rest) (nextAlive alive endLevel rest)) := by
  apply gateCloses_congr
  intro q hq post
  cases rest with
  | nil => cases hq
  | cons q' rest =>
    obtain ⟨hle, hrest⟩ := List.pairwise_cons.mp hsorted
    have hnext : nextLevel endLevel (q' :: rest) = q'.1 := rfl
    have hfirst : q'.1 ≤ q.1 := by
      cases List.mem_cons.mp hq with
      | inl hq => rw [hq]
      | inr hq => exact (List.pairwise_cons.mp hrest).1 q hq
    have hne : p.1 ≠ q.1 := by
      have := hle q' List.mem_cons_self
      omega
    unfold DeferredClosed
    rw [if_neg (Ne.symm hne), rememberedFor_cons_of_ne alive hne]
    by_cases heq : q.1 = nextLevel endLevel (q' :: rest)
    · rw [if_pos heq, heq, hnext, rememberedFor_head alive endLevel]
    · rw [if_neg heq]

/-- A deferred gate ends the read where the verdict remembered for the level that is left is
false. `remembered` is the verdict for the level `cur` of the first file. -/
theorem getLoop_deferred (remembered : Bool) (ctx : GetContext V)
    (files : List (ℕ × SstFile K V)) (cur : ℕ) (hcur : ∀ p ∈ files.head?, p.1 = cur)
    (hsorted : files.Pairwise (fun p q => p.1 ≤ q.1)) :
    (GateCloses env k snapshot endLevel ctx files (DeferredClosed alive files cur remembered) →
      getLoop env .deferred alive endLevel k snapshot remembered ctx files = .notFound) ∧
    (¬ GateCloses env k snapshot endLevel ctx files
        (DeferredClosed alive files cur remembered) →
      getLoop env .deferred alive endLevel k snapshot remembered ctx files =
        readFiles env k snapshot ctx files) := by
  induction files generalizing ctx cur remembered with
  | nil => exact ⟨fun h => absurd h not_gateCloses_nil, fun _ => rfl⟩
  | cons p rest ih =>
    obtain rfl : p.1 = cur := hcur p rfl
    have hrest := (List.pairwise_cons.mp hsorted).2
    by_cases hmax : 0 < ctx.maxCoveringTombstoneSeq
    · refine ⟨fun h => absurd h (not_gateCloses_of_stop (Or.inl hmax)), fun _ => ?_⟩
      simp only [getLoop, readFiles, hmax, if_true]
    cases hout : (env.tableGet ctx p.2 k snapshot).state.outcome with
    | some outcome =>
      refine ⟨fun h => absurd h (not_gateCloses_of_stop (Or.inr (by simp [hout]))), ?_⟩
      intro _
      simp only [getLoop, readFiles, hmax, hout, if_false]
    | none =>
      have hhead : ∀ q ∈ rest.head?, q.1 = nextLevel endLevel rest := by
        intro q hq
        cases rest with
        | nil => cases hq
        | cons q' rest =>
          cases hq
          rfl
      rw [gateCloses_cons (by omega) hout]
      simp only [getLoop, readFiles, hmax, hout, if_false]
      by_cases hlevel : nextLevel endLevel rest = p.1
      · rw [gateCloses_same_level]
        have hstep := ih remembered (env.tableGet ctx p.2 k snapshot) p.1
          (hlevel ▸ hhead) hrest
        simpa [hlevel] using hstep
      · rw [gateCloses_next_level alive remembered hsorted hlevel]
        have hstep := ih (nextAlive alive endLevel rest)
          (env.tableGet ctx p.2 k snapshot) (nextLevel endLevel rest) hhead hrest
        cases remembered with
        | false => simp [hlevel, DeferredClosed]
        | true => simpa [hlevel, DeferredClosed] using hstep

variable (env k snapshot endLevel)

def FilterCloses (mode : GateMode) (ctx : GetContext V) (files : List (ℕ × SstFile K V)) :
    Prop :=
  match mode with
  | .off => False
  | .first => nextAlive alive endLevel files = false
  | .deferred =>
    GateCloses env k snapshot endLevel ctx files
      (fun p _ => rememberedFor alive files p.1 = false)
  | .eager =>
    nextAlive alive endLevel files = false ∨
      GateCloses env k snapshot endLevel ctx files
        (fun _ post => nextAlive alive endLevel post = false)

/-- A filtered read is `NotFound` where the filter closes, and the plain read elsewhere. -/
theorem getGated_eq (mode : GateMode) (ctx : GetContext V) (files : List (ℕ × SstFile K V))
    (hsorted : files.Pairwise (fun p q => p.1 ≤ q.1)) :
    (FilterCloses env k snapshot alive endLevel mode ctx files →
      getGated env mode alive endLevel k snapshot ctx files = .notFound) ∧
    (¬ FilterCloses env k snapshot alive endLevel mode ctx files →
      getGated env mode alive endLevel k snapshot ctx files =
        readFiles env k snapshot ctx files) := by
  cases mode with
  | off =>
    refine ⟨fun h => absurd h id, fun _ => ?_⟩
    exact getLoop_ungated env k snapshot (Or.inl rfl) alive endLevel true ctx files
  | first =>
    have hloop := getLoop_ungated env k snapshot (Or.inr rfl) alive endLevel true ctx files
    simp only [FilterCloses, getGated, hloop]
    cases nextAlive alive endLevel files <;> simp
  | deferred =>
    simp only [FilterCloses, getGated]
    cases files with
    | nil => exact ⟨fun h => absurd h not_gateCloses_nil, fun _ => rfl⟩
    | cons p rest =>
      have hclosed : GateCloses env k snapshot endLevel ctx (p :: rest)
            (fun q _ => rememberedFor alive (p :: rest) q.1 = false) ↔
          GateCloses env k snapshot endLevel ctx (p :: rest)
            (DeferredClosed alive (p :: rest) p.1 (nextAlive alive endLevel (p :: rest))) := by
        apply gateCloses_congr
        intro q _ post
        unfold DeferredClosed
        by_cases hq : q.1 = p.1
        · rw [if_pos hq, hq, rememberedFor_head alive endLevel]
        · rw [if_neg hq]
      rw [hclosed]
      exact getLoop_deferred alive _ ctx (p :: rest) p.1 (by simp) hsorted
  | eager =>
    have hloop := @getLoop_eager K V _ env k snapshot alive endLevel true ctx files
    simp only [FilterCloses, getGated]
    cases hverdict : nextAlive alive endLevel files with
    | false => simp
    | true => simpa using hloop

end Gate

end Spry.Version

namespace Spry.ReadSystem

variable {K V : Type} [LinearOrder K] (sys : ReadSystem K V) (fs : RangeFilters K)
  (v : Version K V) (endLevel : ℕ) (key : K) (snapshot : ℕ) (ctx : GetContext V)

theorem get_none :
    sys.get fs .none v endLevel key snapshot ctx =
      Version.readFiles sys.env key snapshot ctx (v.picks key) := by
  exact Version.getLoop_ungated sys.env key snapshot (Or.inl rfl) _ endLevel true ctx _

variable {fs v endLevel key snapshot ctx} {rdf : RdfType} {alive : Alive}

theorem get_of_closes (halive : sys.verdict fs rdf key = some alive)
    (h : Version.FilterCloses sys.env key snapshot alive endLevel rdf.mode ctx (v.picks key)) :
    sys.get fs rdf v endLevel key snapshot ctx = .notFound := by
  simp only [get, halive]
  exact (Version.getGated_eq sys.env key snapshot alive endLevel rdf.mode ctx _
    (v.picks_sorted key)).1 h

theorem get_of_not_closes (halive : sys.verdict fs rdf key = some alive)
    (h : ¬ Version.FilterCloses sys.env key snapshot alive endLevel rdf.mode ctx (v.picks key)) :
    sys.get fs rdf v endLevel key snapshot ctx = sys.get fs .none v endLevel key snapshot ctx := by
  rw [get_none]
  simp only [get, halive]
  exact (Version.getGated_eq sys.env key snapshot alive endLevel rdf.mode ctx _
    (v.picks_sorted key)).2 h

end Spry.ReadSystem
