import Mathlib.Data.List.Basic

/-!
# Computations with checks

A computation that can end without a value: which of its steps makes a loop or a run fail, which
errors a sequence of steps allows, and what is left of it when the errors are forgotten. A debug
build ends with a value, by `exit(1)`, or at an assertion that does not hold.
-/

namespace Fallible

variable {E α β : Type}

theorem mapM_eq_some_map {f : α → Option β} {g : α → β} {as : List α}
    (h : ∀ a ∈ as, f a = some (g a)) : as.mapM f = some (as.map g) := by
  induction as with
  | nil => rfl
  | cons a as ih =>
    obtain ⟨ha, has⟩ := List.forall_mem_cons.mp h
    simp [List.mapM_cons, ha, ih has]

theorem bind_eq_ok {x : Except E α} {f : α → Except E β} {b : β} :
    x >>= f = .ok b ↔ ∃ a, x = .ok a ∧ f a = .ok b := by
  cases x with
  | error e =>
    refine iff_of_false (fun h => ?_) (fun ⟨_, h, _⟩ => ?_)
    · cases h
    · cases h
  | ok a =>
    constructor
    · intro h
      exact ⟨a, rfl, h⟩
    · rintro ⟨_, h, hb⟩
      cases h
      exact hb

theorem bind_eq_error {x : Except E α} {f : α → Except E β} {e : E} :
    x >>= f = .error e ↔ x = .error e ∨ ∃ a, x = .ok a ∧ f a = .error e := by
  cases x with
  | error e' =>
    constructor
    · intro h
      change Except.error e' = Except.error e at h
      cases h
      exact Or.inl rfl
    · rintro (h | ⟨_, h, _⟩)
      · cases h
        rfl
      · cases h
  | ok a =>
    constructor
    · intro h
      exact Or.inr ⟨a, rfl, h⟩
    · rintro (h | ⟨_, h, hf⟩)
      · cases h
      · cases h
        exact hf

theorem foldlM_eq_error {step : β → α → Except E β} {as : List α} {b : β} {e : E} :
    as.foldlM step b = .error e ↔
      ∃ before a s, before ++ [a] <+: as ∧ before.foldlM step b = .ok s ∧ step s a = .error e := by
  induction as generalizing b with
  | nil =>
    refine iff_of_false (fun h => by cases h) ?_
    rintro ⟨before, a, _, ⟨rest, hrest⟩, _⟩
    simp at hrest
  | cons a as ih =>
    rw [List.foldlM_cons, bind_eq_error]
    constructor
    · rintro (hfirst | ⟨b', hb', hrest⟩)
      · exact ⟨[], a, b, by simp, rfl, hfirst⟩
      · obtain ⟨before, x, s, hinit, hs, hx⟩ := ih.mp hrest
        refine ⟨a :: before, x, s, by simpa using hinit, ?_, hx⟩
        rw [List.foldlM_cons, hb']
        exact hs
    · rintro ⟨before, x, s, hinit, hs, hx⟩
      cases before with
      | nil =>
        obtain rfl : x = a := by simpa using hinit
        cases hs
        exact Or.inl hx
      | cons y before =>
        obtain ⟨rfl, hlater⟩ : y = a ∧ before ++ [x] <+: as := by simpa using hinit
        rw [List.foldlM_cons] at hs
        obtain ⟨b', hb', hs⟩ := bind_eq_ok.mp hs
        exact Or.inr ⟨b', hb', ih.mpr ⟨before, x, s, hlater, hs, hx⟩⟩

/-- The errors the computation can end in all satisfy `p`. -/
def Allows (p : E → Prop) (x : Except E α) : Prop := ∀ e, x = .error e → p e

section Allows

variable {p : E → Prop}

theorem allows_ok (a : α) : Allows p (.ok a : Except E α) := by
  intro e h
  cases h

theorem allows_error {e : E} (h : p e) : Allows p (.error e : Except E α) := by
  intro e' h'
  cases h'
  exact h

theorem allows_bind {x : Except E α} {f : α → Except E β} (hx : Allows p x)
    (hf : ∀ a, x = .ok a → Allows p (f a)) : Allows p (x >>= f) := by
  intro e h
  rcases bind_eq_error.mp h with h | ⟨a, ha, h⟩
  · exact hx e h
  · exact hf a ha e h

end Allows

section Forget

theorem eq_some_of_ok {x : Except E α} {x' : Option α} {a : α} (hx : x.toOption = x')
    (h : x = .ok a) : x' = some a := by
  rw [← hx, h]
  rfl

/-- A computation agrees with its model in `Option` if all of its parts do. -/
theorem toOption_bind {x : Except E α} {x' : Option α} {f : α → Except E β} {f' : α → Option β}
    (hx : x.toOption = x') (hf : ∀ a, (f a).toOption = f' a) :
    (x >>= f).toOption = x'.bind f' := by
  subst hx
  cases x with
  | error e => rfl
  | ok a => exact hf a

theorem toOption_bind_pure {x : Except E α} {x' : Option α} (hx : x.toOption = x') (g : α → β) :
    (x >>= fun a => pure (g a)).toOption = x'.map g := by
  subst hx
  cases x with
  | error e => rfl
  | ok a => rfl

theorem toOption_foldlM {step : β → α → Except E β} {step' : β → α → Option β}
    (h : ∀ b a, (step b a).toOption = step' b a) (as : List α) (b : β) :
    (as.foldlM step b).toOption = as.foldlM step' b := by
  induction as generalizing b with
  | nil => rfl
  | cons a as ih =>
    rw [List.foldlM_cons, List.foldlM_cons]
    exact toOption_bind (h b a) ih

end Forget

end Fallible

/-- How a computation can end without a value: it exits, or an assertion fails. -/
inductive Stop (A : Type) where
  | exited
  | failed (assertion : A)
  deriving DecidableEq, Repr

namespace Stop

variable {A α β : Type}

def orExit : Option α → Except (Stop A) α
  | none => .error .exited
  | some a => .ok a

def check (p : Prop) [Decidable p] (assertion : A) : Except (Stop A) Unit :=
  if p then .ok () else .error (.failed assertion)

def Violates (x : Except (Stop A) α) : Prop := ∃ assertion, x = .error (.failed assertion)

theorem not_violates_ok (a : α) : ¬ Violates (.ok a : Except (Stop A) α) := by
  rintro ⟨_, h⟩
  cases h

theorem not_violates_orExit (x : Option α) :
    ¬ Violates (orExit x : Except (Stop A) α) := by
  rintro ⟨_, h⟩
  cases x with
  | none => cases h
  | some a => cases h

theorem orExit_eq_ok {x : Option α} {a : α} :
    (orExit x : Except (Stop A) α) = .ok a ↔ x = some a := by
  cases x with
  | none => exact iff_of_false (fun h => by cases h) (fun h => by cases h)
  | some b => exact ⟨fun h => by cases h; rfl, fun h => by cases h; rfl⟩

theorem violates_bind {x : Except (Stop A) α} {f : α → Except (Stop A) β} :
    Violates (x >>= f) ↔ Violates x ∨ ∃ a, x = .ok a ∧ Violates (f a) := by
  constructor
  · rintro ⟨assertion, h⟩
    rcases Fallible.bind_eq_error.mp h with h | ⟨a, ha, h⟩
    · exact Or.inl ⟨assertion, h⟩
    · exact Or.inr ⟨a, ha, assertion, h⟩
  · rintro (⟨assertion, h⟩ | ⟨a, ha, assertion, h⟩)
    · exact ⟨assertion, Fallible.bind_eq_error.mpr (Or.inl h)⟩
    · exact ⟨assertion, Fallible.bind_eq_error.mpr (Or.inr ⟨a, ha, h⟩)⟩

theorem violates_foldlM (step : β → α → Except (Stop A) β) (bad : α → Prop) {as : List α}
    (hbad : ∀ b, ∀ a ∈ as, bad a → Violates (step b a))
    (hok : ∀ b, ∀ a ∈ as, ¬ bad a → ∃ b', step b a = .ok b') (b : β) :
    Violates (as.foldlM step b) ↔ ∃ a ∈ as, bad a := by
  induction as generalizing b with
  | nil =>
    refine iff_of_false (not_violates_ok b) ?_
    rintro ⟨_, ha, _⟩
    cases ha
  | cons a as ih =>
    rw [List.foldlM_cons, violates_bind]
    by_cases ha : bad a
    · exact iff_of_true (Or.inl (hbad b a List.mem_cons_self ha)) ⟨a, List.mem_cons_self, ha⟩
    · obtain ⟨b', hb'⟩ := hok b a List.mem_cons_self ha
      have hrest := ih (fun b x hx => hbad b x (List.mem_cons_of_mem a hx))
        (fun b x hx => hok b x (List.mem_cons_of_mem a hx)) b'
      have hstep : ¬ Violates (step b a) := hb' ▸ not_violates_ok b'
      rw [or_iff_right hstep, hb']
      simp only [Except.ok.injEq, exists_eq_left', hrest, List.exists_mem_cons_iff, ha, false_or]

theorem violates_run_iff {step : β → α → Except (Stop A) β} {as : List α} {b : β} :
    Violates (as.foldlM step b) ↔
      ∃ before a s, before ++ [a] <+: as ∧ before.foldlM step b = .ok s ∧ Violates (step s a) := by
  constructor
  · rintro ⟨assertion, h⟩
    obtain ⟨before, a, s, hinit, hs, ha⟩ := Fallible.foldlM_eq_error.mp h
    exact ⟨before, a, s, hinit, hs, assertion, ha⟩
  · rintro ⟨before, a, s, hinit, hs, assertion, ha⟩
    exact ⟨assertion, Fallible.foldlM_eq_error.mpr ⟨before, a, s, hinit, hs, ha⟩⟩

end Stop
