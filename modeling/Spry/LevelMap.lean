import Mathlib.Data.List.AList

/-!
# Finite maps by level

A list of finite maps, one for each level, which grows when an entry is written to a level that
does not exist yet. A level that does not exist reads as the empty map.
-/

abbrev LevelMap (V : Type*) := List (AList (fun _ : ℕ => V))

namespace LevelMap

theorem getD_append_replicate {α : Type*} (ls : List α) (d : α) (m level : ℕ) :
    (ls ++ List.replicate m d).getD level d = ls.getD level d := by
  simp only [List.getD_eq_getElem?_getD, List.getElem?_append]
  split_ifs with h
  · rfl
  · rw [List.getElem?_eq_none (not_lt.mp h), List.getElem?_replicate]
    split_ifs <;> rfl

theorem getD_set_eq {α : Type*} (ls : List α) (d : α) (n level : ℕ) (a : α)
    (hn : n < ls.length) :
    (ls.set n a).getD level d = if level = n then a else ls.getD level d := by
  simp only [List.getD_eq_getElem?_getD, List.getElem?_set]
  by_cases h : n = level
  · subst h
    simp [hn]
  · simp [h, Ne.symm h]

theorem set_getD_self {α : Type*} (ls : List α) (d : α) (n : ℕ) : ls.set n (ls.getD n d) = ls := by
  by_cases hn : n < ls.length
  · rw [List.getD_eq_getElem?_getD, List.getElem?_eq_getElem hn, Option.getD_some,
      List.set_getElem_self]
  · exact List.set_eq_of_length_le (not_lt.mp hn)

theorem lt_foldl_range_iff (p : ℕ → Prop) [DecidablePred p] (n i : ℕ) :
    i < (List.range n).foldl (fun num j => if p j then j + 1 else num) 0 ↔
      ∃ level, i ≤ level ∧ level < n ∧ p level := by
  induction n with
  | zero => simp
  | succ n ih =>
    rw [List.range_succ, List.foldl_append, List.foldl_cons, List.foldl_nil]
    by_cases hp : p n
    · rw [if_pos hp, Nat.lt_succ_iff]
      exact ⟨fun hi => ⟨n, hi, n.lt_succ_self, hp⟩, fun ⟨level, hi, hn, _⟩ => by omega⟩
    · rw [if_neg hp, ih]
      constructor
      · rintro ⟨level, hi, hn, hlevel⟩
        exact ⟨level, hi, by omega, hlevel⟩
      · rintro ⟨level, hi, hn, hlevel⟩
        have hne : level ≠ n := fun heq => hp (heq ▸ hlevel)
        exact ⟨level, hi, by omega, hlevel⟩

variable {V : Type*} (m : LevelMap V) (level fd : ℕ)

def atLevel : AList (fun _ : ℕ => V) := List.getD m level ∅

def lookupAt : Option V := (m.atLevel level).lookup fd

def growTo : LevelMap V := m ++ List.replicate (level + 1 - m.length) ∅

def insertAt (v : V) : LevelMap V :=
  (m.growTo level).set level (((m.growTo level).atLevel level).insert fd v)

def eraseAt : LevelMap V :=
  if level < m.length then m.set level ((m.atLevel level).erase fd) else m

def eraseFiles (m : LevelMap V) (sources : List (ℕ × List ℕ)) : LevelMap V :=
  sources.foldl (fun m src => src.2.foldl (fun m fd => m.eraseAt src.1 fd) m) m

variable {m}

theorem lt_length_growTo : level < (m.growTo level).length := by
  simp only [growTo, List.length_append, List.length_replicate]
  omega

theorem atLevel_insertAt (v : V) (ℓ : ℕ) :
    (m.insertAt level fd v).atLevel ℓ =
      if ℓ = level then (m.atLevel level).insert fd v else m.atLevel ℓ := by
  have hgrow : ∀ n, (m.growTo level).atLevel n = m.atLevel n :=
    getD_append_replicate m ∅ (level + 1 - m.length)
  rw [insertAt, atLevel, getD_set_eq _ _ _ _ _ (lt_length_growTo level), hgrow level]
  congr 1
  exact hgrow ℓ

theorem atLevel_eraseAt (ℓ : ℕ) :
    (m.eraseAt level fd).atLevel ℓ =
      if ℓ = level then (m.atLevel level).erase fd else m.atLevel ℓ := by
  unfold eraseAt
  by_cases hlt : level < m.length
  · rw [if_pos hlt]
    exact getD_set_eq m ∅ level ℓ _ hlt
  · have hempty : m.atLevel level = ∅ := by
      rw [atLevel, List.getD_eq_getElem?_getD, List.getElem?_eq_none (not_lt.mp hlt)]
      rfl
    rw [if_neg hlt]
    split_ifs with hlevel
    · rw [hlevel, hempty]
      rfl
    · rfl

theorem lookupAt_insertAt (v : V) (ℓ n : ℕ) :
    (m.insertAt level fd v).lookupAt ℓ n =
      if ℓ = level ∧ n = fd then some v else m.lookupAt ℓ n := by
  rw [lookupAt, atLevel_insertAt]
  by_cases hlevel : ℓ = level
  · subst hlevel
    by_cases hn : n = fd
    · subst hn
      simp
    · simp [hn, lookupAt]
  · simp [hlevel, lookupAt]

theorem lookupAt_eraseAt (ℓ n : ℕ) :
    (m.eraseAt level fd).lookupAt ℓ n =
      if ℓ = level ∧ n = fd then none else m.lookupAt ℓ n := by
  rw [lookupAt, atLevel_eraseAt]
  by_cases hlevel : ℓ = level
  · subst hlevel
    by_cases hn : n = fd
    · subst hn
      simp
    · simp [hn, lookupAt]
  · simp [hlevel, lookupAt]

theorem lookupAt_foldl_eraseAt (files : List ℕ) (m : LevelMap V) (ℓ n : ℕ) :
    (files.foldl (fun m fd => m.eraseAt level fd) m).lookupAt ℓ n =
      if level = ℓ ∧ n ∈ files then none else m.lookupAt ℓ n := by
  induction files generalizing m with
  | nil => simp
  | cons fd files ih =>
    rw [List.foldl_cons, ih, lookupAt_eraseAt]
    by_cases hlevel : level = ℓ
    · by_cases hin : n ∈ files
      · simp [hin, hlevel]
      · simp [hin, hlevel]
    · simp [hlevel, Ne.symm hlevel]

theorem lookupAt_eraseFiles (sources : List (ℕ × List ℕ)) (m : LevelMap V) (ℓ n : ℕ) :
    (m.eraseFiles sources).lookupAt ℓ n =
      if ∃ src ∈ sources, src.1 = ℓ ∧ n ∈ src.2 then none else m.lookupAt ℓ n := by
  unfold eraseFiles
  induction sources generalizing m with
  | nil => simp
  | cons src sources ih =>
    rw [List.foldl_cons, ih, lookupAt_foldl_eraseAt]
    by_cases hin : ∃ src ∈ sources, src.1 = ℓ ∧ n ∈ src.2
    · rw [if_pos hin, if_pos (hin.imp fun s hs => ⟨List.mem_cons_of_mem src hs.1, hs.2⟩)]
    · simp [hin]

theorem mem_atLevel_iff {ℓ n : ℕ} : n ∈ m.atLevel ℓ ↔ (m.lookupAt ℓ n).isSome = true :=
  AList.lookup_isSome.symm

theorem mem_atLevel_insertAt (v : V) (ℓ n : ℕ) :
    n ∈ (m.insertAt level fd v).atLevel ℓ ↔ (ℓ = level ∧ n = fd) ∨ n ∈ m.atLevel ℓ := by
  rw [mem_atLevel_iff, lookupAt_insertAt, mem_atLevel_iff]
  split_ifs with h
  · exact iff_of_true rfl (Or.inl h)
  · exact (or_iff_right h).symm

theorem mem_atLevel_eraseAt (ℓ n : ℕ) :
    n ∈ (m.eraseAt level fd).atLevel ℓ ↔ n ∈ m.atLevel ℓ ∧ ¬ (ℓ = level ∧ n = fd) := by
  rw [mem_atLevel_iff, lookupAt_eraseAt, mem_atLevel_iff]
  split_ifs with h
  · exact iff_of_false (by simp) fun hmem => hmem.2 h
  · exact (and_iff_left h).symm

theorem mem_atLevel_eraseFiles (sources : List (ℕ × List ℕ)) (ℓ n : ℕ) :
    n ∈ (m.eraseFiles sources).atLevel ℓ ↔
      n ∈ m.atLevel ℓ ∧ ¬ ∃ src ∈ sources, src.1 = ℓ ∧ n ∈ src.2 := by
  rw [mem_atLevel_iff, lookupAt_eraseFiles, mem_atLevel_iff]
  split_ifs with h
  · exact iff_of_false (by simp) fun hmem => hmem.2 h
  · exact (and_iff_left h).symm

section Insert

variable {A : Type*} (g : A → V)

theorem mem_atLevel_foldl_insertAt (entries : List (ℕ × A)) (m : LevelMap V) (ℓ n : ℕ) :
    n ∈ (entries.foldl (fun m e => m.insertAt level e.1 (g e.2)) m).atLevel ℓ ↔
      n ∈ m.atLevel ℓ ∨ (ℓ = level ∧ ∃ e ∈ entries, e.1 = n) := by
  induction entries generalizing m with
  | nil => simp
  | cons e es ih =>
    rw [List.foldl_cons, ih, mem_atLevel_insertAt, List.exists_mem_cons_iff]
    constructor
    · rintro ((⟨hlevel, rfl⟩ | hmem) | ⟨hlevel, hes⟩)
      · exact Or.inr ⟨hlevel, Or.inl rfl⟩
      · exact Or.inl hmem
      · exact Or.inr ⟨hlevel, Or.inr hes⟩
    · rintro (hmem | ⟨hlevel, rfl | hes⟩)
      · exact Or.inl (Or.inr hmem)
      · exact Or.inl (Or.inl ⟨hlevel, rfl⟩)
      · exact Or.inr ⟨hlevel, hes⟩

theorem lookupAt_foldl_insertAt_of_notMem {entries : List (ℕ × A)} {ℓ n : ℕ}
    (h : ℓ = level → n ∉ entries.map Prod.fst) (m : LevelMap V) :
    (entries.foldl (fun m e => m.insertAt level e.1 (g e.2)) m).lookupAt ℓ n = m.lookupAt ℓ n := by
  induction entries generalizing m with
  | nil => rfl
  | cons e es ih =>
    simp only [List.map_cons, List.mem_cons, not_or] at h
    rw [List.foldl_cons, ih (fun hlevel => (h hlevel).2), lookupAt_insertAt,
      if_neg fun heq => (h heq.1).1 heq.2]

theorem lookupAt_foldl_insertAt_of_mem {entries : List (ℕ × A)}
    (hnodup : (entries.map Prod.fst).Nodup) {n : ℕ} {a : A} (h : (n, a) ∈ entries)
    (m : LevelMap V) :
    (entries.foldl (fun m e => m.insertAt level e.1 (g e.2)) m).lookupAt level n = some (g a) := by
  induction entries generalizing m with
  | nil => cases h
  | cons e es ih =>
    obtain ⟨hnew, hes⟩ := List.nodup_cons.mp hnodup
    rw [List.foldl_cons]
    cases List.mem_cons.mp h with
    | inl heq =>
      subst heq
      rw [lookupAt_foldl_insertAt_of_notMem level g (fun _ => hnew), lookupAt_insertAt,
        if_pos ⟨rfl, rfl⟩]
    | inr hmem => exact ih hes hmem _

theorem lookupAt_foldl_insertAt_filter (p : ℕ × A → Bool) {entries : List (ℕ × A)}
    (hnodup : (entries.map Prod.fst).Nodup) (m : LevelMap V) :
    (∀ n a, (n, a) ∈ entries → p (n, a) = true →
      ((entries.filter p).foldl (fun m e => m.insertAt level e.1 (g e.2)) m).lookupAt level n =
        some (g a)) ∧
    ∀ ℓ n, (ℓ = level → ∀ a, (n, a) ∈ entries → p (n, a) = false) →
      ((entries.filter p).foldl (fun m e => m.insertAt level e.1 (g e.2)) m).lookupAt ℓ n =
        m.lookupAt ℓ n := by
  constructor
  · intro n a hmem hp
    have hsub : ((entries.filter p).map Prod.fst).Sublist (entries.map Prod.fst) :=
      List.filter_sublist.map Prod.fst
    exact lookupAt_foldl_insertAt_of_mem level g (hsub.nodup hnodup)
      (List.mem_filter.mpr ⟨hmem, hp⟩) m
  · intro ℓ n hnone
    refine lookupAt_foldl_insertAt_of_notMem level g (fun hlevel hn => ?_) m
    obtain ⟨e, he, rfl⟩ := List.mem_map.mp hn
    obtain ⟨hmem, hp⟩ := List.mem_filter.mp he
    have hskipped : p e = false := hnone hlevel e.2 hmem
    rw [hp] at hskipped
    cases hskipped

end Insert

end LevelMap
