import Spry.Emulation.SetFilterJoin

/-!
# The set and the vector along a run

Removing ranges and inserting a single one change the same keys in both implementations. The
search of the set goes by pairs instead of starts, so it misses a range of several keys at its
first key, unless the range is the first of the set.
-/

namespace Spry.Emulation

open ClosedRange

namespace PerlevelRangeDeleteFilterBySet

section Remove

variable {a d : ℤ × ℤ} {as ds S : List (ℤ × ℤ)} {start stop : ℤ}

theorem slice_eq_cut (hds : Ordered ds) (hstart : ∀ d ∈ ds, start ≤ d.2 + 1) (h : start ≤ stop) :
    (slice stop start ds).1 = (cut (start, stop) ds).1 := by
  induction ds generalizing start with
  | nil => simp [slice, cut, h]
  | cons d ds ih =>
    obtain ⟨hd, hlt, hds⟩ := Ordered.cons_iff.mp hds
    obtain ⟨hfirst, hstart⟩ := List.forall_mem_cons.mp hstart
    have hpast : d.2 < stop → (slice stop start (d :: ds)).1 =
        (if start < d.1 then [(start, d.1 - 1)] else []) ++ (cut (d.2 + 1, stop) ds).1 := by
      intro hstop
      have hnext : ∀ e ∈ ds, d.2 + 1 ≤ e.2 + 1 := fun e he => by
        have := hlt e he
        have := hds.valid e he
        omega
      rw [slice, if_pos hstop, ih hds hnext (Int.add_one_le_iff.mpr hstop)]
    have hwithin : stop ≤ d.2 → (slice stop start (d :: ds)).1 =
        if start ≤ min stop (d.1 - 1) then [(start, min stop (d.1 - 1))] else [] := by
      intro hstop
      rw [slice, if_neg (by omega)]
    rw [cut]
    split_ifs with h₁ h₂ h₃ h₄ h₅ h₆
    · obtain rfl : start = d.2 + 1 := by omega
      rw [hpast (by omega), if_neg (by omega), List.nil_append]
    · rw [hwithin (by omega), min_eq_left (by omega), if_pos h]
    · rw [hwithin (by omega), if_neg (by omega)]
    · rw [hwithin h₄.2, min_eq_right (by omega), if_pos (by omega)]
    · rw [hwithin h₅.2, if_neg (by omega)]
    · rw [hpast h₆.2, if_neg (by omega), List.nil_append]
    · rw [hpast (by omega), if_pos (by omega), List.singleton_append]

theorem slice_rest (stop start : ℤ) (ds : List (ℤ × ℤ)) :
    ∃ pre, ds = pre ++ (slice stop start ds).2 ∧ ∀ d ∈ pre, d.2 < stop := by
  induction ds generalizing start with
  | nil => exact ⟨[], rfl, by simp⟩
  | cons d ds ih =>
    rw [slice]
    by_cases hstop : d.2 < stop
    · obtain ⟨pre, heq, hpre⟩ := ih (d.2 + 1)
      rw [if_pos hstop]
      refine ⟨d :: pre, by rw [List.cons_append, ← heq], ?_⟩
      exact List.forall_mem_cons.mpr ⟨hstop, hpre⟩
    · rw [if_neg hstop]
      exact ⟨[], rfl, by simp⟩

theorem sever_eq_cut (a : ℤ × ℤ) (hds : Ordered ds) :
    (sever a ds).1.getD [a] = (cut a ds).1 := by
  induction ds with
  | nil => rfl
  | cons d ds ih =>
    obtain ⟨hd, hlt, hds'⟩ := Ordered.cons_iff.mp hds
    have hslice : d.2 < a.2 →
        (slice a.2 (d.2 + 1) (d :: ds)).1 = (cut (d.2 + 1, a.2) ds).1 := by
      intro hstop
      rw [slice, if_pos hstop, if_neg (by omega), List.nil_append]
      refine slice_eq_cut hds' (fun e he => ?_) (Int.add_one_le_iff.mpr hstop)
      have := hlt e he
      have := hds'.valid e he
      omega
    rw [sever, cut]
    split_ifs with h₁ h₂ h₃ h₄ h₅ h₆
    · exact ih hds'
    · rfl
    · rfl
    · rfl
    · rfl
    · exact hslice h₆.2
    · rw [Option.getD_some, hslice (by omega)]

theorem sever_rest (ha : a.1 ≤ a.2) (ds : List (ℤ × ℤ)) :
    ∃ pre, ds = pre ++ (sever a ds).2 ∧ ∀ d ∈ pre, d.2 ≤ a.2 := by
  induction ds with
  | nil => exact ⟨[], rfl, by simp⟩
  | cons d ds ih =>
    have hslice : ∃ pre, d :: ds = pre ++ (slice a.2 (d.2 + 1) (d :: ds)).2 ∧
        ∀ d ∈ pre, d.2 ≤ a.2 := by
      obtain ⟨pre, heq, hpre⟩ := slice_rest a.2 (d.2 + 1) (d :: ds)
      exact ⟨pre, heq, fun e he => (hpre e he).le⟩
    rw [sever]
    split_ifs with h₁ h₂ h₃ h₄ h₅ h₆
    · obtain ⟨pre, heq, hpre⟩ := ih
      exact ⟨d :: pre, by rw [List.cons_append, ← heq],
        List.forall_mem_cons.mpr ⟨by omega, hpre⟩⟩
    · exact ⟨[], rfl, by simp⟩
    · exact ⟨[d], rfl, by simp; omega⟩
    · exact ⟨[], rfl, by simp⟩
    · exact ⟨[], rfl, by simp⟩
    · exact hslice
    · exact hslice

theorem cuts_sever (ha : a.1 ≤ a.2) (hds : Ordered ds) :
    Cuts a ds ((sever a ds).1.getD [a], (sever a ds).2) := by
  have hcut := cuts_cut ha hds
  obtain ⟨pre, heq, hpre⟩ := sever_rest ha ds
  have heq' := sever_eq_cut a hds
  refine ⟨heq' ▸ hcut.coverage_eq, heq' ▸ hcut.ordered, fun p hp => hcut.inside p (heq' ▸ hp), ?_,
    fun k hk => ?_⟩
  · rw [heq] at hds
    exact (Ordered.append_iff.mp hds).2.1
  · conv_rhs => rw [heq]
    rw [coverage_append, Set.mem_union]
    refine ⟨Or.inr, fun h => h.resolve_left ?_⟩
    rintro ⟨d, hd, _, hkd⟩
    have := hpre d hd
    omega

theorem severAll_spec (has : Ordered as) (hds : Ordered ds) :
    Rebuilds as (fun lo => ∀ a ∈ as, lo < a.1) (severAll as ds) ∧
      coverage ((severAll as ds).new ++ (severAll as ds).kept) = coverage as \ coverage ds := by
  induction as generalizing ds with
  | nil => exact ⟨Rebuilds.whole Ordered.nil fun _ h => h, by simp [severAll]⟩
  | cons a as ih =>
    obtain ⟨ha, hlt, has'⟩ := Ordered.cons_iff.mp has
    have hcuts := cuts_sever ha hds
    obtain ⟨hreb, hcov⟩ := ih has' hcuts.rest
    -- the rest of the removed ranges is enough for the pairs behind this one
    have hrest : coverage as \ coverage (sever a ds).2 = coverage as \ coverage ds := by
      ext k
      refine and_congr_right fun hk => not_congr ?_
      obtain ⟨s, hs, hsk, _⟩ := hk
      exact hcuts.rest_iff k ((hlt s hs).trans_le hsk)
    have htail : ∀ lo, (∀ x ∈ a :: as, lo < x.1) → ∀ x ∈ as, lo < x.1 := fun lo h x hx =>
      h x (List.mem_cons_of_mem _ hx)
    rw [severAll, coverage_cons, Set.union_sdiff_distrib, ← hcuts.coverage_eq, ← hrest, ← hcov]
    cases hsever : (sever a ds).1 with
    | none =>
      rw [← Prod.mk.eta (p := sever a ds), hsever]
      refine ⟨hreb.keep hlt fun lo hlo => ⟨hlo a (by simp), htail lo hlo⟩, ?_⟩
      rw [coverage_keep]
      simp
    | some pieces =>
      rw [← Prod.mk.eta (p := sever a ds), hsever]
      have hord := hcuts.ordered
      have hin := hcuts.inside
      simp only [hsever, Option.getD_some] at hord hin
      refine ⟨(hreb.push a.2 hord (fun p hp => (hin p hp).2) hlt fun lo hlo =>
        ⟨htail lo hlo, fun p hp => (hlo a (by simp)).trans_le (hin p hp).1⟩).mono
          (List.sublist_cons_self _ _) fun _ h => h, ?_⟩
      rw [coverage_push]
      simp

theorem seekDiscard_spec (hS : Ordered S) (hds : Ordered ds) :
    (seekDiscard S ds).1 ++ (seekDiscard S ds).2 = S ∧
      ∀ r ∈ (seekDiscard S ds).1, ∀ d ∈ ds, r.2 < d.1 := by
  cases ds with
  | nil => exact ⟨rfl, by simp⟩
  | cons d ds =>
    refine ⟨seekBack_append, fun r hr => ?_⟩
    obtain ⟨hd, hlt, _⟩ := Ordered.cons_iff.mp hds
    have hrd := lt_of_mem_seekBack hS r hr
    refine List.forall_mem_cons.mpr ⟨hrd, fun e he => ?_⟩
    have := hlt e he
    omega

theorem removeRangeDelete_eq_some (hS : Ordered S) (hds : Ordered ds) : ∃ out,
    removeRangeDelete S ds = some out ∧ Ordered out ∧ coverage out = coverage S \ coverage ds := by
  have hchain : ∀ {rs}, Ordered rs → rs.IsChain (fun a b : ℤ × ℤ => a.2 ≤ b.1) := fun hrs =>
    (hrs.disjoint.imp fun hab => hab.le).isChain
  obtain ⟨happend, hbefore⟩ := seekDiscard_spec hS hds
  have hparts : Ordered ((seekDiscard S ds).1 ++ (seekDiscard S ds).2) := happend.symm ▸ hS
  obtain ⟨_, hrest, hcross⟩ := Ordered.append_iff.mp hparts
  obtain ⟨hreb, hcov⟩ := severAll_spec hrest hds
  refine ⟨_, if_pos ⟨hS.startSorted.isChain, hds.startSorted.isChain, hchain hS, hchain hds⟩,
    hreb.ordered_insertPairs hparts hcross, ?_⟩
  rw [coverage_insertPairs, coverage_append, Set.union_left_comm, ← coverage_append, hcov]
  -- nothing that was passed over is removed
  have hkeep : coverage (seekDiscard S ds).1 \ coverage ds = coverage (seekDiscard S ds).1 := by
    refine sdiff_eq_left.mpr (Set.disjoint_left.mpr ?_)
    rintro k ⟨r, hr, _, hkr⟩ ⟨d, hd, hdk, _⟩
    have := hbefore r hr d hd
    omega
  rw [← hkeep, ← Set.union_sdiff_distrib, ← coverage_append, happend]

end Remove

section AddSingle

open PerlevelRangeDeleteFilter (growRange)

variable {cur : ℤ × ℤ} {S rs : List (ℤ × ℤ)} {start stop : ℤ}

/-- The vector with a range in it that has grown over the ones it touches. -/
structure Grown (cur : ℤ × ℤ) (rs out : List (ℤ × ℤ)) : Prop where
  ordered : Ordered out
  coverage_eq : coverage out = Set.Icc cur.1 cur.2 ∪ coverage rs
  above : ∀ lo, lo < cur.1 → (∀ r ∈ rs, lo < r.1) → ∀ r ∈ out, lo < r.1

/-- The loop after the first range has been taken: none of the others starts before the new one. -/
theorem grown_growRange_taken (start stop : ℤ) (hrs : Ordered rs) (hcur : cur.1 ≤ cur.2)
    (hstart : cur.1 ≤ start) (hstop : stop ≤ cur.2) (hle : ∀ r ∈ rs, start ≤ r.1)
    (hlt : ∀ r ∈ rs, cur.2 < r.1 ∨ cur.2 = stop) : Grown cur rs (growRange start stop cur rs) := by
  induction rs generalizing cur with
  | nil =>
    refine ⟨Ordered.cons_iff.mpr ⟨hcur, by simp, Ordered.nil⟩, by simp [growRange], ?_⟩
    simp [growRange]
  | cons r rs ih =>
    obtain ⟨hr, hrlt, hrs'⟩ := Ordered.cons_iff.mp hrs
    obtain ⟨hler, hle⟩ := List.forall_mem_cons.mp hle
    obtain ⟨hltr, _⟩ := List.forall_mem_cons.mp hlt
    rw [growRange, if_neg (by omega)]
    split_ifs with hfar
    · refine ⟨Ordered.cons_iff.mpr ⟨hcur, ?_, hrs⟩, coverage_cons _ _,
        fun lo hlo hlo' => List.forall_mem_cons.mpr ⟨hlo, hlo'⟩⟩
      refine List.forall_mem_cons.mpr ⟨by omega, fun s hs => ?_⟩
      have := hrlt s hs
      omega
    · have hgrow : (min cur.1 r.1, max cur.2 r.2) = grow cur r := by
        rw [grow, min_eq_left (by omega)]
      rw [hgrow]
      have hstop' : stop ≤ (grow cur r).2 := hstop.trans (le_max_left _ _)
      obtain ⟨hord, hcov, habove⟩ := ih hrs' (grow_valid hcur) hstart hstop' hle fun s hs => by
        have := hrlt s hs
        simp only [grow]
        omega
      refine ⟨hord, ?_, fun lo hlo hlo' => habove lo hlo fun s hs => ?_⟩
      · rw [hcov, coverage_grow (hstart.trans hler) (by omega), coverage_cons, Set.union_assoc]
      · exact hlo' s (List.mem_cons_of_mem _ hs)

theorem grown_growRange (hrs : Ordered rs) (h : start ≤ stop) :
    Grown (start, stop) rs (growRange start stop (start, stop) rs) := by
  induction rs with
  | nil => exact grown_growRange_taken start stop hrs h le_rfl le_rfl (by simp) (by simp)
  | cons r rs ih =>
    obtain ⟨hr, hlt, hrs'⟩ := Ordered.cons_iff.mp hrs
    rw [growRange]
    split_ifs with hbefore hfar
    · obtain ⟨hord, hcov, habove⟩ := ih hrs'
      refine ⟨Ordered.cons_iff.mpr ⟨hr, habove r.2 (by simp only; omega) hlt, hord⟩, ?_, ?_⟩
      · rw [coverage_cons, hcov, coverage_cons, Set.union_left_comm]
      · intro lo hlo hlo'
        obtain ⟨hlor, hlo'⟩ := List.forall_mem_cons.mp hlo'
        exact List.forall_mem_cons.mpr ⟨hlor, habove lo hlo hlo'⟩
    · refine ⟨Ordered.cons_iff.mpr ⟨h, List.forall_mem_cons.mpr ⟨by simp only; omega, ?_⟩, hrs⟩,
        coverage_cons _ _, fun lo hlo hlo' => List.forall_mem_cons.mpr ⟨hlo, hlo'⟩⟩
      intro s hs
      have := hlt s hs
      simp only
      omega
    · have hnext : Grown (min start r.1, max stop r.2) rs
          (growRange start stop (min start r.1, max stop r.2) rs) := by
        refine grown_growRange_taken start stop hrs' ?_ (min_le_left _ _) (le_max_left _ _)
          (fun s hs => ?_) fun s hs => ?_
        · simp only
          omega
        · have := hlt s hs
          omega
        · have := hlt s hs
          simp only
          omega
      obtain ⟨hord, hcov, habove⟩ := hnext
      refine ⟨hord, ?_, fun lo hlo hlo' => habove lo ?_ fun s hs => ?_⟩
      · rw [hcov, coverage_cons, ← Set.union_assoc]
        congr 1
        ext k
        simp only [Set.mem_union, Set.mem_Icc, min_le_iff, le_max_iff]
        omega
      · exact lt_min hlo (hlo' r (by simp))
      · exact hlo' s (List.mem_cons_of_mem _ hs)

theorem growRange_perm_absorb (start stop : ℤ) (cur : ℤ × ℤ) (rs : List (ℤ × ℤ)) :
    (growRange start stop cur rs).Perm
      ((absorb start stop cur rs).1 :: (absorb start stop cur rs).2) := by
  induction rs generalizing cur with
  | nil => exact List.Perm.refl _
  | cons r rs ih =>
    rw [growRange, absorb]
    split_ifs
    · exact ((ih cur).cons r).trans (List.Perm.swap _ _ _)
    · exact List.Perm.refl _
    · exact ih _

theorem absorb_sublist (start stop : ℤ) (cur : ℤ × ℤ) (rs : List (ℤ × ℤ)) :
    (absorb start stop cur rs).2.Sublist rs := by
  induction rs generalizing cur with
  | nil => exact List.Sublist.refl _
  | cons r rs ih =>
    rw [absorb]
    split_ifs
    · exact (ih cur).cons_cons r
    · exact List.Sublist.refl _
    · exact (ih _).trans (List.sublist_cons_self _ _)

theorem addSingleRangeDelete_spec (hS : Ordered S) (h : start ≤ stop) :
    Ordered (addSingleRangeDelete S start stop) ∧
      coverage (addSingleRangeDelete S start stop) = Set.Icc start stop ∪ coverage S := by
  have hparts : Ordered ((seekBack start S).1 ++ (seekBack start S).2) := by
    rwa [seekBack_append]
  obtain ⟨_, hrest, hcross⟩ := Ordered.append_iff.mp hparts
  obtain ⟨hord, hcov, habove⟩ := grown_growRange hrest h
  have hperm := growRange_perm_absorb start stop (start, stop) (seekBack start S).2
  have hsub := absorb_sublist start stop (start, stop) (seekBack start S).2
  have hapart := (hperm.pairwise_iff Apart.symm).mp hord.apart
  have hgrown : (absorb start stop (start, stop) (seekBack start S).2).1 ∈
      growRange start stop (start, stop) (seekBack start S).2 := hperm.mem_iff.mpr (by simp)
  refine ⟨ordered_insertPair (hord.valid _ hgrown) (hparts.sublist (hsub.append_left _)) ?_, ?_⟩
  · intro r hr
    rcases List.mem_append.mp hr with hr | hr
    · exact Or.inr (habove r.2 (lt_of_mem_seekBack hS r hr) (hcross r hr) _ hgrown)
    · exact (List.pairwise_cons.mp hapart).1 r hr
  · have hcov' := coverage_perm hperm
    rw [coverage_cons] at hcov'
    rw [addSingleRangeDelete, coverage_insertPair, coverage_append, Set.union_left_comm, ← hcov',
      hcov, Set.union_left_comm, ← coverage_append, seekBack_append]

end AddSingle

section Query

variable {S : List (ℤ × ℤ)} {k : ℤ}

theorem isEntryAlive_eq_false_iff (hS : Ordered S) : isEntryAlive S k = false ↔
    k ∈ coverage S ∧ ∀ r ∈ S.tail, r.1 = k → r.2 = k := by
  obtain ⟨le, gt, heq, hseek, hle, hgt⟩ := exists_upperBound (k := k) hS
  rw [isEntryAlive, hseek, List.splitAt_eq, heq]
  rw [heq] at hS
  rcases List.eq_nil_or_concat' le with rfl | ⟨init, last, rfl⟩
  · cases gt with
    | nil => simp
    | cons r rs =>
      -- every pair is behind the key, so the first one is asked
      obtain ⟨hr, hlt, _⟩ := Ordered.cons_iff.mp hS
      have hkr := hgt r (by simp)
      have hrs : k ∉ coverage rs := notMem_coverage_of_lt fun s hs => by
        have := hlt s hs
        omega
      have htail : ∀ s ∈ rs, s.1 = k → s.2 = k := fun s hs => by
        have := hlt s hs
        omega
      simpa [hrs] using fun _ _ x y hxy => htail (x, y) hxy
  · obtain ⟨hordle, _, hcross⟩ := Ordered.append_iff.mp hS
    obtain ⟨_, _, hinit⟩ := Ordered.append_iff.mp hordle
    have hlast := (hle last (by simp)).1
    simp only [List.length_append, List.length_singleton, Nat.add_sub_cancel, List.append_assoc,
      List.drop_left, List.singleton_append, hlast, true_and, decide_not, Bool.not_eq_false',
      decide_eq_true_eq]
    constructor
    · intro hk
      refine ⟨⟨last, by simp, hlast, hk⟩, fun r hr hrk => ?_⟩
      have hr : r ∈ (init ++ [last]) ++ gt := by simpa using List.mem_of_mem_tail hr
      rcases List.mem_append.mp hr with hr | hr
      · exact (hle r hr).2 hrk
      · have := hcross last (by simp) r hr
        omega
    · rintro ⟨⟨r, hr, hrk, hkr⟩, htail⟩
      rcases List.mem_append.mp hr with hr | hr
      · have := hinit r hr last (by simp)
        omega
      · rcases List.mem_cons.mp hr with rfl | hrgt
        · exact hkr
        · -- a range behind the bound that holds the key starts at it
          have hgtr := hgt r hrgt
          have hmem : r ∈ (init ++ last :: gt).tail := by
            cases init with
            | nil => exact hrgt
            | cons x init => simp [hrgt]
          have := htail r hmem (by omega)
          omega

end Query

end PerlevelRangeDeleteFilterBySet

namespace PerlevelRangeDeleteFilter

variable {V rs : List (ℤ × ℤ)}

theorem addRangeDelete_eq_some (hV : Ordered V) (hrs : Ordered rs) : ∃ out,
    addRangeDelete V rs = some out ∧ Ordered out ∧ coverage out = coverage V ∪ coverage rs := by
  have hsome : addRangeDelete V rs = some (uniteAll V rs) :=
    if_pos ⟨hV.startSorted.isChain, hrs.startSorted.isChain⟩
  obtain ⟨hcov, hord⟩ := addRangeDelete_spec hV hrs hsome
  exact ⟨_, hsome, hord, hcov⟩

theorem removeRangeDelete_eq_some (hV : Ordered V) (hrs : Ordered rs) : ∃ out,
    removeRangeDelete V rs = some out ∧ Ordered out ∧ coverage out = coverage V \ coverage rs := by
  have hchain : rs.IsChain (fun a b => a.2 ≤ b.1) := (hrs.disjoint.imp fun hab => hab.le).isChain
  have hsome : removeRangeDelete V rs = some (subtract V rs) := if_pos
    ⟨hV.startSorted.isChain, hrs.startSorted.isChain, hV.disjoint.isChain, hchain⟩
  obtain ⟨hcov, hord⟩ := removeRangeDelete_spec hV hrs hsome
  exact ⟨_, hsome, hord, hcov⟩

theorem isEntryAlive_eq_false_iff (hV : Ordered V) {k : ℤ} :
    isEntryAlive V k = false ↔ k ∈ coverage V := by
  cases V with
  | nil => simp [isEntryAlive]
  | cons r rs =>
    rw [← mem_stepBack_iff hV]
    simp [isEntryAlive]

end PerlevelRangeDeleteFilter

namespace FilterOp

open PerlevelRangeDeleteFilterBySet (Connected)

variable {op : FilterOp} {ops : List FilterOp} {S V : List (ℤ × ℤ)}

def Keeps (S : List (ℤ × ℤ)) : FilterOp → Prop
  | .addRanges rs => ∀ b ∈ rs, Connected S rs b
  | _ => True

instance (as bs : List (ℤ × ℤ)) (b : ℤ × ℤ) : Decidable (Connected as bs b) :=
  inferInstanceAs (Decidable ((∃ a ∈ as, a.1 ≤ b.2 + 1 ∧ b.1 ≤ a.2 + 1) ∨ _))

instance (S : List (ℤ × ℤ)) : (op : FilterOp) → Decidable (op.Keeps S)
  | .addRange _ _ => inferInstanceAs (Decidable True)
  | .addRanges rs => inferInstanceAs (Decidable (∀ b ∈ rs, Connected S rs b))
  | .removeEntries _ => inferInstanceAs (Decidable True)
  | .removePairs _ => inferInstanceAs (Decidable True)

/-- Both steps succeed. The set never covers more than the vector, and it covers the same keys
just if no range is lost. -/
theorem step_spec (hS : Ordered S) (hV : Ordered V) (hcov : coverage S = coverage V)
    (hop : op.Valid) : ∃ S' V', stepBySet S op = some S' ∧ stepByVector V op = some V' ∧
      Ordered S' ∧ Ordered V' ∧ coverage S' ⊆ coverage V' ∧
      (op.Keeps S ↔ coverage S' = coverage V') := by
  have hremove : ∀ rs, Ordered rs → ∃ S' V',
      PerlevelRangeDeleteFilterBySet.removeRangeDelete S rs = some S' ∧
      PerlevelRangeDeleteFilter.removeRangeDelete V rs = some V' ∧ Ordered S' ∧ Ordered V' ∧
      coverage S' ⊆ coverage V' ∧ (True ↔ coverage S' = coverage V') := by
    intro rs hrs
    obtain ⟨S', hstep, hord, hcovS⟩ :=
      PerlevelRangeDeleteFilterBySet.removeRangeDelete_eq_some hS hrs
    obtain ⟨V', hstep', hord', hcovV⟩ :=
      PerlevelRangeDeleteFilter.removeRangeDelete_eq_some hV hrs
    have heq : coverage S' = coverage V' := by rw [hcovS, hcovV, hcov]
    exact ⟨S', V', hstep, hstep', hord, hord', heq.subset, iff_of_true trivial heq⟩
  cases op with
  | addRange start stop =>
    obtain ⟨hord, hcovS⟩ := PerlevelRangeDeleteFilterBySet.addSingleRangeDelete_spec hS hop
    obtain ⟨hord', hcovV, _⟩ := PerlevelRangeDeleteFilterBySet.grown_growRange hV hop
    have heq := hcovS.trans ((congrArg _ hcov).trans hcovV.symm)
    exact ⟨_, _, rfl, rfl, hord, hord', heq.subset, iff_of_true trivial heq⟩
  | addRanges rs =>
    obtain ⟨S', hstep, hord, hsub, hkept, hlost⟩ :=
      PerlevelRangeDeleteFilterBySet.addRangeDelete_eq_some hS hop
    obtain ⟨V', hstep', hord', hcovV⟩ := PerlevelRangeDeleteFilter.addRangeDelete_eq_some hV hop
    rw [hcov, ← hcovV] at hsub hkept
    refine ⟨S', V', hstep, hstep', hord, hord', hsub, hkept, fun h b hb => ?_⟩
    by_contra hn
    have hfirst : b.1 ∈ Set.Icc b.1 b.2 := ⟨le_rfl, Ordered.valid hop b hb⟩
    refine Set.disjoint_left.mp (hlost b hb hn) ?_ hfirst
    rw [h, hcovV]
    exact Or.inr ⟨b, hb, hfirst⟩
  | removeEntries rs => exact hremove rs hop
  | removePairs rs => exact hremove rs hop

/-- The answers agree just if the filters cover the same keys and the set has no range of several
keys besides its first one. -/
theorem isEntryAlive_eq_iff (hS : Ordered S) (hV : Ordered V) (hsub : coverage S ⊆ coverage V) :
    (∀ k, PerlevelRangeDeleteFilterBySet.isEntryAlive S k =
      PerlevelRangeDeleteFilter.isEntryAlive V k) ↔
      coverage S = coverage V ∧ ∀ r ∈ S.tail, r.1 = r.2 := by
  have hiff : ∀ k, PerlevelRangeDeleteFilterBySet.isEntryAlive S k =
      PerlevelRangeDeleteFilter.isEntryAlive V k ↔
      (k ∈ coverage V ↔ k ∈ coverage S ∧ ∀ r ∈ S.tail, r.1 = k → r.2 = k) := by
    intro k
    rw [← PerlevelRangeDeleteFilterBySet.isEntryAlive_eq_false_iff hS,
      ← PerlevelRangeDeleteFilter.isEntryAlive_eq_false_iff hV, Bool.eq_iff_iff]
    cases PerlevelRangeDeleteFilterBySet.isEntryAlive S k <;>
      cases PerlevelRangeDeleteFilter.isEntryAlive V k <;> simp
  simp only [hiff]
  constructor
  · intro h
    refine ⟨hsub.antisymm fun k hk => ((h k).mp hk).1, fun r hr => ?_⟩
    have hvalid := hS.valid r (List.mem_of_mem_tail hr)
    have hmem : r.1 ∈ coverage V := hsub ⟨r, List.mem_of_mem_tail hr, le_rfl, hvalid⟩
    exact (((h r.1).mp hmem).2 r hr rfl).symm
  · rintro ⟨hcov, htail⟩ k
    rw [hcov]
    exact ⟨fun hk => ⟨hk, fun r hr hrk => (htail r hr).symm.trans hrk⟩, And.left⟩

/-- The conditions on the states of the set along a run: none has a range of several keys besides
its first one, and no range of an inserted list is lost. -/
def Sound : List (ℤ × ℤ) → List FilterOp → Prop
  | S, [] => ∀ r ∈ S.tail, r.1 = r.2
  | S, op :: ops => (∀ r ∈ S.tail, r.1 = r.2) ∧ op.Keeps S ∧
      ∀ S' ∈ stepBySet S op, Sound S' ops

instance decidableSound : (S : List (ℤ × ℤ)) → (ops : List FilterOp) → Decidable (Sound S ops)
  | S, [] => inferInstanceAs (Decidable (∀ r ∈ S.tail, r.1 = r.2))
  | S, op :: ops =>
    have : DecidablePred fun S' => Sound S' ops := fun S' => decidableSound S' ops
    inferInstanceAs (Decidable ((∀ r ∈ S.tail, r.1 = r.2) ∧ op.Keeps S ∧
      ∀ S' ∈ stepBySet S op, Sound S' ops))

def Agree (S V : List (ℤ × ℤ)) (ops : List FilterOp) : Prop :=
  ∃ S' V', ops.foldlM stepBySet S = some S' ∧ ops.foldlM stepByVector V = some V' ∧
    ∀ k, PerlevelRangeDeleteFilterBySet.isEntryAlive S' k =
      PerlevelRangeDeleteFilter.isEntryAlive V' k

theorem agree_nil (hS : Ordered S) (hV : Ordered V) (hsub : coverage S ⊆ coverage V) :
    Agree S V [] ↔ coverage S = coverage V ∧ ∀ r ∈ S.tail, r.1 = r.2 := by
  rw [← isEntryAlive_eq_iff hS hV hsub]
  constructor
  · rintro ⟨S', V', hrun, hrun', h⟩
    obtain rfl := Option.some.inj hrun
    obtain rfl := Option.some.inj hrun'
    exact h
  · exact fun h => ⟨S, V, rfl, rfl, h⟩

theorem agree_cons {S' V' : List (ℤ × ℤ)} (hS : stepBySet S op = some S')
    (hV : stepByVector V op = some V') : Agree S V (op :: ops) ↔ Agree S' V' ops := by
  simp [Agree, List.foldlM_cons, hS, hV]

theorem forall_agree_iff (hS : Ordered S) (hV : Ordered V) (hcov : coverage S = coverage V)
    (hops : ∀ op ∈ ops, op.Valid) : (∀ pre, pre <+: ops → Agree S V pre) ↔ Sound S ops := by
  induction ops generalizing S V with
  | nil =>
    simp only [List.prefix_nil, forall_eq, Sound]
    rw [agree_nil hS hV hcov.subset]
    exact and_iff_right hcov
  | cons op ops ih =>
    obtain ⟨hop, hops⟩ := List.forall_mem_cons.mp hops
    obtain ⟨S', V', hstep, hstep', hord, hord', hsub, hkeeps⟩ := step_spec hS hV hcov hop
    have hnil := agree_nil hS hV hcov.subset
    have hnext := agree_nil hord hord' hsub
    rw [Sound]
    constructor
    · intro h
      have hagree := hnext.mp ((agree_cons hstep hstep').mp
        (h [op] (List.cons_prefix_cons.mpr ⟨rfl, List.nil_prefix⟩)))
      refine ⟨(hnil.mp (h [] List.nil_prefix)).2, hkeeps.mpr hagree.1, fun T hT => ?_⟩
      obtain rfl := Option.some.inj (hstep.symm.trans hT)
      refine (ih hord hord' hagree.1 hops).mp fun pre hpre => (agree_cons hstep hstep').mp ?_
      exact h (op :: pre) (List.cons_prefix_cons.mpr ⟨rfl, hpre⟩)
    · rintro ⟨htail, hkeep, hsound⟩ pre hpre
      rcases List.prefix_cons_iff.mp hpre with rfl | ⟨rest, rfl, hrest⟩
      · exact hnil.mpr ⟨hcov, htail⟩
      · rw [agree_cons hstep hstep']
        exact (ih hord hord' (hkeeps.mp hkeep) hops).mpr (hsound S' hstep) rest hrest

/-- The two implementations answer alike for every key, after every operation of a run, just if
along the run the set has no range of several keys besides its first one and no range of an
inserted list lies in a gap before a stored one. -/
theorem isEntryAlive_bySet_eq_byVector_iff (hops : ∀ op ∈ ops, op.Valid) :
    (∀ pre, pre <+: ops → ∃ S V, runBySet pre = some S ∧ runByVector pre = some V ∧
      ∀ k, PerlevelRangeDeleteFilterBySet.isEntryAlive S k =
        PerlevelRangeDeleteFilter.isEntryAlive V k) ↔ Sound [] ops :=
  forall_agree_iff Ordered.nil Ordered.nil rfl hops

theorem isEntryAlive_bySet_eq_byVector_sample :
    Sound [] [.addRange 10 12, .addRanges [(13, 14), (20, 20)], .removePairs [(10, 10)]] ∧
    ∀ pre, pre <+: [.addRange 10 12, .addRanges [(13, 14), (20, 20)], .removePairs [(10, 10)]] →
      ∃ S V, runBySet pre = some S ∧ runByVector pre = some V ∧
        ∀ k, PerlevelRangeDeleteFilterBySet.isEntryAlive S k =
          PerlevelRangeDeleteFilter.isEntryAlive V k := by
  have hsound : Sound []
      [.addRange 10 12, .addRanges [(13, 14), (20, 20)], .removePairs [(10, 10)]] := by decide
  refine ⟨hsound, (isEntryAlive_bySet_eq_byVector_iff ?_).mpr hsound⟩
  simp [Valid, Ordered.cons_iff, Ordered.nil]

/-- Two inserted ranges, and the start of the second one; and a list with a range in front of the
stored one. -/
theorem isEntryAlive_bySet_ne_byVector :
    (∃ S V, runBySet [.addRange 1 2, .addRange 5 9] = some S ∧
      runByVector [.addRange 1 2, .addRange 5 9] = some V ∧
      PerlevelRangeDeleteFilterBySet.isEntryAlive S 5 = true ∧
      PerlevelRangeDeleteFilter.isEntryAlive V 5 = false) ∧
    ∃ S V, runBySet [.addRange 10 12, .addRanges [(1, 3)]] = some S ∧
      runByVector [.addRange 10 12, .addRanges [(1, 3)]] = some V ∧
      PerlevelRangeDeleteFilterBySet.isEntryAlive S 2 = true ∧
      PerlevelRangeDeleteFilter.isEntryAlive V 2 = false := by
  refine ⟨⟨[(1, 2), (5, 9)], [(1, 2), (5, 9)], ?_⟩, [(10, 12)], [(1, 3), (10, 12)], ?_⟩
  · decide
  · decide

end FilterOp

end Spry.Emulation
