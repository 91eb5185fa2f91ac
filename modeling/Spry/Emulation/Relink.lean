import Spry.Emulation.FileBounds

/-!
# Replacing the overlapped files of a level

The bounds of a list of entries cut the chain of a level into the files before them, the files
that meet them and the files behind them. The entries of the middle part are extracted for a
compaction, and the new files take its place.
-/

namespace Spry.Emulation

open ClosedRange

/-- The three parts of a chain for the bounds `lo` and `hi`. -/
structure Parts (lo hi : ℤ) (pre mid post : List SSTFile) : Prop where
  pre_lt : ∀ f ∈ pre, f.getSSTMaxKey < lo
  mid_le : ∀ f ∈ mid, lo ≤ f.getSSTMaxKey ∧ f.getSSTMinKey ≤ hi
  post_lt : ∀ f ∈ post, hi < f.getSSTMinKey

structure Ascends (files : List SSTFile) : Prop where
  nonneg : ∀ f ∈ files, 0 ≤ f.getSSTMinKey
  valid : ∀ f ∈ files, f.getSSTMinKey ≤ f.getSSTMaxKey
  apart : files.Pairwise fun f g => f.getSSTMaxKey < g.getSSTMinKey

section Chain

variable {files : List SSTFile} {f g : SSTFile} {lo hi : ℤ} {pre mid post : List SSTFile}

namespace LevelOk

theorem isLeast_min (h : LevelOk files) (hf : f ∈ files) :
    IsLeast f.entries.support f.getSSTMinKey :=
  (SSTFile.key_bounds (h.sorted f hf) (h.inRange f hf) (h.nonempty f hf)).1

theorem isGreatest_max (h : LevelOk files) (hf : f ∈ files) :
    IsGreatest f.entries.support f.getSSTMaxKey :=
  (SSTFile.key_bounds (h.sorted f hf) (h.inRange f hf) (h.nonempty f hf)).2

theorem min_le_max (h : LevelOk files) (hf : f ∈ files) : f.getSSTMinKey ≤ f.getSSTMaxKey :=
  (h.isLeast_min hf).2 (h.isGreatest_max hf).1

theorem ascends (h : LevelOk files) : Ascends files where
  nonneg f hf := (h.inRange f hf (h.isLeast_min hf).1).1
  valid _ hf := h.min_le_max hf
  apart := h.apart.imp_of_mem fun hf hg hfg =>
    hfg _ (h.isGreatest_max hf).1 _ (h.isLeast_min hg).1

end LevelOk

theorem exists_parts (h : Ascends files) (lo hi : ℤ) :
    ∃ pre mid post, files = pre ++ mid ++ post ∧ Parts lo hi pre mid post := by
  induction files with
  | nil => exact ⟨[], [], [], rfl, by simp, by simp, by simp⟩
  | cons f fs ih =>
    obtain ⟨hfirst, hapart⟩ := List.pairwise_cons.mp h.apart
    obtain ⟨_, hnonneg⟩ := List.forall_mem_cons.mp h.nonneg
    obtain ⟨hff, hvalid⟩ := List.forall_mem_cons.mp h.valid
    obtain ⟨pre, mid, post, rfl, hpre, hmid, hpost⟩ := ih ⟨hnonneg, hvalid, hapart⟩
    by_cases hlow : f.getSSTMaxKey < lo
    · exact ⟨f :: pre, mid, post, rfl, List.forall_mem_cons.mpr ⟨hlow, hpre⟩, hmid, hpost⟩
    -- every later file ends behind `f`, so none of them lies before the bounds
    have hnil : pre = [] := by
      rw [List.eq_nil_iff_forall_not_mem]
      intro g hg
      have h₁ := hpre g hg
      have h₂ := hfirst g (by simp [hg])
      have h₃ := hvalid g (by simp [hg])
      omega
    subst hnil
    by_cases hhigh : hi < f.getSSTMinKey
    · refine ⟨[], [], f :: ([] ++ mid ++ post), rfl, by simp, by simp, ?_⟩
      refine List.forall_mem_cons.mpr ⟨hhigh, fun g hg => ?_⟩
      have := hfirst g hg
      omega
    · exact ⟨[], f :: mid, post, rfl, by simp,
        List.forall_mem_cons.mpr ⟨by omega, hmid⟩, hpost⟩

namespace Parts

theorem filter_pre (hparts : Parts lo hi pre mid post) (hle : lo ≤ hi)
    (hb : ∀ f ∈ post, f.getSSTMinKey ≤ f.getSSTMaxKey) :
    (pre ++ mid ++ post).filter (fun f => f.getSSTMaxKey < lo) = pre := by
  have hpre : pre.filter (fun f => f.getSSTMaxKey < lo) = pre :=
    List.filter_eq_self.mpr fun f hf => by simpa using hparts.pre_lt f hf
  have hmid : mid.filter (fun f => f.getSSTMaxKey < lo) = [] :=
    List.filter_eq_nil_iff.mpr fun f hf => by simpa using (hparts.mid_le f hf).1
  have hpost : post.filter (fun f => f.getSSTMaxKey < lo) = [] := by
    refine List.filter_eq_nil_iff.mpr fun f hf => ?_
    have h₁ := hparts.post_lt f hf
    have h₂ := hb f hf
    simp only [decide_eq_true_eq]
    omega
  rw [List.filter_append, List.filter_append, hpre, hmid, hpost, List.append_nil, List.append_nil]

theorem filter_post (hparts : Parts lo hi pre mid post) (hle : lo ≤ hi)
    (hb : ∀ f ∈ pre, f.getSSTMinKey ≤ f.getSSTMaxKey) :
    (pre ++ mid ++ post).filter (fun f => hi < f.getSSTMinKey) = post := by
  have hpre : pre.filter (fun f => hi < f.getSSTMinKey) = [] := by
    refine List.filter_eq_nil_iff.mpr fun f hf => ?_
    have h₁ := hparts.pre_lt f hf
    have h₂ := hb f hf
    simp only [decide_eq_true_eq]
    omega
  have hmid : mid.filter (fun f => hi < f.getSSTMinKey) = [] :=
    List.filter_eq_nil_iff.mpr fun f hf => by simpa using (hparts.mid_le f hf).2
  have hpost : post.filter (fun f => hi < f.getSSTMinKey) = post :=
    List.filter_eq_self.mpr fun f hf => by simpa using hparts.post_lt f hf
  rw [List.filter_append, List.filter_append, hpre, hmid, hpost, List.nil_append, List.nil_append]

end Parts

theorem overlappedEntries_eq (hparts : Parts lo hi pre mid post) (hle : lo ≤ hi)
    (hb : ∀ f ∈ post, f.getSSTMinKey ≤ f.getSSTMaxKey) :
    overlappedEntries lo hi (pre ++ mid ++ post) = levelEntries mid := by
  obtain ⟨hpre, hmid, hpost⟩ := hparts
  induction pre with
  | nil =>
    rw [List.nil_append]
    induction mid with
    | nil =>
      cases post with
      | nil => rfl
      | cons f fs =>
        have h₁ := hpost f (by simp)
        have h₂ := hb f (by simp)
        rw [List.nil_append, overlappedEntries, if_neg (by omega), if_pos h₁]
        rfl
    | cons f fs ih =>
      obtain ⟨⟨h₁, h₂⟩, hmid⟩ := List.forall_mem_cons.mp hmid
      rw [List.cons_append, overlappedEntries, if_neg (by omega), if_neg (by omega), ih hmid]
      rfl
  | cons f fs ih =>
    obtain ⟨h₁, hpre⟩ := List.forall_mem_cons.mp hpre
    rw [List.cons_append, List.cons_append, overlappedEntries, if_pos h₁, ih hpre]

theorem upToMovingHead_eq {head : SSTFile} (hne : pre ≠ []) (hparts : Parts lo hi pre mid post) :
    upToMovingHead head (pre ++ mid) lo = pre := by
  have hmid : ∀ f ∈ mid.reverse, decide (¬ f.getSSTMaxKey < lo) = true := by
    intro f hf
    have := (hparts.mid_le f (List.mem_reverse.mp hf)).1
    simpa using this
  have hdrop : (pre ++ mid).reverse.dropWhile (fun f => ¬ f.getSSTMaxKey < lo) = pre.reverse := by
    rw [List.reverse_append, List.dropWhile_append_of_pos hmid]
    cases hrev : pre.reverse with
    | nil => rfl
    | cons f fs =>
      have hf : f ∈ pre := by
        rw [← List.mem_reverse, hrev]
        simp
      rw [List.dropWhile_cons_of_neg (by simpa using hparts.pre_lt f hf)]
  rw [upToMovingHead, hdrop, List.reverse_reverse]
  cases pre with
  | nil => exact absurd rfl hne
  | cons f fs => rfl

theorem upToMovingHead_nil {head : SSTFile} (hparts : Parts lo hi [] mid post) :
    upToMovingHead head mid lo = [head] := by
  have hdrop : mid.reverse.dropWhile (fun f => ¬ f.getSSTMaxKey < lo) = [] := by
    rw [List.dropWhile_eq_nil_iff]
    intro f hf
    have := (hparts.mid_le f (List.mem_reverse.mp hf)).1
    simpa using this
  rw [upToMovingHead, hdrop]
  rfl

theorem span_movingEnd (hparts : Parts lo hi pre mid post) (hle : lo ≤ hi)
    (hb : ∀ f ∈ pre ++ mid ++ post, f.getSSTMinKey ≤ f.getSSTMaxKey) :
    (pre ++ mid ++ post).takeWhile (fun f => f.getSSTMinKey ≤ hi) = pre ++ mid ∧
      (pre ++ mid ++ post).dropWhile (fun f => f.getSSTMinKey ≤ hi) = post := by
  have hpassed : ∀ f ∈ pre ++ mid, decide (f.getSSTMinKey ≤ hi) = true := by
    intro f hf
    rw [decide_eq_true_eq]
    rcases List.mem_append.mp hf with h | h
    · have h₁ := hparts.pre_lt f h
      have h₂ := hb f (by simp [h])
      omega
    · exact (hparts.mid_le f h).2
  rw [List.takeWhile_append_of_pos hpassed, List.dropWhile_append_of_pos hpassed]
  cases post with
  | nil => simp
  | cons f fs =>
    have hf : ¬ decide (f.getSSTMinKey ≤ hi) = true := by
      simpa using hparts.post_lt f (by simp)
    have htake : (f :: fs).takeWhile (fun f => f.getSSTMinKey ≤ hi) = [] :=
      List.takeWhile_cons_of_neg hf
    rw [htake, List.append_nil]
    exact ⟨rfl, List.dropWhile_cons_of_neg hf⟩

theorem head_lt_iff {head : SSTFile} {tail : List SSTFile} (hparts : Parts lo hi pre mid post)
    (hle : lo ≤ hi) (hb : ∀ f ∈ pre ++ mid ++ post, f.getSSTMinKey ≤ f.getSSTMaxKey)
    (hfiles : pre ++ mid ++ post = head :: tail) : head.getSSTMaxKey < lo ↔ pre ≠ [] := by
  cases pre with
  | nil =>
    refine iff_of_false (fun hlt => ?_) (by simp)
    have hmem : head ∈ mid ++ post := by
      rw [← List.nil_append mid, hfiles]
      simp
    rcases List.mem_append.mp hmem with h | h
    · have := (hparts.mid_le head h).1
      omega
    · have h₁ := hparts.post_lt head h
      have h₂ := hb head (by simp [h])
      omega
  | cons f fs =>
    rw [List.cons_append, List.cons_append, List.cons.injEq] at hfiles
    exact iff_of_true (hfiles.1 ▸ hparts.pre_lt f (by simp)) (by simp)

/-- The new files take the place of the middle part exactly if the first of them is on the same
side of the head of the chain as the bounds. -/
theorem relink_eq_iff {n : SSTFile} {ns : List SSTFile} (hparts : Parts lo hi pre mid post)
    (hle : lo ≤ hi) (hb : ∀ f ∈ pre ++ mid ++ post, f.getSSTMinKey ≤ f.getSSTMaxKey) :
    relink (pre ++ mid ++ post) (n :: ns) lo hi = pre ++ n :: ns ++ post ↔
      ∀ head ∈ (pre ++ mid ++ post).head?,
        (n.getSSTMinKey ≤ head.getSSTMaxKey ↔ lo ≤ head.getSSTMaxKey) := by
  obtain ⟨htake, hdrop⟩ := span_movingEnd hparts hle hb
  cases hfiles : pre ++ mid ++ post with
  | nil =>
    obtain ⟨rfl, rfl, rfl⟩ := by simpa using hfiles
    simp [relink]
  | cons head tail =>
    have hhead := head_lt_iff hparts hle hb hfiles
    rw [hfiles] at htake hdrop
    simp only [relink, htake, hdrop, List.head?_cons, Option.mem_some_iff, forall_eq']
    rw [← not_lt (a := head.getSSTMaxKey) (b := lo), hhead, not_not]
    by_cases hn : n.getSSTMinKey ≤ head.getSSTMaxKey
    · rw [if_pos hn, iff_true_left hn, List.append_left_inj, List.self_eq_append_left]
    · rw [if_neg hn, iff_false_left hn]
      by_cases hpre : pre = []
      · subst hpre
        rw [List.nil_append, upToMovingHead_nil hparts]
        simp
      · rw [upToMovingHead_eq hpre hparts]
        simp [hpre]

end Chain

theorem LevelOk.isLeast_head {n : SSTFile} {ns : List SSTFile} (h : LevelOk (n :: ns)) :
    IsLeast (levelEntries (n :: ns)).support n.getSSTMinKey := by
  have hmin := h.isLeast_min (f := n) (by simp)
  refine ⟨mem_support_levelEntries.mpr ⟨n, by simp, hmin.1⟩, fun k hk => ?_⟩
  obtain ⟨g, hg, hkg⟩ := mem_support_levelEntries.mp hk
  rcases List.mem_cons.mp hg with rfl | hg
  · exact hmin.2 hkg
  · exact ((List.pairwise_cons.mp h.apart).1 g hg _ hmin.1 _ hkg).le

theorem LevelOk.replace {lo hi : ℤ} {pre mid post new : List SSTFile}
    (h : LevelOk (pre ++ mid ++ post)) (hnew : LevelOk new) (hparts : Parts lo hi pre mid post)
    (hbounds : ∀ k ∈ (levelEntries new).support, lo ≤ k ∧ k ≤ hi) :
    LevelOk (pre ++ new ++ post) := by
  obtain ⟨hpm, hpost, hbefore⟩ := append_iff.mp h
  obtain ⟨hpre, _, _⟩ := append_iff.mp hpm
  have hpre_new : (levelEntries pre).Before (levelEntries new) := by
    rw [levelEntries_before_iff]
    intro f hf a ha b hb
    have h₁ := (hpre.isGreatest_max hf).2 ha
    have h₂ := hparts.pre_lt f hf
    have h₃ := (hbounds b hb).1
    omega
  have hnew_post : (levelEntries new).Before (levelEntries post) := by
    rw [before_levelEntries_iff]
    intro f hf a ha b hb
    have h₁ := (hbounds a ha).2
    have h₂ := hparts.post_lt f hf
    have h₃ := (hpost.isLeast_min hf).2 hb
    omega
  refine append_iff.mpr ⟨append_iff.mpr ⟨hpre, hnew, hpre_new⟩, hpost, ?_⟩
  rw [levelEntries_append] at hbefore ⊢
  intro a ha b hb
  rw [EntryList.support_append] at ha
  rcases ha with ha | ha
  · exact hbefore a (EntryList.support_append ▸ Or.inl ha) b hb
  · exact hnew_post a ha b hb

/-- The files of a level after a sorted list has been written into it: the ones before it, the
new ones with its content, and the ones behind it. -/
theorem compactAndFlush_spec {env : EmuEnv} {level : ℕ} {l : EntryList}
    {files files' pre mid post : List SSTFile} (hstores : env.StoresAll) (hl : l.Sorted)
    (hr : l.InRange) (hne : l.support.Nonempty) (hok : LevelOk files)
    (hfiles : files = pre ++ mid ++ post) (hparts : Parts l.getMinKey l.getMaxKey pre mid post)
    (h : compactAndFlush env level files l = some files') :
    ∃ new, files' = pre ++ new ++ post ∧ new ≠ [] ∧
      writeFiles env level (l.points.length + l.ranges.length) l = some new ∧
      EntryList.SameContent (levelEntries new) l ∧ LevelOk files' := by
  have hlo := EntryList.isLeast_getMinKey hl hr hne
  have hhi := EntryList.isGreatest_getMaxKey hl hr hne
  rw [compactAndFlush, if_neg (EntryList.not_empty_of_nonempty hne)] at h
  obtain ⟨new, hnew, rfl⟩ := Option.map_eq_some_iff.mp h
  obtain ⟨hnewok, hsame⟩ := writeFiles_spec hstores hl hr hnew
  have hsupport := hsame.support_eq
  cases new with
  | nil =>
    obtain ⟨k, hk⟩ := hne
    rw [← hsupport, mem_support_levelEntries] at hk
    simp at hk
  | cons n ns =>
    have hn : n.getSSTMinKey = l.getMinKey := hnewok.isLeast_head.unique (hsupport.symm ▸ hlo)
    rw [hfiles] at hok
    rw [hfiles, (relink_eq_iff hparts (hlo.2 hhi.1) fun f hf => hok.min_le_max hf).mpr
      fun _ _ => by rw [hn]]
    refine ⟨n :: ns, rfl, by simp, hnew, hsame, hok.replace hnewok hparts fun k hk => ?_⟩
    rw [hsupport] at hk
    exact ⟨hlo.2 hk, hhi.2 hk⟩

end Spry.Emulation
