import Spry.Emulation.Populate
import Spry.Emulation.SplitOut

/-!
# The files of a level

The files of a level have separate keys in the order of their chain. The entries of all of them
are one sorted list, and writing a sorted list as files gives a level that answers like it.
-/

namespace Spry.Emulation

open ClosedRange

def levelEntries : List SSTFile → EntryList
  | [] => EntryList.clear
  | f :: fs => f.entries.append (levelEntries fs)

structure LevelOk (files : List SSTFile) : Prop where
  sorted : ∀ f ∈ files, f.entries.Sorted
  nonempty : ∀ f ∈ files, f.entries.support.Nonempty
  inRange : ∀ f ∈ files, f.entries.InRange
  apart : files.Pairwise fun f g => f.entries.Before g.entries

section Entries

variable {files gs : List SSTFile} {f : SSTFile} {k : ℤ}

theorem mem_support_levelEntries :
    k ∈ (levelEntries files).support ↔ ∃ f ∈ files, k ∈ f.entries.support := by
  induction files with
  | nil => simp [levelEntries, EntryList.support_clear]
  | cons f fs ih => simp [levelEntries, EntryList.support_append, ih]

theorem mem_coverage_levelEntries :
    k ∈ coverage (levelEntries files).ranges ↔ ∃ f ∈ files, k ∈ coverage f.entries.ranges := by
  induction files with
  | nil => simp [levelEntries, EntryList.clear]
  | cons f fs ih => simp [levelEntries, EntryList.append, coverage_append, ih]

theorem mem_pointKeys_levelEntries :
    k ∈ pointKeys (levelEntries files).points ↔ ∃ f ∈ files, k ∈ pointKeys f.entries.points := by
  induction files with
  | nil => simp [levelEntries, EntryList.clear, pointKeys]
  | cons f fs ih => simp [levelEntries, EntryList.append, EntryList.pointKeys_append, ih]

theorem levelEntries_append :
    levelEntries (files ++ gs) = (levelEntries files).append (levelEntries gs) := by
  induction files with
  | nil => rfl
  | cons f fs ih =>
    rw [List.cons_append, levelEntries, ih, levelEntries]
    simp [EntryList.append]

theorem before_levelEntries_iff {l : EntryList} :
    l.Before (levelEntries files) ↔ ∀ f ∈ files, l.Before f.entries := by
  constructor
  · intro h f hf a ha b hb
    exact h a ha b (mem_support_levelEntries.mpr ⟨f, hf, hb⟩)
  · intro h a ha b hb
    obtain ⟨f, hf, hb⟩ := mem_support_levelEntries.mp hb
    exact h f hf a ha b hb

theorem levelEntries_before_iff {l : EntryList} :
    (levelEntries files).Before l ↔ ∀ f ∈ files, f.entries.Before l := by
  constructor
  · intro h f hf a ha
    exact h a (mem_support_levelEntries.mpr ⟨f, hf, ha⟩)
  · intro h a ha
    obtain ⟨f, hf, ha⟩ := mem_support_levelEntries.mp ha
    exact h f hf a ha

namespace LevelOk

theorem nil : LevelOk [] := ⟨by simp, by simp, by simp, List.Pairwise.nil⟩

theorem cons_iff : LevelOk (f :: files) ↔
    (f.entries.Sorted ∧ f.entries.support.Nonempty ∧ f.entries.InRange) ∧
      f.entries.Before (levelEntries files) ∧ LevelOk files := by
  constructor
  · rintro ⟨hs, hn, hr, ha⟩
    obtain ⟨hf, ha⟩ := List.pairwise_cons.mp ha
    obtain ⟨hs, hss⟩ := List.forall_mem_cons.mp hs
    obtain ⟨hn, hns⟩ := List.forall_mem_cons.mp hn
    obtain ⟨hr, hrs⟩ := List.forall_mem_cons.mp hr
    exact ⟨⟨hs, hn, hr⟩, before_levelEntries_iff.mpr hf, hss, hns, hrs, ha⟩
  · rintro ⟨⟨hs, hn, hr⟩, hf, hfs⟩
    exact ⟨List.forall_mem_cons.mpr ⟨hs, hfs.sorted⟩, List.forall_mem_cons.mpr ⟨hn, hfs.nonempty⟩,
      List.forall_mem_cons.mpr ⟨hr, hfs.inRange⟩,
      List.pairwise_cons.mpr ⟨before_levelEntries_iff.mp hf, hfs.apart⟩⟩

theorem append_iff : LevelOk (files ++ gs) ↔
    LevelOk files ∧ LevelOk gs ∧ (levelEntries files).Before (levelEntries gs) := by
  induction files with
  | nil =>
    simp only [List.nil_append, levelEntries, nil, true_and]
    exact ⟨fun h => ⟨h, by simp [EntryList.Before, EntryList.support_clear]⟩, And.left⟩
  | cons f fs ih =>
    rw [List.cons_append, cons_iff, cons_iff, ih, levelEntries_append]
    simp only [EntryList.Before, levelEntries, EntryList.support_append, Set.mem_union]
    constructor
    · rintro ⟨hf, hb, hfs, hgs, hfg⟩
      refine ⟨⟨hf, fun a ha b hb' => hb a ha b (Or.inl hb'), hfs⟩, hgs, ?_⟩
      rintro a (ha | ha) b hb'
      · exact hb a ha b (Or.inr hb')
      · exact hfg a ha b hb'
    · rintro ⟨⟨hf, hb, hfs⟩, hgs, hfg⟩
      refine ⟨hf, ?_, hfs, hgs, fun a ha => hfg a (Or.inr ha)⟩
      rintro a ha b (hb' | hb')
      · exact hb a ha b hb'
      · exact hfg a (Or.inl ha) b hb'

theorem sorted_levelEntries (h : LevelOk files) : (levelEntries files).Sorted := by
  induction files with
  | nil => exact ⟨List.Pairwise.nil, Ordered.nil⟩
  | cons f fs ih =>
    obtain ⟨⟨hs, _, _⟩, hb, hfs⟩ := cons_iff.mp h
    exact hs.append (ih hfs) hb

theorem inRange_levelEntries (h : LevelOk files) : (levelEntries files).InRange := by
  intro k hk
  obtain ⟨f, hf, hk⟩ := mem_support_levelEntries.mp hk
  exact h.inRange f hf hk

theorem verdict_append (h : LevelOk (files ++ gs)) :
    (levelEntries (files ++ gs)).verdict k =
      ((levelEntries files).verdict k).or ((levelEntries gs).verdict k) := by
  rw [levelEntries_append]
  exact EntryList.verdict_append (append_iff.mp h).2.2

theorem sublist (h : LevelOk files) (hgs : gs.Sublist files) : LevelOk gs :=
  ⟨fun f hf => h.sorted f (hgs.subset hf), fun f hf => h.nonempty f (hgs.subset hf),
    fun f hf => h.inRange f (hgs.subset hf), h.apart.sublist hgs⟩

end LevelOk

end Entries

section WriteFiles

variable {env : EmuEnv} {level : ℕ}

theorem writeFiles_stuck {l : EntryList} (hne : ¬ l.empty = true)
    (h : l.splitOutBySizeInByte env = some (EntryList.clear, l)) (n : ℕ) :
    writeFiles env level n l = none := by
  induction n with
  | zero => rw [writeFiles, if_neg hne]
  | succ n ih =>
    rw [writeFiles, if_neg hne, h, Option.bind_some]
    simp only [ih, Option.map_none]

theorem splitOut_of_fileSize_eq_zero {l out rest : EntryList} (hzero : env.fileSize = 0)
    (h : l.splitOutBySizeInByte env = some (out, rest)) :
    l.splitOutBySizeInByte env = some (EntryList.clear, l) := by
  have hcond := (Option.ite_none_right_eq_some.mp h).1
  have hfill : fill env l.ranges 0 l.points = Fill.stop 0 l.points l.ranges := by
    cases hr : l.ranges with
    | nil =>
      cases hp : l.points with
      | nil => rfl
      | cons p ps => simp [fill, fillPoints, hzero]
    | cons r rs =>
      cases hp : l.points with
      | nil => simp [fill, fillRange, hzero]
      | cons p ps => simp [fill, fillRange, hzero]
  rw [EntryList.splitOutBySizeInByte, if_pos hcond, hfill]
  rfl

theorem splitOut_progress {l out rest : EntryList} (hpos : 0 < env.fileSize)
    (hne : ¬ l.empty = true)
    (h : l.splitOutBySizeInByte env = some (out, rest)) : ¬ out.empty = true := by
  rw [EntryList.empty_iff] at hne
  obtain ⟨⟨_, _, _, hsize⟩, h⟩ := Option.ite_none_right_eq_some.mp h
  have hprogress := fill_progress hsize hpos hne
  rw [Fill.splitLast] at h
  cases hp : (fill env l.ranges 0 l.points).out.points.reverse with
  | nil =>
    simp only [hp, Option.some.injEq, Prod.mk.injEq] at h
    exact h.1 ▸ hprogress
  | cons p before =>
    cases hr : (fill env l.ranges 0 l.points).rest.ranges with
    | nil =>
      simp only [hp, hr, Option.some.injEq, Prod.mk.injEq] at h
      exact h.1 ▸ hprogress
    | cons r rs =>
      simp only [hp, hr] at h
      obtain ⟨⟨q, before', rest'⟩, _, heq⟩ := Option.map_eq_some_iff.mp h
      split_ifs at heq
      · rw [← (Prod.mk.inj heq).1, EntryList.empty_iff]
        simp
      · rw [← (Prod.mk.inj heq).1, EntryList.empty_iff]
        simp

theorem sameContent_nil_of_empty {l : EntryList} (h : l.empty = true) :
    EntryList.SameContent (levelEntries []) l := by
  obtain ⟨hpoints, hranges⟩ := EntryList.empty_iff.mp h
  exact ⟨hpoints.symm, by rw [hranges]; rfl⟩

theorem writeFiles_spec (hstores : env.StoresAll) {n : ℕ} {l : EntryList} {files : List SSTFile}
    (hl : l.Sorted) (hr : l.InRange) (h : writeFiles env level n l = some files) :
    LevelOk files ∧ EntryList.SameContent (levelEntries files) l := by
  induction n generalizing l files with
  | zero =>
    rw [writeFiles, Option.ite_none_right_eq_some] at h
    obtain rfl := (Option.some.inj h.2).symm
    exact ⟨LevelOk.nil, sameContent_nil_of_empty h.1⟩
  | succ n ih =>
    rw [writeFiles] at h
    by_cases hempty : l.empty = true
    · rw [if_pos hempty] at h
      obtain rfl := (Option.some.inj h).symm
      exact ⟨LevelOk.nil, sameContent_nil_of_empty hempty⟩
    · rw [if_neg hempty] at h
      obtain ⟨⟨out, rest⟩, hsplit, h⟩ := Option.bind_eq_some_iff.mp h
      obtain ⟨fs, hfs, rfl⟩ := Option.map_eq_some_iff.mp h
      have hspec := splitOut_spec hl hsplit
      have hsupport := hspec.support_eq
      have hpos : 0 < env.fileSize := by
        rw [Nat.pos_iff_ne_zero]
        intro hzero
        have hstuck := splitOut_of_fileSize_eq_zero hzero hsplit
        obtain ⟨_, rfl⟩ := Prod.mk.inj (Option.some.inj (hsplit.symm.trans hstuck))
        rw [writeFiles_stuck hempty hstuck] at hfs
        cases hfs
      have hentries : (populateFile env level out).entries = out :=
        hstores level out hspec.size_le
      have hoccupied : ¬ out.empty = true := splitOut_progress hpos hempty hsplit
      obtain ⟨hok, hsame⟩ := ih hspec.rest_sorted
        (fun k hk => hr (hsupport ▸ Set.mem_union_right _ hk)) hfs
      have hbefore : out.Before (levelEntries fs) := fun a ha b hb =>
        hspec.before a ha b (hsame.support_eq ▸ hb)
      refine ⟨LevelOk.cons_iff.mpr ⟨?_, hentries.symm ▸ hbefore, hok⟩, ?_, ?_⟩
      · rw [hentries]
        exact ⟨hspec.out_sorted, EntryList.support_nonempty hspec.out_sorted hoccupied,
          fun k hk => hr (hsupport ▸ Set.mem_union_left _ hk)⟩
      · rw [levelEntries, hentries, EntryList.append, hsame.points_eq, hspec.points_eq]
      · rw [levelEntries, hentries, EntryList.append, coverage_append, hsame.coverage_eq,
          hspec.coverage_eq]

theorem length_writeFiles (hstores : env.StoresAll) {n : ℕ} {l : EntryList}
    {files : List SSTFile} (hl : l.Sorted) (h : writeFiles env level n l = some files) :
    (levelEntries files).ranges.length = l.ranges.length + fileBoundarySplits env n l := by
  have hempty : ∀ m : EntryList, m.empty = true → m.ranges.length = 0 := fun m hm => by
    rw [(EntryList.empty_iff.mp hm).2, List.length_nil]
  induction n generalizing l files with
  | zero =>
    rw [writeFiles, Option.ite_none_right_eq_some] at h
    rw [← Option.some.inj h.2, hempty l h.1]
    rfl
  | succ n ih =>
    rw [writeFiles] at h
    rw [fileBoundarySplits]
    by_cases hl' : l.empty = true
    · rw [if_pos hl'] at h
      rw [if_pos hl', ← Option.some.inj h, hempty l hl']
      rfl
    · rw [if_neg hl'] at h
      obtain ⟨⟨out, rest⟩, hsplit, h⟩ := Option.bind_eq_some_iff.mp h
      obtain ⟨fs, hfs, rfl⟩ := Option.map_eq_some_iff.mp h
      have hspec := splitOut_spec hl hsplit
      have hlength := splitOut_length hl hsplit
      have hrest := ih hspec.rest_sorted hfs
      rw [if_neg hl', hsplit, Option.elim_some, levelEntries, hstores level out hspec.size_le]
      simp only [EntryList.append, List.length_append]
      omega

theorem writeFiles_eq_of_le (hpos : 0 < env.fileSize) {n m : ℕ} {l : EntryList} (hl : l.Sorted)
    (hn : l.points.length + l.ranges.length ≤ n) (hm : l.points.length + l.ranges.length ≤ m) :
    writeFiles env level n l = writeFiles env level m l := by
  induction n generalizing m l with
  | zero =>
    have hempty : l.empty = true := by
      rw [EntryList.empty_iff, ← List.length_eq_zero_iff, ← List.length_eq_zero_iff]
      omega
    cases m with
    | zero => rfl
    | succ m => rw [writeFiles, writeFiles, if_pos hempty, if_pos hempty]
  | succ n ih =>
    by_cases hempty : l.empty = true
    · cases m with
      | zero => rw [writeFiles, writeFiles, if_pos hempty, if_pos hempty]
      | succ m => rw [writeFiles, writeFiles, if_pos hempty, if_pos hempty]
    · cases m with
      | zero =>
        rw [EntryList.empty_iff, ← List.length_eq_zero_iff, ← List.length_eq_zero_iff] at hempty
        omega
      | succ m =>
        rw [writeFiles, writeFiles, if_neg hempty, if_neg hempty]
        cases hsplit : l.splitOutBySizeInByte env with
        | none => rfl
        | some p =>
          obtain ⟨out, rest⟩ := p
          have hspec := splitOut_spec hl hsplit
          have hlen := hspec.length_le
          rw [if_neg (splitOut_progress hpos hempty hsplit)] at hlen
          rw [Option.bind_some, Option.bind_some]
          simp only
          rw [ih hspec.rest_sorted (m := m) (by omega) (by omega)]

end WriteFiles

end Spry.Emulation
