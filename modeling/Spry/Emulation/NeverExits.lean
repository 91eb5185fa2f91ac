import Spry.Emulation.Exits
import Spry.Emulation.Run

/-!
# Which checks can fail

In a configuration whose files store what is written to them, the state of the tree establishes
every check of a flush but one: a list written to a level without files may have points, and yet
fewer than a delete tile has pages. With tiles of one page no run exits, and with longer tiles
some run does.
-/

namespace Spry.Emulation

open ClosedRange Fallible Relation
open HalfOpen (StartSorted sortByStart)

/-- The run has crashed, or stopped at the check of the tile size in a configuration with tiles of
more than one page. -/
def Halt.AtDeleteTile (env : EmuEnv) : Halt → Prop
  | .exit check => check = .deleteTile ∧ ∃ level, 1 ≤ level ∧ 2 ≤ env.getDeleteTileSize level
  | .crash => True

section Checks

variable {α : Type} {env : EmuEnv}

theorem allows_require {p : Prop} [Decidable p] {check : Check} {x : Except Halt α} (h : p)
    (hx : Allows (Halt.AtDeleteTile env) x) :
    Allows (Halt.AtDeleteTile env) (require p check >>= fun _ => x) := by
  rw [require, if_pos h]
  exact hx

theorem allows_orCrash (x : Option α) : Allows (Halt.AtDeleteTile env) (orCrash x) := by
  cases x with
  | none => exact allows_error trivial
  | some a => exact allows_ok a

theorem ascending_of_startSorted {rs : List (ℤ × ℤ)} (h : StartSorted rs) :
    EntryList.ascending rs := h.isChain

theorem ascending_of_ordered {rs : List (ℤ × ℤ)} (h : Ordered rs) : EntryList.ascending rs :=
  ascending_of_startSorted h.startSorted

theorem isChain_le_of_ordered {rs : List (ℤ × ℤ)} (h : Ordered rs) :
    rs.IsChain fun a b => a.2 ≤ b.1 := (h.disjoint.imp fun hab => hab.le).isChain

theorem ascendingPoints_of_ascending {ps : List PointEntry} (h : Ascending ps) :
    EntryList.ascendingPoints ps := (h.imp fun hab => hab.le).isChain

theorem distinctPoints_of_ascending {ps : List PointEntry} (h : Ascending ps) :
    EntryList.distinctPoints ps := (h.imp fun hab => hab.ne).isChain

theorem allows_addRangeDelete {rd rs : List (ℤ × ℤ)} (hrd : Ordered rd) (hrs : Ordered rs) :
    Allows (Halt.AtDeleteTile env) (Checked.addRangeDelete rd rs) :=
  allows_require (ascending_of_ordered hrd) <|
    allows_require (ascending_of_ordered hrs) <| allows_orCrash _

theorem allows_removeRangeDelete {rd rs : List (ℤ × ℤ)} (hrd : Ordered rd) (hrs : Ordered rs) :
    Allows (Halt.AtDeleteTile env) (Checked.removeRangeDelete rd rs) :=
  allows_require (ascending_of_ordered hrd) <|
    allows_require (ascending_of_ordered hrs) <|
      allows_require hrd.disjoint.isChain <|
        allows_require (isChain_le_of_ordered hrs) <| allows_orCrash _

theorem allows_updateFilterAtLevel {level : ℕ}
    {op : List (ℤ × ℤ) → Except Halt (List (ℤ × ℤ))} {filters : List (List (ℤ × ℤ))}
    (hlevel : level ≤ filters.length)
    (hop : Allows (Halt.AtDeleteTile env) (op (filters.getD level []))) :
    Allows (Halt.AtDeleteTile env) (Checked.updateFilterAtLevel level op filters) := by
  refine allows_require hlevel (allows_bind ?_ fun out _ => allows_ok _)
  split_ifs
  · rwa [getD_snoc_nil]
  · exact hop

theorem allows_sortEntries (level : ℕ) (l : EntryList) :
    Allows (Halt.AtDeleteTile env) (Checked.sortEntries level l) := by
  rw [Checked.sortEntries]
  split_ifs
  · exact allows_require (ascending_of_startSorted (HalfOpen.startSorted_sortByStart l.ranges))
      (allows_orCrash _)
  · exact allows_ok _

end Checks

section Files

variable {env : EmuEnv} {l : EntryList} {level : ℕ}

theorem overlappedEntries_sorted {files : List SSTFile} (hok : LevelOk files) (hl : l.Sorted)
    (hr : l.InRange) (hne : l.support.Nonempty) :
    (overlappedEntries l.getMinKey l.getMaxKey files).Sorted := by
  have hle := (EntryList.isLeast_getMinKey hl hr hne).2 (EntryList.isGreatest_getMaxKey hl hr hne).1
  obtain ⟨pre, mid, post, rfl, hparts⟩ := exists_parts hok.ascends l.getMinKey l.getMaxKey
  rw [overlappedEntries_eq hparts hle fun f hf => hok.min_le_max (by simp [hf])]
  exact (LevelOk.append_iff.mp (LevelOk.append_iff.mp hok).1).2.1.sorted_levelEntries

theorem allows_mergeOverlapped {files : List SSTFile} (hok : LevelOk files) (hl : l.Sorted)
    (hr : l.InRange) (hne : l.support.Nonempty) :
    Allows (Halt.AtDeleteTile env) (Checked.mergeOverlapped files l) := by
  have hempty := EntryList.not_empty_of_nonempty hne
  have hle := (EntryList.isLeast_getMinKey hl hr hne).2 (EntryList.isGreatest_getMaxKey hl hr hne).1
  refine allows_bind ?_ fun x hx => ?_
  · rw [Checked.getMinmaxRangeOverlappedEntriesFromFiles, if_neg hempty]
    exact allows_require (ascendingPoints_of_ascending hl.points) <|
      allows_require (ascending_of_ordered hl.ranges) <|
        allows_require (isChain_le_of_ordered hl.ranges) <|
          allows_require hle <| allows_orCrash _
  have hx' := eq_some_of_ok (Checked.toOption_getMinmaxRangeOverlappedEntriesFromFiles l files) hx
  rw [EntryList.getMinmaxRangeOverlappedEntriesFromFiles, if_neg hempty,
    Option.ite_none_right_eq_some] at hx'
  have hsorted : x.Sorted := Option.some.inj hx'.2 ▸ overlappedEntries_sorted hok hl hr hne
  have hkept : Ascending (EntryList.applyRangeDelete l.ranges x.points) := by
    rw [EntryList.applyRangeDelete_eq_filter hl.ranges hsorted.points]
    exact hsorted.points.sublist List.filter_sublist
  refine allows_bind ?_ fun m hm => ?_
  · exact allows_require (distinctPoints_of_ascending hl.points) <|
      allows_require (distinctPoints_of_ascending hkept) <| allows_orCrash _
  have hm' := eq_some_of_ok (Checked.toOption_mergeWithAnotherPointEntryVector l _) hm
  rw [EntryList.mergeWithAnotherPointEntryVector, Option.ite_none_right_eq_some] at hm'
  have hranges : m.ranges = l.ranges := by rw [← Option.some.inj hm'.2]
  exact allows_require (hranges ▸ ascending_of_ordered hl.ranges) <|
    allows_require (ascending_of_ordered hsorted.ranges) <| allows_orCrash _

theorem mergeOverlapped_sorted {files : List SSTFile} {m : EntryList} (hok : LevelOk files)
    (hl : l.Sorted) (hr : l.InRange) (hne : l.support.Nonempty)
    (h : mergeOverlapped files l = some m) : m.Sorted := by
  obtain ⟨x, _, rfl, hpoints, hranges⟩ :=
    EntryList.mergeOverlapped_eq_some h (EntryList.not_empty_of_nonempty hne)
  exact (EntryList.merge_spec hl (overlappedEntries_sorted hok hl hr hne) hpoints hranges).1

theorem allows_splitOutBySizeInByte (hsize : env.perKvSize + env.perRangeDeleteSize ≤ env.fileSize)
    (hl : l.Sorted) : Allows (Halt.AtDeleteTile env) (Checked.splitOutBySizeInByte env l) :=
  allows_require (ascendingPoints_of_ascending hl.points) <|
    allows_require (ascending_of_ordered hl.ranges) <|
      allows_require hl.ranges.disjoint.isChain <| allows_require hsize <| allows_orCrash _

theorem allows_writeFiles (hsize : env.perKvSize + env.perRangeDeleteSize ≤ env.fileSize) {n : ℕ}
    (hl : l.Sorted) : Allows (Halt.AtDeleteTile env) (Checked.writeFiles env level n l) := by
  induction n generalizing l with
  | zero =>
    rw [Checked.writeFiles]
    split_ifs
    · exact allows_ok _
    · exact allows_error trivial
  | succ n ih =>
    rw [Checked.writeFiles]
    split_ifs
    · exact allows_ok _
    · apply allows_bind (allows_splitOutBySizeInByte hsize hl)
      rintro ⟨out, rest⟩ h
      have hspec := splitOut_spec hl
        (eq_some_of_ok (Checked.toOption_splitOutBySizeInByte l) h)
      exact allows_bind (ih hspec.rest_sorted) fun files _ => allows_ok _

theorem allows_installEntries (hsize : env.perKvSize + env.perRangeDeleteSize ≤ env.fileSize)
    {rounds : ℕ} {d : DiskMetaFile} (hl : l.Sorted) (hrd : Ordered (d.filter.getD level []))
    (hrdSplit : Ordered (d.filterSplit.getD level []))
    (hlevel : level ≤ d.filter.length ∧ level ≤ d.filterSplit.length) :
    Allows (Halt.AtDeleteTile env) (Checked.installEntries env level rounds l d) := by
  refine allows_bind
    (allows_updateFilterAtLevel hlevel.1 (allows_addRangeDelete hrd hl.ranges)) fun _ _ => ?_
  refine allows_bind
    (allows_updateFilterAtLevel hlevel.2 (allows_addRangeDelete hrdSplit hl.ranges)) fun _ _ => ?_
  refine allows_bind ?_ fun _ _ => allows_ok _
  rw [sortEnd_sorted hl, Checked.compactAndFlush]
  split_ifs
  · exact allows_ok _
  · exact allows_bind (allows_writeFiles hsize hl) fun _ _ => allows_ok _

theorem allows_writeLevel (hsize : env.perKvSize + env.perRangeDeleteSize ≤ env.fileSize)
    (hpos : 1 ≤ level) {d : DiskMetaFile} (hd : TreeOk d) (hl : l.Sorted) (hr : l.InRange)
    (hne : l.support.Nonempty)
    (hlevel : level ≤ d.filter.length ∧ level ≤ d.filterSplit.length) :
    Allows (Halt.AtDeleteTile env) (Checked.writeLevel env level l d) := by
  have hfilter := hd.filter_ok level
  have hinstall : ∀ rounds {m : EntryList}, m.Sorted →
      Allows (Halt.AtDeleteTile env) (Checked.installEntries env level rounds m d) :=
    fun _ _ hm => allows_installEntries hsize hm hfilter.ordered hfilter.ordered_split hlevel
  rw [Checked.writeLevel]
  by_cases hnew : d.levelHead level = []
  · rw [if_pos hnew]
    by_cases hzero : env.getDeleteTileSize level = 0
    · rw [if_pos hzero]
      exact allows_error trivial
    · rw [if_neg hzero]
      by_cases htile : l.points.length % env.getDeleteTileSize level ≠ 0 ∧
          l.points.length / env.getDeleteTileSize level < 1
      · rw [require, if_neg (not_not_intro htile)]
        refine allows_error ⟨rfl, level, hpos, ?_⟩
        -- a remainder by one is zero
        have hone : env.getDeleteTileSize level ≠ 1 := fun h => htile.1 (by rw [h, Nat.mod_one])
        omega
      · exact allows_require htile (hinstall 1 hl)
  · rw [if_neg hnew]
    refine allows_bind (allows_mergeOverlapped (hd.level_ok level) hl hr hne) fun m hm => ?_
    exact hinstall 2 (mergeOverlapped_sorted (hd.level_ok level) hl hr hne
      (eq_some_of_ok (Checked.toOption_mergeOverlapped _ l) hm))

end Files

section Cascade

variable {env : EmuEnv} {level : ℕ} {pre post : List SSTFile} {f : SSTFile} {d d' : DiskMetaFile}

theorem allows_removeFromUpperLevel (hd : TreeOk d) (hpos : 1 ≤ level)
    (hfiles : d.levelHead level = pre ++ f :: post) :
    Allows (Halt.AtDeleteTile env)
      (Checked.removeFromUpperLevel (level + 1) f.entries
        (d.setSSTFileHead level (pre ++ post))) := by
  have hok := hd.level_ok level
  rw [hfiles] at hok
  have hranges := (hok.sorted f (by simp)).ranges
  have hfilter := hd.filter_ok level
  obtain ⟨hlt, hltSplit⟩ := hd.filter_lt level (by simp [hfiles])
  rw [Checked.removeFromUpperLevel, if_pos (by omega)]
  refine allows_bind (allows_updateFilterAtLevel hlt.le
    (allows_removeRangeDelete hfilter.ordered hranges)) fun _ _ => ?_
  exact allows_bind (allows_updateFilterAtLevel hltSplit.le
    (allows_removeRangeDelete hfilter.ordered_split hranges)) fun _ _ => allows_ok _

theorem removeFromUpperLevel_lt (hpos : 1 ≤ level) {l : EntryList}
    (h : removeFromUpperLevel (level + 1) l d = some d') :
    level + 1 ≤ d'.filter.length ∧ level + 1 ≤ d'.filterSplit.length := by
  rw [removeFromUpperLevel, if_pos (by omega), Nat.add_sub_cancel] at h
  obtain ⟨filter, h₁, h⟩ := Option.bind_eq_some_iff.mp h
  obtain ⟨filterSplit, h₂, h⟩ := Option.bind_eq_some_iff.mp h
  obtain rfl := Option.some.inj h
  obtain ⟨_, _, hup⟩ := updateFilterAtLevel_eq_some h₁
  obtain ⟨_, _, hupSplit⟩ := updateFilterAtLevel_eq_some h₂
  exact ⟨hup.level_lt, hupSplit.level_lt⟩

theorem exists_countedWriteLevel {l : EntryList} (h : writeLevel env level l d = some d')
    (c : TreeCounters) : ∃ c', countedWriteLevel env level l (d, c) = some (d', c') := by
  rw [← map_countedWriteLevel level l d c] at h
  obtain ⟨⟨_, c'⟩, hwrite, rfl⟩ := Option.map_eq_some_iff.mp h
  exact ⟨c', hwrite⟩

theorem exists_countedSortAndWrite {below : ℕ} {l : EntryList}
    (h : sortAndWrite env below level l d = some d') (c : TreeCounters) :
    ∃ c', countedSortAndWrite env below level l (d, c) = some (d', c') := by
  rw [← map_countedSortAndWrite below level l d c] at h
  obtain ⟨⟨_, c'⟩, hwrite, rfl⟩ := Option.map_eq_some_iff.mp h
  exact ⟨c', hwrite⟩

/-- A list that has been sorted and removed from where it came from goes into a level, and the
level is adjusted. -/
def Checked.writeAndAdjust (env : EmuEnv) (below level : ℕ) (l : EntryList) (d : DiskMetaFile) :
    Except Halt DiskMetaFile :=
  Checked.writeLevel env level l d >>= fun d =>
    Checked.checkAndAdjustLevelSaturation env (Checked.sortAndWrite env below (level + 1)) level
      (d.levelHead level).length d

def CascadeAllowed (env : EmuEnv) (below level : ℕ) : Prop :=
  ∀ {l : EntryList} {d : DiskMetaFile}, TreeOk d → l.Sorted → l.InRange → l.support.Nonempty →
    level ≤ d.filter.length ∧ level ≤ d.filterSplit.length →
    Allows (Halt.AtDeleteTile env) (Checked.writeAndAdjust env below level l d)

theorem allows_push {below i : ℕ} (hpos : 1 ≤ level)
    (hbelow : ∀ b, below = b + 1 → CascadeAllowed env b (level + 1)) (hd : TreeOk d)
    (hf : (d.levelHead level)[i]? = some f) :
    Allows (Halt.AtDeleteTile env) (Checked.sortAndWrite env below (level + 1) f.entries
      (d.setSSTFileHead level ((d.levelHead level).eraseIdx i))) := by
  have hok := hd.level_ok level
  have hmem : f ∈ d.levelHead level := List.mem_of_getElem? hf
  obtain ⟨pre, post, hfiles, herase⟩ := exists_eraseIdx_eq hf
  cases below with
  | zero => exact allows_error trivial
  | succ b =>
    rw [herase]
    refine allows_bind (allows_sortEntries _ _) fun sorted hsort => ?_
    obtain rfl := sortEntries_sorted (hok.sorted f hmem) (by omega)
      (eq_some_of_ok (Checked.toOption_sortEntries _ _) hsort)
    refine allows_bind (allows_removeFromUpperLevel hd hpos hfiles) fun d' hremove => ?_
    have hremove' := eq_some_of_ok (Checked.toOption_removeFromUpperLevel _ _ _) hremove
    obtain ⟨hd', _⟩ := removeFromUpperLevel_spec hd hpos hfiles hremove'
    exact hbelow b rfl hd' (hok.sorted _ hmem) (hok.inRange _ hmem) (hok.nonempty _ hmem)
      (removeFromUpperLevel_lt hpos hremove')

theorem allows_adjust (hstores : env.StoresAll) {below : ℕ} (hpos : 1 ≤ level)
    (hsum : below + level ≤ 31)
    (hbelow : ∀ b, below = b + 1 → CascadeAllowed env b (level + 1)) {n : ℕ} (hd : TreeOk d) :
    Allows (Halt.AtDeleteTile env) (Checked.checkAndAdjustLevelSaturation env
      (Checked.sortAndWrite env below (level + 1)) level n d) := by
  induction n generalizing d with
  | zero =>
    rw [Checked.checkAndAdjustLevelSaturation]
    split_ifs
    · exact allows_error trivial
    · exact allows_ok _
  | succ n ih =>
    rw [Checked.checkAndAdjustLevelSaturation]
    split_ifs with hfull
    · refine allows_bind (allows_orCrash _) fun f hf => ?_
      have hf' := eq_some_of_ok (toOption_orCrash _) hf
      refine allows_bind (allows_push hpos hbelow hd hf') fun d' hpush => ih ?_
      obtain ⟨c, hcounted⟩ := exists_countedSortAndWrite
        (eq_some_of_ok (Checked.toOption_sortAndWrite _ _ _ _) hpush) ⟨0, 0, 0, 0⟩
      have hpushes := push_pushes (x := (d, ⟨0, 0, 0, 0⟩)) hpos hsum
        (fun b hb => cascades hstores b (by omega) (by omega)) hd hfull hf' hcounted
      exact pushes_treeOk hstores hpushes hd
    · exact allows_ok _

theorem cascadeAllowed (hsize : env.perKvSize + env.perRangeDeleteSize ≤ env.fileSize)
    (hstores : env.StoresAll) (below : ℕ) (hpos : 1 ≤ level) (hsum : below + level ≤ 31) :
    CascadeAllowed env below level := by
  induction below using Nat.strong_induction_on generalizing level with
  | _ below ih =>
    intro l d hd hl hr hne hlevel
    refine allows_bind (allows_writeLevel hsize hpos hd hl hr hne hlevel) fun d' hwrite => ?_
    obtain ⟨c, hcounted⟩ := exists_countedWriteLevel
      (eq_some_of_ok (Checked.toOption_writeLevel level l d) hwrite) ⟨0, 0, 0, 0⟩
    have hwrites := countedWriteLevel_spec (x := (d, ⟨0, 0, 0, 0⟩)) hstores hl hr hne
      (hd.level_ok level) (hd.filter_ok level) hcounted
    exact allows_adjust hstores hpos hsum
      (fun b hb => ih b (by omega) (by omega) (by omega)) (hwrites.treeOk hd)

theorem allows_flush (hsize : env.perKvSize + env.perRangeDeleteSize ≤ env.fileSize)
    (hstores : env.StoresAll) {l : EntryList} (hd : TreeOk d) (hl : l.Raw) (hr : l.InRange)
    (hne : l.support.Nonempty) (hlevel : 1 ≤ d.filter.length ∧ 1 ≤ d.filterSplit.length) :
    Allows (Halt.AtDeleteTile env) (Checked.sortAndWrite env 31 1 l d) := by
  refine allows_bind (allows_sortEntries 1 l) fun sorted hsort => ?_
  obtain ⟨hsorted, hinRange, hnonempty⟩ := sortEntries_flush hl hr hne
    (eq_some_of_ok (Checked.toOption_sortEntries 1 l) hsort)
  exact cascadeAllowed hsize hstores 30 le_rfl (by omega) hd hsorted hinRange hnonempty hlevel

end Cascade

section Run

variable {env : EmuEnv} {ops : List Op}

theorem flush_filter_pos (hstores : env.StoresAll) {l : EntryList} {x y : Tree} (hx : TreeOk x.1)
    (hl : l.Raw) (hr : l.InRange) (hne : l.support.Nonempty)
    (h : countedSortAndWrite env 31 1 l x = some y) :
    1 ≤ y.1.filter.length ∧ 1 ≤ y.1.filterSplit.length := by
  obtain ⟨sorted, x₁, _, hwrites, hpushes⟩ := flush_pushes hstores hx hl hr hne h
  have hpos : ∀ {level l} {x z : Tree}, Writes level l x z →
      1 ≤ z.1.filter.length ∧ 1 ≤ z.1.filterSplit.length := by
    intro level l x z hw
    have := hw.level_lt
    omega
  exact pushes_induction hstores
    (P := fun z => 1 ≤ z.1.filter.length ∧ 1 ≤ z.1.filterSplit.length)
    (fun hmoves _ => hpos hmoves.writes) hpushes (hwrites.treeOk hx) (hpos hwrites)

theorem countedRun_filter_pos (hstores : env.StoresAll) (hops : ∀ op ∈ ops, op.Valid)
    {s : Emulator} {c : Counters} (h : Emulator.countedRun env ops = some (s, c)) :
    1 ≤ s.disk.filter.length ∧ 1 ≤ s.disk.filterSplit.length := by
  induction ops using List.reverseRecOn generalizing s c with
  | nil =>
    obtain ⟨rfl, -⟩ := Prod.mk.inj (Option.some.inj h)
    decide
  | append_singleton ops op ih =>
    obtain ⟨s₁, c₁, hrun, hstep⟩ := countedRun_snoc h
    have hops' : ∀ o ∈ ops, o.Valid := fun o ho => hops o (by simp [ho])
    have hs₁ := ih hops' hrun
    obtain ⟨s₂, c₂, hs₂, hne, hdisk, heq⟩ :=
      exists_countedStep_eq (countedRun_spec hstores hops' hrun) (hops op (by simp))
    rw [heq, Emulator.countedCheckBufferFlush] at hstep
    split_ifs at hstep
    · obtain ⟨y, hflush, heq⟩ := Option.map_eq_some_iff.mp hstep
      obtain ⟨rfl, -⟩ := Prod.mk.inj heq
      exact flush_filter_pos hstores hs₂.tree_ok hs₂.raw hs₂.inRange hne hflush
    · obtain ⟨rfl, -⟩ := Prod.mk.inj (Option.some.inj hstep)
      rwa [hdisk]

theorem allows_run (hsize : env.perKvSize + env.perRangeDeleteSize ≤ env.fileSize)
    (hstores : env.StoresAll) (hops : ∀ op ∈ ops, op.Valid) :
    Allows (Halt.AtDeleteTile env) (Checked.run env ops) := by
  intro e h
  obtain ⟨before, op, s, hinit, hs, hstep⟩ := foldlM_eq_error.mp h
  have hvalid : ∀ o ∈ before ++ [op], o.Valid := fun o ho => hops o (hinit.subset ho)
  have hbefore : ∀ o ∈ before, o.Valid := fun o ho => hvalid o (by simp [ho])
  have hop : op.Valid := hvalid op (by simp)
  obtain ⟨c, hrun⟩ := exists_countedRun (eq_some_of_ok (Checked.toOption_run before) hs)
  have hreplays := countedRun_spec hstores hbefore hrun
  have hlevel := countedRun_filter_pos hstores hbefore hrun
  have hflush : ∀ s₁, Buffers op s s₁ →
      Allows (Halt.AtDeleteTile env) (Checked.checkBufferFlush env s₁) := by
    intro s₁ hbuffers
    rw [Checked.checkBufferFlush]
    split_ifs
    · refine allows_bind ?_ fun _ _ => allows_ok _
      rw [hbuffers.disk_eq]
      exact allows_flush hsize hstores hreplays.tree_ok hbuffers.raw
        (hbuffers.inRange hop hreplays.inRange) (hbuffers.nonempty hop) hlevel
    · exact allows_ok _
  cases op with
  | insert key value => exact hflush _ (bufferInsert_spec hreplays.raw key value) e hstep
  | rangeDelete startKey endKey =>
    exact hflush _ (bufferRangeDelete_spec hreplays.raw hop.2.1) e hstep

def EmuEnv.NeverExits (env : EmuEnv) : Prop :=
  ∀ ops : List Op, (∀ op ∈ ops, op.Valid) → ∀ check, Checked.run env ops ≠ .error (.exit check)

def EmuEnv.Saturates (env : EmuEnv) : Prop :=
  ∃ bound : ℤ, ∀ size, bound ≤ size → env.saturated size = true

def starvingOps (n : ℕ) : List Op := .insert 0 [] :: List.replicate n (.rangeDelete 1 1)

def starvedBuffer (n : ℕ) : Emulator :=
  ⟨⟨[⟨0, []⟩], List.replicate n (1, 1)⟩, 16 * (n + 1), DiskMetaFile.initial⟩

theorem valid_starvingOps (n : ℕ) : ∀ op ∈ starvingOps n, op.Valid := by
  refine List.forall_mem_cons.mpr ⟨by simp [Op.Valid], fun op hop => ?_⟩
  rw [List.eq_of_mem_replicate hop]
  simp [Op.Valid]

theorem bufferRangeDelete_starvedBuffer (n : ℕ) :
    (starvedBuffer n).bufferRangeDelete 1 1 = starvedBuffer (n + 1) := by
  simp [starvedBuffer, Emulator.bufferRangeDelete, EntryList.removePointEntriesInRange,
    List.replicate_succ']
  omega

theorem run_starvingOps {n : ℕ}
    (hunsaturated : ∀ i : ℕ, i < n → ¬ env.saturated (16 * (i + 1)) = true) :
    Checked.run env (starvingOps n) = Checked.checkBufferFlush env (starvedBuffer n) := by
  induction n with
  | zero =>
    have hfirst : Emulator.initial.bufferInsert 0 [] = starvedBuffer 0 := rfl
    rw [Checked.run, starvingOps, ← hfirst]
    exact bind_pure (Checked.step env Emulator.initial (.insert 0 []))
  | succ n ih =>
    have hops : starvingOps (n + 1) = starvingOps n ++ [.rangeDelete 1 1] := by
      rw [starvingOps, List.replicate_succ', starvingOps, List.cons_append]
    have hbefore : Checked.run env (starvingOps n) = .ok (starvedBuffer n) := by
      rw [ih fun i hi => hunsaturated i (by omega), Checked.checkBufferFlush]
      exact if_neg (hunsaturated n (Nat.lt_succ_self n))
    rw [Checked.run] at hbefore
    rw [Checked.run, hops, List.foldlM_append, hbefore, ← bufferRangeDelete_starvedBuffer]
    exact bind_pure (Checked.step env (starvedBuffer n) (.rangeDelete 1 1))

theorem sortEntries_buffer (l : EntryList) : ∃ m, Checked.sortEntries 1 l = .ok m ∧
    m.points = l.points.insertionSort fun a b => a.sortKey ≤ b.sortKey := by
  have hasc : EntryList.ascending
      l.sortPointEntryVectorOnSortKey.sortRangeEntryVectorOnStartKey.ranges :=
    ascending_of_startSorted (HalfOpen.startSorted_sortByStart l.ranges)
  rw [Checked.sortEntries, if_pos rfl, Checked.mergeItsOwnRangeEntry, require, if_pos hasc,
    EntryList.mergeItsOwnRangeEntry, if_pos hasc]
  exact ⟨_, rfl, rfl⟩

theorem flush_starvedBuffer (htile : 2 ≤ env.getDeleteTileSize 1) {n : ℕ}
    (hsat : env.saturated (16 * (n + 1)) = true) :
    Checked.checkBufferFlush env (starvedBuffer n) = .error (.exit .deleteTile) := by
  obtain ⟨m, hsort, hpoints⟩ := sortEntries_buffer (starvedBuffer n).buffer
  have hlength : m.points.length = 1 := by
    rw [hpoints, List.length_insertionSort]
    rfl
  have hfails : m.points.length % env.getDeleteTileSize 1 ≠ 0 ∧
      m.points.length / env.getDeleteTileSize 1 < 1 := by
    rw [hlength, Nat.mod_eq_of_lt (by omega), Nat.div_eq_of_lt (by omega)]
    exact ⟨one_ne_zero, zero_lt_one⟩
  have hwrite : Checked.writeLevel env 1 m DiskMetaFile.initial = .error (.exit .deleteTile) := by
    have hnew : DiskMetaFile.initial.levelHead 1 = [] := rfl
    rw [Checked.writeLevel, if_pos hnew, if_neg (by omega), require,
      if_neg (not_not_intro hfails)]
    rfl
  have hflush : Checked.sortAndWrite env 31 1 (starvedBuffer n).buffer (starvedBuffer n).disk =
      .error (.exit .deleteTile) := by
    rw [Checked.sortAndWrite, hsort]
    exact bind_eq_error.mpr (Or.inr ⟨m, rfl, bind_eq_error.mpr
      (Or.inr ⟨_, rfl, bind_eq_error.mpr (Or.inl hwrite)⟩)⟩)
  rw [Checked.checkBufferFlush, hflush]
  exact if_pos hsat

/-- If no level has longer tiles than the first one, no workload makes the emulator exit exactly
if the tiles have one page. -/
theorem neverExits_iff_tile_le_one
    (hsize : env.perKvSize + env.perRangeDeleteSize ≤ env.fileSize) (hstores : env.StoresAll)
    (hsat : env.Saturates)
    (hfirst : ∀ level, 1 ≤ level → env.getDeleteTileSize level ≤ env.getDeleteTileSize 1) :
    env.NeverExits ↔ env.getDeleteTileSize 1 ≤ 1 := by
  constructor
  · intro hnever
    by_contra htile
    obtain ⟨bound, hbound⟩ := hsat
    have hexists : ∃ n : ℕ, env.saturated (16 * (n + 1)) = true :=
      ⟨bound.toNat, hbound _ (by omega)⟩
    -- the flush that comes first has the single point
    have hrun := run_starvingOps fun i hi => Nat.find_min hexists hi
    rw [flush_starvedBuffer (by omega) (Nat.find_spec hexists)] at hrun
    exact hnever _ (valid_starvingOps _) .deleteTile hrun
  · intro htile ops hops check h
    obtain ⟨_, level, hpos, hlevel⟩ := allows_run hsize hstores hops _ h
    have := hfirst level hpos
    omega

theorem neverExits_sampleEnv : sampleEnv.StoresAll ∧ sampleEnv.NeverExits := by
  have hsat : sampleEnv.Saturates := ⟨34, fun size hsize => decide_eq_true hsize⟩
  exact ⟨storesAll_sampleEnv, (neverExits_iff_tile_le_one (by decide) storesAll_sampleEnv hsat
    fun _ _ => le_rfl).mpr (by decide)⟩

def twoPageEnv : EmuEnv where
  bufferSizeInPages := 2
  pointentriesPerPage := 1
  perKvSize := 16
  perRangeDeleteSize := 8
  deleteTileSizeInPages := 2
  deleteTileSize := 32
  pageSize := 16
  fileSize := 32
  letheNew := 0
  variableDeleteTileSizeInPages := []
  levelMaxFileCount := fun i => 2 ^ i
  saturated := fun size => 32 ≤ size

/-- A point and a range delete fill the buffer, and the flush exits. -/
theorem single_point_flush_exits :
    twoPageEnv.perKvSize + twoPageEnv.perRangeDeleteSize ≤ twoPageEnv.fileSize ∧
      (∀ op ∈ [Op.insert 1 [97], .rangeDelete 5 6], op.Valid) ∧
      Checked.run twoPageEnv [.insert 1 [97], .rangeDelete 5 6] =
        .error (.exit .deleteTile) :=
  ⟨by decide, by simp [Op.Valid], rfl⟩

/-- Pages of one entry of four bytes, which are too small for a range entry, and tiles of one
page. -/
def smallPageEnv : EmuEnv where
  bufferSizeInPages := 5
  pointentriesPerPage := 1
  perKvSize := 4
  perRangeDeleteSize := 8
  deleteTileSizeInPages := 1
  deleteTileSize := 4
  pageSize := 4
  fileSize := 20
  letheNew := 0
  variableDeleteTileSizeInPages := []
  levelMaxFileCount := fun i => 10 ^ i
  saturated := fun size => 20 ≤ size

/-- Files that lose their ranges have no bounds, and a file written around them is kept next to
the one that replaces it. -/
example : Checked.run smallPageEnv
    [.rangeDelete 1 1, .rangeDelete 2 2, .insert 10 [], .insert 14 [], .insert 11 [],
      .insert 13 [], .insert 12 [], .insert 10 [], .insert 10 [], .rangeDelete 20 20,
      .insert 10 [], .insert 11 [], .insert 10 [], .insert 11 []] =
    .error (.exit .ascending) := rfl

end Run

end Spry.Emulation
