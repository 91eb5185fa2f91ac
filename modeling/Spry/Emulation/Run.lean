import Spry.Emulation.Cascade
import Spry.Emulation.Search

/-!
# Runs of the emulator

What a workload says about a key is its last operation on the key. After every operation the
buffer over the tree says the same.
-/

namespace Spry.Emulation

open ClosedRange

section Buffer

variable {ps qs : List PointEntry} {key k : ℤ} {value : Bytes} {change : ℤ}

theorem setValue_eq_none (h : setValue key value ps = none) : key ∉ pointKeys ps := by
  induction ps with
  | nil => simp [mem_pointKeys]
  | cons p ps ih =>
    rw [setValue] at h
    split_ifs at h with hp
    have hps := ih (Option.map_eq_none_iff.mp h)
    rintro ⟨q, hq, hkey⟩
    rcases List.mem_cons.mp hq with rfl | hq
    · exact hp hkey
    · exact hps ⟨q, hq, hkey⟩

theorem setValue_eq_some (h : setValue key value ps = some (qs, change)) :
    qs.map PointEntry.sortKey = ps.map PointEntry.sortKey ∧
      ∀ k, lookup k qs = if key = k then some value else lookup k ps := by
  induction ps generalizing qs change with
  | nil => cases h
  | cons p ps ih =>
    rw [setValue] at h
    split_ifs at h with hp
    · obtain ⟨rfl, -⟩ := Prod.mk.inj (Option.some.inj h)
      refine ⟨rfl, fun k => ?_⟩
      rw [lookup_cons, lookup_cons, hp]
      split_ifs
      · rfl
      · rfl
    · obtain ⟨⟨rest, c⟩, hrest, heq⟩ := Option.map_eq_some_iff.mp h
      obtain ⟨rfl, -⟩ := Prod.mk.inj heq
      obtain ⟨hkeys, hlookup⟩ := ih hrest
      refine ⟨by rw [List.map_cons, List.map_cons, hkeys], fun k => ?_⟩
      rw [lookup_cons, lookup_cons, hlookup k]
      by_cases hk : p.sortKey = k
      · rw [if_pos hk, if_pos hk, if_neg fun h => hp (hk.trans h.symm)]
      · rw [if_neg hk, if_neg hk]

theorem distinct_iff : Distinct ps ↔ (ps.map PointEntry.sortKey).Nodup :=
  List.pairwise_map.symm

structure Buffers (op : Op) (s s' : Emulator) : Prop where
  raw : s'.buffer.Raw
  verdict_eq : ∀ k, s'.buffer.verdict k = (op.verdict k).or (s.buffer.verdict k)
  covered_iff : ∀ k, k ∈ coverage s'.buffer.ranges ↔
    Deletes [op] k ∨ k ∈ coverage s.buffer.ranges
  disk_eq : s'.disk = s.disk

theorem bufferInsert_spec {s : Emulator} (hs : s.buffer.Raw) (key : ℤ) (value : Bytes) :
    Buffers (.insert key value) s (s.bufferInsert key value) := by
  rw [Emulator.bufferInsert]
  have hinsert : ∀ points, Distinct points →
      (∀ k, lookup k points = if key = k then some value else lookup k s.buffer.points) →
      ∀ size, Buffers (.insert key value) s
        { s with buffer := { s.buffer with points := points }, currentBufferSize := size } := by
    intro points hdistinct hlookup size
    refine ⟨⟨hdistinct, hs.valid⟩, fun k => ?_, fun k => ?_, rfl⟩
    · by_cases hk : key = k
      · rw [Op.verdict, if_pos hk]
        exact EntryList.verdict_of_mem_points ((hlookup k).trans (if_pos hk))
      · rw [Op.verdict, if_neg hk, Option.none_or]
        exact EntryList.verdict_congr ((hlookup k).trans (if_neg hk)) Iff.rfl
    · simp [Deletes]
  cases hset : setValue key value s.buffer.points with
  | some out =>
    obtain ⟨hkeys, hlookup⟩ := @setValue_eq_some _ out.1 key value out.2 hset
    refine hinsert out.1 ?_ hlookup _
    rw [distinct_iff, hkeys, ← distinct_iff]
    exact hs.distinct
  | none =>
    have hkey := setValue_eq_none hset
    refine hinsert _ ?_ (fun k => ?_) _
    · refine List.pairwise_append.mpr ⟨hs.distinct, List.pairwise_singleton _ _, ?_⟩
      intro p hp q hq heq
      exact hkey ⟨p, hp, by rw [heq, List.mem_singleton.mp hq]⟩
    · rw [lookup_append, lookup_cons, lookup_nil]
      by_cases hk : key = k
      · rw [if_pos hk, if_pos hk, lookup_eq_none_iff.mpr (hk ▸ hkey), Option.none_or]
      · rw [if_neg hk, if_neg hk, Option.or_none]

theorem bufferRangeDelete_spec {s : Emulator} (hs : s.buffer.Raw) {startKey endKey : ℤ}
    (h : startKey ≤ endKey) :
    Buffers (.rangeDelete startKey endKey) s (s.bufferRangeDelete startKey endKey) := by
  have hcoverage : ∀ k, k ∈ coverage (s.bufferRangeDelete startKey endKey).buffer.ranges ↔
      k ∈ coverage s.buffer.ranges ∨ (startKey ≤ k ∧ k ≤ endKey) := by
    intro k
    rw [Emulator.bufferRangeDelete, EntryList.removePointEntriesInRange, coverage_append]
    simp [mem_coverage]
  refine ⟨⟨hs.distinct.sublist List.filter_sublist, fun r hr => ?_⟩, fun k => ?_, fun k => ?_, rfl⟩
  · rcases List.mem_append.mp hr with hr | hr
    · exact hs.valid r hr
    · rw [List.mem_singleton.mp hr]
      exact h
  · have hlookup : lookup k (s.bufferRangeDelete startKey endKey).buffer.points =
        if ¬ (startKey ≤ k ∧ k ≤ endKey) then lookup k s.buffer.points else none := by
      have hfilter := @lookup_filter s.buffer.points k
        fun k => decide (¬ (startKey ≤ k ∧ k ≤ endKey))
      simp only [decide_eq_true_eq] at hfilter
      exact hfilter
    by_cases hk : startKey ≤ k ∧ k ≤ endKey
    · rw [if_neg (not_not.mpr hk)] at hlookup
      rw [EntryList.verdict_of_notMem_points hlookup, if_pos ((hcoverage k).mpr (Or.inr hk)),
        Op.verdict, if_pos hk]
      rfl
    · rw [if_pos hk] at hlookup
      rw [Op.verdict, if_neg hk, Option.none_or]
      exact EntryList.verdict_congr hlookup (by rw [hcoverage, or_iff_left hk])
  · rw [hcoverage, or_comm]
    simp [Deletes]

theorem Buffers.support_iff {op : Op} {s s' : Emulator} (h : Buffers op s s') {k : ℤ} :
    k ∈ s'.buffer.support ↔ op.verdict k ≠ none ∨ k ∈ s.buffer.support := by
  rw [← not_iff_not, ← EntryList.verdict_eq_none_iff, h.verdict_eq, Option.or_eq_none_iff, not_or,
    not_not, EntryList.verdict_eq_none_iff]

theorem Buffers.inRange {op : Op} {s s' : Emulator} (h : Buffers op s s') (hop : op.Valid)
    (hs : s.buffer.InRange) : s'.buffer.InRange := by
  intro k hk
  rcases h.support_iff.mp hk with hk | hk
  · exact hop.inRange hk
  · exact hs hk

theorem Buffers.nonempty {op : Op} {s s' : Emulator} (h : Buffers op s s') (hop : op.Valid) :
    s'.buffer.support.Nonempty := by
  obtain ⟨k, hk⟩ := hop.exists_verdict
  exact ⟨k, h.support_iff.mpr (Or.inl hk)⟩

theorem Buffers.traced {op : Op} {s s' : Emulator} (h : Buffers op s s') {ops : List Op} {k : ℤ}
    (hs : Traced (stack s.buffer s.disk) ops k) :
    Traced (stack s'.buffer s'.disk) (ops ++ [op]) k := by
  obtain ⟨seg, rfl, hrecords⟩ := hs
  refine ⟨Function.update seg 0 (seg 0 ++ [op]), replay_snoc seg op 31, fun i hi => ?_⟩
  cases i with
  | zero =>
    have hbuffer := hrecords 0 hi
    rw [Function.update_self]
    refine ⟨?_, ?_⟩
    · rw [history_snoc, ← hbuffer.verdict_eq]
      exact h.verdict_eq k
    · rw [deletes_append, ← hbuffer.covered_iff]
      exact h.covered_iff k
  | succ i =>
    rw [Function.update_of_ne (Nat.succ_ne_zero i), stack, h.disk_eq]
    exact hrecords (i + 1) hi

end Buffer

section Counting

/-- The counters agree with the entries of the buffer and of the whole tree. -/
structure Balanced (s : Emulator) (c : Counters) : Prop where
  buffer_points : c.currentBufferPointEntryCount = s.buffer.points.length
  buffer_ranges : c.currentBufferRangeEntryCount = s.buffer.ranges.length
  points_eq : c.currentBufferPointEntryCount + c.bufferUpdateCount +
      s.disk.entryCount (·.points.length) + c.tree.droppedPoints +
      c.totalBufferRangeTombstoneDeletedPointEntryCount = c.totalInsertCount
  ranges_eq : c.currentBufferRangeEntryCount + s.disk.entryCount (·.ranges.length) +
      c.tree.totalMergeDeletedRangeEntryCount =
    c.totalRangeTombstoneCount + c.tree.totalFileBoundarySplitRangeEntryCount

variable {s : Emulator} {c : Counters}

theorem Balanced.insert (h : Balanced s c) (key : ℤ) (value : Bytes) :
    Balanced (s.bufferInsert key value) (c.noteInsert s key value) := by
  obtain ⟨hp, hr, hps, hrs⟩ := h
  rw [Emulator.bufferInsert, Counters.noteInsert]
  cases hset : setValue key value s.buffer.points with
  | some out =>
    obtain ⟨hkeys, _⟩ := @setValue_eq_some _ out.1 key value out.2 hset
    have hlength := congrArg List.length hkeys
    rw [List.length_map, List.length_map] at hlength
    exact ⟨by simp only; omega, hr, by simp only; omega, hrs⟩
  | none =>
    refine ⟨?_, hr, by simp only; omega, hrs⟩
    simp only [List.length_append, List.length_cons, List.length_nil]
    omega

theorem Balanced.rangeDelete (h : Balanced s c) (startKey endKey : ℤ) :
    Balanced (s.bufferRangeDelete startKey endKey) (c.noteRangeDelete s startKey endKey) := by
  obtain ⟨hp, hr, hps, hrs⟩ := h
  have hlength := List.length_eq_length_filter_add (l := s.buffer.points)
    fun p => decide (startKey ≤ p.sortKey ∧ p.sortKey ≤ endKey)
  simp only [← decide_not] at hlength
  unfold Emulator.bufferRangeDelete Counters.noteRangeDelete EntryList.removePointEntriesInRange
  refine ⟨by simp only; omega, ?_, by simp only; omega, by simp only; omega⟩
  simp only [List.length_append, List.length_cons, List.length_nil]
  omega

theorem Balanced.flush (h : Balanced s c) {y : Tree}
    (hy : Balances s.buffer.points.length s.buffer.ranges.length (s.disk, c.tree) y) :
    Balanced ⟨EntryList.clear, 0, y.1⟩
      { c with
        currentBufferPointEntryCount := 0
        currentBufferRangeEntryCount := 0
        tree := y.2 } := by
  obtain ⟨hp, hr, hps, hrs⟩ := h
  obtain ⟨hps', hrs'⟩ := hy
  simp only at hps' hrs'
  exact ⟨rfl, rfl, by simp only; omega, by simp only; omega⟩

end Counting

section Run

variable {env : EmuEnv} {ops : List Op} {op : Op} {s : Emulator} {c : Counters}

structure Replays (env : EmuEnv) (ops : List Op) (s : Emulator) (c : Counters) : Prop where
  raw : s.buffer.Raw
  inRange : s.buffer.InRange
  tree_ok : TreeOk s.disk
  disk_ok : (∀ i, 1 ≤ i → i ≤ 31 → 2 ≤ env.levelMaxFileCount i) → DiskOk s.disk
  traced : ∀ k, Traced (stack s.buffer s.disk) ops k
  balanced : Balanced s c

theorem raw_clear : EntryList.clear.Raw :=
  ⟨List.Pairwise.nil, fun r hr => absurd hr (by simp [EntryList.clear])⟩

theorem inRange_clear : EntryList.clear.InRange := by
  rw [EntryList.InRange, EntryList.support_clear]
  exact Set.empty_subset _

theorem replays_initial : Replays env [] Emulator.initial Counters.initial := by
  refine ⟨raw_clear, inRange_clear, diskOk_initial.toTreeOk, fun _ => diskOk_initial, fun k => ?_,
    rfl, rfl, ?_, ?_⟩
  · refine ⟨fun _ => [], by decide, fun i _ => EntryList.records_of_notMem ?_⟩
    cases i with
    | zero => simp [stack, Emulator.initial, EntryList.support_clear]
    | succ i =>
      simp [stack, Emulator.initial, DiskMetaFile.initial, levelEntries, EntryList.support_clear]
  · simp [Counters.initial, Emulator.initial, DiskMetaFile.initial, DiskMetaFile.entryCount,
      levelEntries, EntryList.clear, TreeCounters.droppedPoints]
  · simp [Counters.initial, Emulator.initial, DiskMetaFile.initial, DiskMetaFile.entryCount,
      levelEntries, EntryList.clear]

theorem Buffers.replays {s' : Emulator} {c' : Counters} (h : Buffers op s s') (hop : op.Valid)
    (hs : Replays env ops s c) (hbalanced : Balanced s' c') :
    Replays env (ops ++ [op]) s' c' := by
  exact ⟨h.raw, h.inRange hop hs.inRange, h.disk_eq ▸ hs.tree_ok, h.disk_eq ▸ hs.disk_ok,
    fun k => h.traced (hs.traced k), hbalanced⟩

theorem countedCheckBufferFlush_spec {s' : Emulator} {c' : Counters} (hstores : env.StoresAll)
    (hs : Replays env ops s c) (hne : s.buffer.support.Nonempty)
    (h : s.countedCheckBufferFlush env c = some (s', c')) : Replays env ops s' c' := by
  rw [Emulator.countedCheckBufferFlush] at h
  split_ifs at h with hsat
  · obtain ⟨y, hflush, heq⟩ := Option.map_eq_some_iff.mp h
    obtain ⟨rfl, rfl⟩ := Prod.mk.inj heq
    have hflushes := flush_spec hstores (x := (s.disk, c.tree)) hs.tree_ok hs.raw hs.inRange hne
      hflush
    exact ⟨raw_clear, inRange_clear, hflushes.tree_ok,
      fun hmax => hflushes.disk_ok hmax (hs.disk_ok hmax),
      fun k => hflushes.traced ops k (hs.traced k), hs.balanced.flush hflushes.balances⟩
  · obtain ⟨rfl, rfl⟩ := Prod.mk.inj (Option.some.inj h)
    exact hs

theorem exists_countedStep_eq (hs : Replays env ops s c) (hop : op.Valid) :
    ∃ s₁ c₁, Replays env (ops ++ [op]) s₁ c₁ ∧ s₁.buffer.support.Nonempty ∧ s₁.disk = s.disk ∧
      Emulator.countedStep env (s, c) op = s₁.countedCheckBufferFlush env c₁ := by
  have hreplays : ∀ s₁ c₁, Buffers op s s₁ → Balanced s₁ c₁ →
      Replays env (ops ++ [op]) s₁ c₁ ∧ s₁.buffer.support.Nonempty ∧ s₁.disk = s.disk := by
    intro s₁ c₁ hbuffers hbalanced
    exact ⟨hbuffers.replays hop hs hbalanced, hbuffers.nonempty hop, hbuffers.disk_eq⟩
  cases op with
  | insert key value =>
    obtain ⟨h₁, h₂, h₃⟩ := hreplays _ _ (bufferInsert_spec hs.raw key value)
      (hs.balanced.insert key value)
    exact ⟨_, _, h₁, h₂, h₃, rfl⟩
  | rangeDelete startKey endKey =>
    obtain ⟨h₁, h₂, h₃⟩ := hreplays _ _ (bufferRangeDelete_spec hs.raw hop.2.1)
      (hs.balanced.rangeDelete startKey endKey)
    exact ⟨_, _, h₁, h₂, h₃, rfl⟩

theorem countedStep_spec {s' : Emulator} {c' : Counters} (hstores : env.StoresAll)
    (hs : Replays env ops s c) (hop : op.Valid)
    (h : Emulator.countedStep env (s, c) op = some (s', c')) :
    Replays env (ops ++ [op]) s' c' := by
  obtain ⟨s₁, c₁, hs₁, hne, _, heq⟩ := exists_countedStep_eq hs hop
  exact countedCheckBufferFlush_spec hstores hs₁ hne (heq ▸ h)

theorem countedRun_snoc (h : Emulator.countedRun env (ops ++ [op]) = some (s, c)) :
    ∃ s₁ c₁, Emulator.countedRun env ops = some (s₁, c₁) ∧
      Emulator.countedStep env (s₁, c₁) op = some (s, c) := by
  rw [Emulator.countedRun, List.foldlM_append] at h
  obtain ⟨⟨s₁, c₁⟩, hrun, h⟩ := Option.bind_eq_some_iff.mp h
  exact ⟨s₁, c₁, hrun, by simpa using h⟩

theorem countedRun_spec (hstores : env.StoresAll) (hops : ∀ op ∈ ops, op.Valid)
    (h : Emulator.countedRun env ops = some (s, c)) : Replays env ops s c := by
  induction ops using List.reverseRecOn generalizing s c with
  | nil =>
    obtain ⟨rfl, rfl⟩ := Prod.mk.inj (Option.some.inj h)
    exact replays_initial
  | append_singleton ops op ih =>
    obtain ⟨s₁, c₁, hrun, hstep⟩ := countedRun_snoc h
    exact countedStep_spec hstores (ih (fun o ho => hops o (by simp [ho])) hrun)
      (hops op (by simp)) hstep

theorem run_spec (hstores : env.StoresAll) (hops : ∀ op ∈ ops, op.Valid)
    (h : Emulator.run env ops = some s) : ∃ c, Replays env ops s c := by
  obtain ⟨c, hrun⟩ := exists_countedRun h
  exact ⟨c, countedRun_spec hstores hops hrun⟩

/-- In every run that ends, both queries return the value of the latest insert of a key that no
later range delete covers. A query reads the entry after the last level in use, so the array must
have one. -/
theorem pointQueries_latest (hmax : ∀ i, 1 ≤ i → i ≤ 31 → 2 ≤ env.levelMaxFileCount i)
    (hstores : env.StoresAll) (hops : ∀ op ∈ ops, op.Valid) (hrun : Emulator.run env ops = some s)
    (hcount : s.disk.getTotalLevelCount ≠ none) (k : ℤ) :
    (∀ v, Latest ops k v → Query.pointQueryRDF s k = some (true, v) ∧
      Query.pointQuerySplitRDF s k = some (true, v)) ∧
    ((∀ v, ¬ Latest ops k v) → Query.pointQueryRDF s k = some (false, []) ∧
      Query.pointQuerySplitRDF s k = some (false, [])) := by
  obtain ⟨c, hs⟩ := run_spec hstores hops hrun
  have hdisk := hs.disk_ok hmax
  rw [pointQueryRDF_eq hdisk hcount, pointQuerySplitRDF_eq hdisk hcount, (hs.traced k).verdict_eq]
  constructor
  · intro v hv
    rw [history_eq_some_iff.mpr hv]
    exact ⟨rfl, rfl⟩
  · intro hnone
    rcases hhistory : history ops k with _ | _ | v
    · exact ⟨rfl, rfl⟩
    · exact ⟨rfl, rfl⟩
    · exact absurd (history_eq_some_iff.mp hhistory) (hnone v)

def sampleEnv : EmuEnv where
  bufferSizeInPages := 2
  pointentriesPerPage := 2
  perKvSize := 4
  perRangeDeleteSize := 2
  deleteTileSizeInPages := 1
  deleteTileSize := 8
  pageSize := 8
  fileSize := 8
  letheNew := 0
  variableDeleteTileSizeInPages := []
  levelMaxFileCount := fun _ => 2
  saturated := fun size => 34 ≤ size

theorem storesAll_sampleEnv : sampleEnv.StoresAll := by
  have htile : ∀ level, sampleEnv.getDeleteTileSize level = 1 := fun _ => rfl
  exact storesAll_of_sizes 4 (by decide) (by decide) (by decide)
    (fun level => by rw [htile, Nat.mod_one]) (fun level => by rw [htile]; rfl) rfl rfl

def sampleOps : List Op :=
  [.insert 3 [1], .insert 5 [2], .insert 7 [3], .insert 1 [4], .rangeDelete 5 8, .insert 7 [9],
    .insert 9 [9]]

theorem valid_sampleOps : ∀ op ∈ sampleOps, op.Valid := by
  simp [sampleOps, Op.Valid]

theorem pointQueries_latest_sampleOps : ∃ s, Emulator.run sampleEnv sampleOps = some s ∧
    s.disk.getTotalLevelCount = some 3 ∧
    (Query.pointQueryRDF s 7 = some (true, [9]) ∧
      Query.pointQuerySplitRDF s 7 = some (true, [9])) ∧
    (Query.pointQueryRDF s 5 = some (false, []) ∧
      Query.pointQuerySplitRDF s 5 = some (false, [])) := by
  have hcount : ((Emulator.run sampleEnv sampleOps).bind fun s => s.disk.getTotalLevelCount) =
      some 3 := by decide
  obtain ⟨s, hrun, hcount⟩ := Option.bind_eq_some_iff.mp hcount
  have hne : s.disk.getTotalLevelCount ≠ none := by simp [hcount]
  have hqueries := pointQueries_latest (fun _ _ _ => le_rfl) storesAll_sampleEnv valid_sampleOps
    hrun hne
  refine ⟨s, hrun, hcount, (hqueries 7).1 [9] (history_eq_some_iff.mp (by decide)),
    (hqueries 5).2 fun v hv => ?_⟩
  have hdeleted : history sampleOps 5 = some none := by decide
  cases hdeleted.symm.trans (history_eq_some_iff.mpr hv)

end Run

end Spry.Emulation
