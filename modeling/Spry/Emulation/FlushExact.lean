import Spry.Emulation.Relink
import Spry.Emulation.SplitExact

/-!
# What a flush stores and how it relinks a level

A file stores the list it is populated with exactly if its tiles have room for it, and its bounds
are then the extremes of the list. A flush links the files of a list in place of the overlapped
files of the level exactly if every list it is left with can be split and the first new file is
found on the right side of the head of the level.
-/

namespace Spry.Emulation

open ClosedRange

section Stores

variable {env : EmuEnv} {level : ℕ} {l : EntryList}

structure SSTFile.BoundsExact (f : SSTFile) : Prop where
  points : f.entries.points ≠ [] →
    IsLeast (pointKeys f.entries.points) f.getMinSortKey ∧
      IsGreatest (pointKeys f.entries.points) f.getMaxSortKey
  ranges : f.entries.ranges ≠ [] →
    IsLeast {k | ∃ r ∈ f.entries.ranges, r.1 = k} f.getMinRangeKey ∧
      IsGreatest {k | ∃ r ∈ f.entries.ranges, r.2 = k} f.getMaxRangeKey

theorem SSTFile.boundsExact {f : SSTFile} (hpoints : ∀ p ∈ f.entries.points, 0 ≤ p.sortKey)
    (hranges : ∀ r ∈ f.entries.ranges, 0 ≤ r.1 ∧ 0 ≤ r.2) : f.BoundsExact where
  points hne := pointBounds_spec hne hpoints
  ranges hne := by
    obtain ⟨⟨hlo, hmin⟩, hhi, hmax⟩ := rangeBounds_spec hne hranges
    refine ⟨⟨hlo, ?_⟩, hhi, ?_⟩
    · rintro _ ⟨r, hr, rfl⟩
      exact hmin r hr
    · rintro _ ⟨r, hr, rfl⟩
      exact hmax r hr

/-- A file stores a list with non-negative keys, every entry once and in order and with exact
bounds, exactly if it has room for the points and for the ranges. -/
theorem populateFile_stores_iff (hpoints : ∀ p ∈ l.points, 0 ≤ p.sortKey)
    (hranges : ∀ r ∈ l.ranges, 0 ≤ r.1 ∧ 0 ≤ r.2) :
    (populateFile env level l).entries = l ∧ (populateFile env level l).BoundsExact ↔
      HasRoom env level env.perKvSize env.pointentriesPerPage l.points.length ∧
        HasRoom env level env.perRangeDeleteSize (env.pageSize / env.perRangeDeleteSize)
          l.ranges.length := by
  rw [← entries_populateFile_eq_iff]
  refine and_iff_left_of_imp fun heq => SSTFile.boundsExact ?_ ?_
  · rwa [heq]
  · rwa [heq]

theorem populateFile_stores_iff_sample :
    (populateFile EntryList.narrowEnv 1 ⟨[⟨10, []⟩, ⟨11, []⟩], []⟩).entries =
        ⟨[⟨10, []⟩, ⟨11, []⟩], []⟩ ∧
      (populateFile EntryList.narrowEnv 1 ⟨[⟨10, []⟩, ⟨11, []⟩], []⟩).BoundsExact :=
  (populateFile_stores_iff (by decide) (by decide)).mpr
    ⟨⟨by decide, by decide, by decide⟩, ⟨by decide, by decide, by decide⟩⟩

/-- Delete tiles of two pages in a buffer of three pages, with one entry of 8 bytes to a page. -/
def oddTileEnv : EmuEnv where
  bufferSizeInPages := 3
  pointentriesPerPage := 1
  perKvSize := 8
  perRangeDeleteSize := 8
  deleteTileSizeInPages := 2
  deleteTileSize := 16
  pageSize := 8
  fileSize := 24
  letheNew := 0
  variableDeleteTileSizeInPages := []
  levelMaxFileCount := fun i => 2 ^ i
  saturated := fun size => 24 ≤ size

/-- The only tile of two points is the last one and gets the one page that is left over from the
buffer, so the second point is lost. -/
theorem populateFile_loses_point :
    EntryList.splitOutBySizeInByte oddTileEnv ⟨[⟨1, []⟩, ⟨2, []⟩], []⟩ =
        some (⟨[⟨1, []⟩, ⟨2, []⟩], []⟩, EntryList.clear) ∧
      (populateFile oddTileEnv 1 ⟨[⟨1, []⟩, ⟨2, []⟩], []⟩).entries = ⟨[⟨1, []⟩], []⟩ := by
  decide

end Stores

/-- The sizes that `read_variables` computes from positive parameters. -/
structure EmuEnv.Configured (env : EmuEnv) (level : ℕ) : Prop where
  perKvSize_pos : 0 < env.perKvSize
  perRangeDeleteSize_pos : 0 < env.perRangeDeleteSize
  pointentriesPerPage_pos : 0 < env.pointentriesPerPage
  deleteTileSizeInPages_pos : 0 < env.deleteTileSizeInPages
  getDeleteTileSize_pos : 0 < env.getDeleteTileSize level
  pageSize_eq : env.pageSize = env.pointentriesPerPage * env.perKvSize
  deleteTileSize_eq : env.deleteTileSize = env.deleteTileSizeInPages * env.pageSize

namespace EmuEnv.Configured

variable {env : EmuEnv} {level : ℕ}

theorem perKvSize_le (h : env.Configured level) : env.perKvSize ≤ env.deleteTileSize := by
  rw [h.deleteTileSize_eq, h.pageSize_eq, ← Nat.mul_assoc]
  exact Nat.le_mul_of_pos_left _
    (Nat.mul_pos h.deleteTileSizeInPages_pos h.pointentriesPerPage_pos)

theorem pageSize_le (h : env.Configured level) : env.pageSize ≤ env.deleteTileSize := by
  rw [h.deleteTileSize_eq]
  exact Nat.le_mul_of_pos_left _ h.deleteTileSizeInPages_pos

theorem deleteTileSize_pos (h : env.Configured level) : 0 < env.deleteTileSize :=
  h.perKvSize_pos.trans_le h.perKvSize_le

end EmuEnv.Configured

section FirstFile

variable {env : EmuEnv} {level : ℕ} {l : EntryList}

theorem points_populateFile_cons (henv : env.Configured level) {p : PointEntry}
    {ps : List PointEntry} (h : l.points = p :: ps) :
    ∃ stored, (populateFile env level l).entries.points = p :: stored := by
  have hbytes : 0 < l.pointSizeInByte env :=
    Nat.mul_pos (by simp [h]) henv.perKvSize_pos
  simp only [populateFile, SSTFile.entries, h]
  exact flatten_populateTiles_cons (deleteTileCount_pos henv.deleteTileSize_pos hbytes)
    (pagesOfTile_pos henv.getDeleteTileSize_pos) henv.pointentriesPerPage_pos
    (Nat.div_pos henv.perKvSize_le henv.perKvSize_pos)

theorem ranges_populateFile_cons (henv : env.Configured level)
    (hpage : env.perRangeDeleteSize ≤ env.pageSize) {r : ℤ × ℤ} {rs : List (ℤ × ℤ)}
    (h : l.ranges = r :: rs) :
    ∃ stored, (populateFile env level l).entries.ranges = r :: stored := by
  have hbytes : 0 < l.rangeSizeInByte env :=
    Nat.mul_pos (by simp [h]) henv.perRangeDeleteSize_pos
  simp only [populateFile, SSTFile.entries, h]
  exact flatten_populateTiles_cons (deleteTileCount_pos henv.deleteTileSize_pos hbytes)
    (pagesOfTile_pos henv.getDeleteTileSize_pos)
    (Nat.div_pos hpage henv.perRangeDeleteSize_pos)
    (Nat.div_pos (hpage.trans henv.pageSize_le) henv.perRangeDeleteSize_pos)

theorem ranges_populateFile_nil (hpage : env.pageSize < env.perRangeDeleteSize) :
    (populateFile env level l).entries.ranges = [] := by
  simp only [populateFile, SSTFile.entries, Nat.div_eq_of_lt hpage]
  exact flatten_populateTiles_zero _ _ _ _ _

theorem getSSTMinKey_populateFile (hl : l.Sorted) (hr : l.InRange)
    (hne : ¬ (populateFile env level l).entries.empty = true) :
    (populateFile env level l).getSSTMinKey = (populateFile env level l).entries.getMinKey := by
  have hpoints := points_populateFile_sublist env level l
  have hranges := ranges_populateFile_sublist env level l
  have hsorted : (populateFile env level l).entries.Sorted :=
    ⟨hl.points.sublist hpoints, hl.ranges.sublist hranges⟩
  have hrange : (populateFile env level l).entries.InRange := by
    rintro k (⟨p, hp, rfl⟩ | ⟨r, hr', hk⟩)
    · exact hr (Or.inl ⟨p, hpoints.subset hp, rfl⟩)
    · exact hr (Or.inr ⟨r, hranges.subset hr', hk⟩)
  have hoccupied := EntryList.support_nonempty hsorted hne
  exact (SSTFile.key_bounds hsorted hrange hoccupied).1.unique
    (EntryList.isLeast_getMinKey hsorted hrange hoccupied)

theorem EntryList.getMinKey_eq_heads (l : EntryList) :
    l.getMinKey = toInt (match l.points.head?, l.ranges.head? with
      | none, none => -1
      | none, some r => r.1
      | some p, none => p.sortKey
      | some p, some r => min p.sortKey r.1) := by
  obtain ⟨ps, rs⟩ := l
  cases ps with
  | nil =>
    cases rs with
    | nil => rfl
    | cons r rs => rfl
  | cons p ps =>
    cases rs with
    | nil => rfl
    | cons r rs => rfl

theorem getSSTMinKey_eq_getMinKey (henv : env.Configured level)
    (hpage : env.perRangeDeleteSize ≤ env.pageSize) (hl : l.Sorted) (hr : l.InRange)
    (hne : ¬ l.empty = true) : (populateFile env level l).getSSTMinKey = l.getMinKey := by
  have hpoints : (populateFile env level l).entries.points.head? = l.points.head? := by
    cases h : l.points with
    | nil =>
      have hsub := points_populateFile_sublist env level l
      rw [h, List.sublist_nil] at hsub
      rw [hsub]
    | cons p ps =>
      obtain ⟨stored, hstored⟩ := points_populateFile_cons henv h
      rw [hstored, List.head?_cons, List.head?_cons]
  have hranges : (populateFile env level l).entries.ranges.head? = l.ranges.head? := by
    cases h : l.ranges with
    | nil =>
      have hsub := ranges_populateFile_sublist env level l
      rw [h, List.sublist_nil] at hsub
      rw [hsub]
    | cons r rs =>
      obtain ⟨stored, hstored⟩ := ranges_populateFile_cons henv hpage h
      rw [hstored, List.head?_cons, List.head?_cons]
  rw [getSSTMinKey_populateFile hl hr]
  · rw [EntryList.getMinKey_eq_heads, hpoints, hranges, ← EntryList.getMinKey_eq_heads]
  · rw [EntryList.empty_iff] at hne ⊢
    rwa [← List.head?_eq_none_iff, ← List.head?_eq_none_iff, hpoints, hranges,
      List.head?_eq_none_iff, List.head?_eq_none_iff]

theorem getSSTMinKey_of_point (henv : env.Configured level)
    (hpage : env.pageSize < env.perRangeDeleteSize) (hl : l.Sorted) (hr : l.InRange)
    {p : PointEntry} {ps : List PointEntry} (h : l.points = p :: ps) :
    (populateFile env level l).getSSTMinKey = p.sortKey := by
  obtain ⟨stored, hstored⟩ := points_populateFile_cons henv h
  have hentries : (populateFile env level l).entries = ⟨p :: stored, []⟩ := by
    rw [← hstored, ← ranges_populateFile_nil hpage]
  have hp : p.sortKey ∈ l.support := Or.inl ⟨p, by simp [h], rfl⟩
  rw [getSSTMinKey_populateFile hl hr (by simp [hentries, EntryList.empty]), hentries]
  exact toInt_eq (hr hp)

theorem getSSTMinKey_of_no_point (hpage : env.pageSize < env.perRangeDeleteSize)
    (h : l.points = []) : (populateFile env level l).getSSTMinKey = -1 := by
  have hpoints : (populateFile env level l).entries.points = [] :=
    List.sublist_nil.mp (h ▸ points_populateFile_sublist env level l)
  have hranges : (populateFile env level l).entries.ranges = [] := ranges_populateFile_nil hpage
  rw [SSTFile.getSSTMinKey, SSTFile.getMinRangeKey, SSTFile.getMinSortKey, hpoints, hranges]
  decide

end FirstFile

namespace EntryList

variable {env : EmuEnv} {l m : EntryList}

theorem getMinKey_splitOut (hl : l.Sorted) (hr : l.InRange) (hne : ¬ l.empty = true)
    (hpos : 0 < env.fileSize) {out rest : EntryList}
    (h : l.splitOutBySizeInByte env = some (out, rest)) : out.getMinKey = l.getMinKey := by
  have hspec := splitOut_spec hl h
  have hsupport := hspec.support_eq
  have hout : out.InRange := fun k hk => hr (hsupport ▸ Or.inl hk)
  have hleast := isLeast_getMinKey hspec.out_sorted hout
    (support_nonempty hspec.out_sorted (splitOut_progress hpos hne h))
  refine IsLeast.unique ?_ (isLeast_getMinKey hl hr (support_nonempty hl hne))
  rw [hsupport]
  refine ⟨Or.inl hleast.1, ?_⟩
  rintro k (hk | hk)
  · exact hleast.2 hk
  · exact (hspec.before _ hleast.1 k hk).le

theorem remains_iff : Remains env l m ↔
    m = l ∨ ∃ out rest, l.splitOutBySizeInByte env = some (out, rest) ∧ Remains env rest m := by
  constructor
  · intro h
    induction h with
    | refl => exact Or.inl rfl
    | split _ hsplit ih =>
      rcases ih with rfl | ⟨out, rest, hfirst, hrest⟩
      · exact Or.inr ⟨_, _, hsplit, Remains.refl⟩
      · exact Or.inr ⟨out, rest, hfirst, hrest.split hsplit⟩
  · rintro (rfl | ⟨out, rest, hfirst, hrest⟩)
    · exact Remains.refl
    · induction hrest with
      | refl => exact Remains.refl.split hfirst
      | split _ hsplit ih => exact ih.split hsplit

theorem not_crowded_of_points_nil (hl : l.Sorted) (hpoints : l.points = [])
    (hm : Remains env l m) : ¬ m.Crowded env := by
  have hnil : m.Sorted ∧ m.points = [] := by
    induction hm with
    | refl => exact ⟨hl, hpoints⟩
    | split _ hsplit ih =>
      have hspec := splitOut_spec ih.1 hsplit
      exact ⟨hspec.rest_sorted, (List.append_eq_nil_iff.mp (hspec.points_eq.trans ih.2)).2⟩
  rintro ⟨p, ps, _, _, _, hcons, _⟩
  rw [hnil.2] at hcons
  cases hcons

theorem exists_writeFiles_iff {level n : ℕ} (hl : l.Sorted)
    (hsize : env.perKvSize + env.perRangeDeleteSize ≤ env.fileSize) (hpos : 0 < env.fileSize)
    (hn : l.points.length + l.ranges.length ≤ n) :
    (∃ new, writeFiles env level n l = some new) ↔ ∀ m, Remains env l m → ¬ m.Crowded env := by
  induction n generalizing l with
  | zero =>
    have hpoints : l.points = [] := List.length_eq_zero_iff.mp (by omega)
    have hempty : l.empty = true :=
      empty_iff.mpr ⟨hpoints, List.length_eq_zero_iff.mp (by omega)⟩
    refine iff_of_true ⟨[], by rw [writeFiles, if_pos hempty]⟩ fun m hm => ?_
    exact not_crowded_of_points_nil hl hpoints hm
  | succ n ih =>
    rw [writeFiles]
    by_cases hempty : l.empty = true
    · refine iff_of_true ⟨[], if_pos hempty⟩ fun m hm => ?_
      exact not_crowded_of_points_nil hl (empty_iff.mp hempty).1 hm
    rw [if_neg hempty]
    cases hsplit : l.splitOutBySizeInByte env with
    | none =>
      refine iff_of_false (by simp) fun h => ?_
      exact h l Remains.refl ((splitOut_eq_none_iff hl hsize).mp hsplit)
    | some p =>
      obtain ⟨out, rest⟩ := p
      have hspec := splitOut_spec hl hsplit
      have hlength := hspec.length_le
      rw [if_neg (splitOut_progress hpos hempty hsplit)] at hlength
      have hrest := ih hspec.rest_sorted (by omega)
      simp only [Option.bind_some, Option.map_eq_some_iff]
      constructor
      · rintro ⟨_, fs, hfs, rfl⟩ m hm
        rcases remains_iff.mp hm with rfl | ⟨out', rest', hsplit', hm⟩
        · rw [← splitOut_eq_none_iff hl hsize, hsplit]
          simp
        · obtain ⟨_, rfl⟩ := Prod.mk.inj (Option.some.inj (hsplit.symm.trans hsplit'))
          exact hrest.mp ⟨fs, hfs⟩ m hm
      · intro h
        obtain ⟨fs, hfs⟩ := hrest.mpr fun m hm =>
          h m (remains_iff.mpr (Or.inr ⟨_, _, hsplit, hm⟩))
        exact ⟨_, fs, hfs, rfl⟩

theorem exists_splitOut_of_writeFiles {level n : ℕ} {new : List SSTFile} (hne : ¬ l.empty = true)
    (h : writeFiles env level n l = some new) :
    ∃ out rest ns, l.splitOutBySizeInByte env = some (out, rest) ∧
      new = populateFile env level out :: ns := by
  cases n with
  | zero => exact absurd (Option.ite_none_right_eq_some.mp h).1 hne
  | succ n =>
    rw [writeFiles, if_neg hne] at h
    obtain ⟨⟨out, rest⟩, hsplit, h⟩ := Option.bind_eq_some_iff.mp h
    obtain ⟨ns, _, rfl⟩ := Option.map_eq_some_iff.mp h
    exact ⟨out, rest, ns, hsplit, rfl⟩

end EntryList

section Flush

open EntryList

variable {env : EmuEnv} {level : ℕ} {files : List SSTFile} {l : EntryList}

/-- The flush ends with the files below the list, the files written for the list and the files
above the list. -/
def Relinks (env : EmuEnv) (level : ℕ) (files : List SSTFile) (l : EntryList) : Prop :=
  ∃ new, writeFiles env level (l.points.length + l.ranges.length) l = some new ∧
    compactAndFlush env level files l =
      some (files.filter (fun f => f.getSSTMaxKey < l.getMinKey) ++ new ++
        files.filter fun f => l.getMaxKey < f.getSSTMinKey)

/-- Where files keep no ranges: the head of the level does not lie between the start of the list
and its first point, and it does not lie below the list if the first file gets no point. -/
def HeadFound (env : EmuEnv) (files : List SSTFile) (l : EntryList) : Prop :=
  ∀ head ∈ files.head?,
    (∀ p, l.FirstPointEnters env p → l.getMinKey ≤ head.getSSTMaxKey →
      p.sortKey ≤ head.getSSTMaxKey) ∧
    ((∀ p, ¬ l.FirstPointEnters env p) → l.getMinKey ≤ head.getSSTMaxKey)

section SmallPages

variable {out rest : EntryList} {p : PointEntry}

theorem getSSTMinKey_of_enters (henv : env.Configured level)
    (hpage : env.pageSize < env.perRangeDeleteSize) (hl : l.Sorted) (hr : l.InRange)
    (h : l.splitOutBySizeInByte env = some (out, rest)) (hp : l.FirstPointEnters env p) :
    (populateFile env level out).getSSTMinKey = p.sortKey := by
  have hspec := splitOut_spec hl h
  have hout : out.InRange := fun k hk => hr (hspec.support_eq ▸ Or.inl hk)
  obtain ⟨ps, hps⟩ :=
    List.head?_eq_some_iff.mp ((splitOut_head_iff hl henv.perKvSize_pos h).mpr hp)
  exact getSSTMinKey_of_point henv hpage hspec.out_sorted hout hps

theorem getSSTMinKey_of_not_enters (henv : env.Configured level)
    (hpage : env.pageSize < env.perRangeDeleteSize) (hl : l.Sorted)
    (h : l.splitOutBySizeInByte env = some (out, rest)) (hnone : ∀ p, ¬ l.FirstPointEnters env p) :
    (populateFile env level out).getSSTMinKey = -1 := by
  apply getSSTMinKey_of_no_point hpage
  rw [← List.head?_eq_none_iff, Option.eq_none_iff_forall_ne_some]
  intro p hp
  exact hnone p ((splitOut_head_iff hl henv.perKvSize_pos h).mp hp)

end SmallPages

theorem headFound_iff (henv : env.Configured level) (hpos : 0 < env.fileSize)
    (hfiles : Ascends files) (hl : l.Sorted) (hr : l.InRange) (hne : ¬ l.empty = true)
    {out rest : EntryList} (h : l.splitOutBySizeInByte env = some (out, rest)) :
    (∀ head ∈ files.head?,
      ((populateFile env level out).getSSTMinKey ≤ head.getSSTMaxKey ↔
        l.getMinKey ≤ head.getSSTMaxKey)) ↔
      env.perRangeDeleteSize ≤ env.pageSize ∨ HeadFound env files l := by
  by_cases hpage : env.perRangeDeleteSize ≤ env.pageSize
  · have hspec := splitOut_spec hl h
    have hout : out.InRange := fun k hk => hr (hspec.support_eq ▸ Or.inl hk)
    refine iff_of_true (fun head _ => ?_) (Or.inl hpage)
    rw [getSSTMinKey_eq_getMinKey henv hpage hspec.out_sorted hout (splitOut_progress hpos hne h),
      getMinKey_splitOut hl hr hne hpos h]
  rw [or_iff_right hpage]
  have hpage' : env.pageSize < env.perRangeDeleteSize := not_le.mp hpage
  refine forall₂_congr fun head hmem => ?_
  by_cases hsome : ∃ p, l.FirstPointEnters env p
  · obtain ⟨p, hp⟩ := hsome
    have hunique : ∀ q, l.FirstPointEnters env q → q = p := fun q hq =>
      Option.some.inj (hq.1.symm.trans hp.1)
    have hle : l.getMinKey ≤ p.sortKey :=
      (isLeast_getMinKey hl hr (support_nonempty hl hne)).2
        (mem_support_of_point (List.mem_of_mem_head? hp.1))
    rw [getSSTMinKey_of_enters henv hpage' hl hr h hp]
    constructor
    · intro hside
      exact ⟨fun q hq hlow => hunique q hq ▸ hside.mpr hlow, fun hnone => absurd hp (hnone p)⟩
    · intro hfound
      exact ⟨fun hp' => hle.trans hp', fun hlow => hfound.1 p hp hlow⟩
  · have hnone : ∀ p, ¬ l.FirstPointEnters env p := fun p hp => hsome ⟨p, hp⟩
    have hmin := hfiles.nonneg head (List.mem_of_mem_head? hmem)
    have hmax := hfiles.valid head (List.mem_of_mem_head? hmem)
    have hlow : (-1 : ℤ) ≤ head.getSSTMaxKey := by omega
    rw [getSSTMinKey_of_not_enters henv hpage' hl h hnone, iff_true_left hlow]
    constructor
    · intro hfound
      exact ⟨fun p hp => absurd hp (hnone p), fun _ => hfound⟩
    · intro hfound
      exact hfound.2 hnone

/-- A flush relinks the level exactly if no list that is left is crowded and, in a configuration
whose pages are too small for a range, the head of the level is found. -/
theorem compactAndFlush_relinks_iff (henv : env.Configured level)
    (hsize : env.perKvSize + env.perRangeDeleteSize ≤ env.fileSize) (hfiles : Ascends files)
    (hl : l.Sorted) (hr : l.InRange) (hne : ¬ l.empty = true) :
    Relinks env level files l ↔ (∀ m, Remains env l m → ¬ m.Crowded env) ∧
      (env.perRangeDeleteSize ≤ env.pageSize ∨ HeadFound env files l) := by
  have hpos : 0 < env.fileSize := by
    have := henv.perKvSize_pos
    omega
  have hoccupied := support_nonempty hl hne
  have hle : l.getMinKey ≤ l.getMaxKey :=
    (isLeast_getMinKey hl hr hoccupied).2 (isGreatest_getMaxKey hl hr hoccupied).1
  obtain ⟨pre, mid, post, rfl, hparts⟩ := exists_parts hfiles l.getMinKey l.getMaxKey
  have hpre := hparts.filter_pre hle fun f hf => hfiles.valid f (by simp [hf])
  have hpost := hparts.filter_post hle fun f hf => hfiles.valid f (by simp [hf])
  rw [← exists_writeFiles_iff hl hsize hpos le_rfl, Relinks, hpre, hpost, compactAndFlush,
    if_neg hne]
  -- the first new file decides on which side of the head the new files are linked
  have hlinked : ∀ new, writeFiles env level (l.points.length + l.ranges.length) l = some new →
      (relink (pre ++ mid ++ post) new l.getMinKey l.getMaxKey = pre ++ new ++ post ↔
        env.perRangeDeleteSize ≤ env.pageSize ∨ HeadFound env (pre ++ mid ++ post) l) := by
    intro new hnew
    obtain ⟨out, rest, ns, hsplit, rfl⟩ := exists_splitOut_of_writeFiles hne hnew
    rw [← headFound_iff henv hpos hfiles hl hr hne hsplit]
    exact relink_eq_iff hparts hle hfiles.valid
  constructor
  · rintro ⟨new, hnew, hflush⟩
    rw [hnew, Option.map_some, Option.some.injEq] at hflush
    exact ⟨⟨new, hnew⟩, (hlinked new hnew).mp hflush⟩
  · rintro ⟨⟨new, hnew⟩, hfound⟩
    refine ⟨new, hnew, ?_⟩
    rw [hnew, Option.map_some, (hlinked new hnew).mpr hfound]

/-- A range replaces the file that it meets between two others. -/
theorem compactAndFlush_relinks_iff_sample :
    Relinks narrowEnv 1
      [populateFile narrowEnv 1 ⟨[], [(0, 1)]⟩, populateFile narrowEnv 1 ⟨[], [(4, 5)]⟩,
        populateFile narrowEnv 1 ⟨[], [(9, 10)]⟩] ⟨[], [(3, 6)]⟩ := by
  have henv : narrowEnv.Configured 1 :=
    ⟨by decide, by decide, by decide, by decide, by decide, by decide, by decide⟩
  have hl : Sorted ⟨[], [(3, 6)]⟩ := ⟨by decide, by decide, by decide⟩
  have hr : InRange ⟨[], [(3, 6)]⟩ := by
    rintro k (⟨_, hp, _⟩ | ⟨r, hr, hk⟩)
    · cases hp
    · rw [List.mem_singleton.mp hr] at hk
      exact ⟨le_trans (by decide) hk.1, lt_of_le_of_lt hk.2 (by decide)⟩
  exact (compactAndFlush_relinks_iff henv (by decide) ⟨by decide, by decide, by decide⟩ hl hr
    (by decide)).mpr ⟨fun m hm => not_crowded_of_points_nil hl rfl hm, Or.inl (by decide)⟩

/-- The list whose only point is given back is not written, and the flush does not return. -/
theorem compactAndFlush_pops_only_point :
    narrowEnv.Configured 1 ∧ Sorted ⟨[⟨10, []⟩], [(0, 1), (3, 4), (6, 20)]⟩ ∧ Ascends [] ∧
      compactAndFlush narrowEnv 1 [] ⟨[⟨10, []⟩], [(0, 1), (3, 4), (6, 20)]⟩ = none :=
  ⟨⟨by decide, by decide, by decide, by decide, by decide, by decide, by decide⟩,
    ⟨by decide, by decide, by decide⟩, ⟨by decide, by decide, by decide⟩, by decide⟩

end Flush

end Spry.Emulation
