import Spry.BundleSplit
import Spry.PLRDFMerge
import Spry.PLRDFReachable

/-!
# Ranges that do not touch

The range lists of the string-key filter along a run of deltas. Merging leaves a gap between two
ranges, and so does cutting out a boundary, unless the boundary is the single key of a file
strictly inside of a range: then the range falls into two that touch.
-/

namespace Spry

open HalfOpen

variable {K : Type} [LinearOrder K]

def Tight (rs : List (K × K)) : Prop :=
  Gapped rs ∧ ∀ ss : List (K × K), coverage ss = coverage rs → rs.length ≤ ss.length

theorem tight_of_normal {rs : List (K × K)} (h : Normal rs) : Tight rs :=
  ⟨h.gapped, fun _ hcov => h.length_le hcov⟩

theorem tight_iff_normal {rs : List (K × K)} (h : Ordered rs) : Tight rs ↔ Normal rs :=
  ⟨fun ht => ⟨h.nonempty, ht.1⟩, tight_of_normal⟩

namespace PLRDF

variable {f g : PLRDF K} {entries : List (LevelFiles K)}

def leftBy (level : ℕ) (rs : List (K × K)) (e : LevelFiles K) : List (K × K) :=
  if e.clevel = level ∧ level ≠ 0 then subtract rs (sortAndMerge e.boundaries) else rs

omit [LinearOrder K] in
theorem getLevelRanges_of_length_le {n : ℕ} (h : f.rdFilter.length ≤ n) :
    f.getLevelRanges n = [] := by
  rw [getLevelRanges, List.getD_eq_getElem?_getD, List.getElem?_eq_none h, Option.getD_none]

theorem getLevelRanges_restrictLevel_subtract {e : LevelFiles K} (hzero : e.clevel ≠ 0)
    (hlen : e.clevel < f.rdFilter.length) (level : ℕ) :
    (f.restrictLevel e.clevel (subtract (f.getLevelRanges e.clevel)
      (sortAndMerge e.boundaries))).getLevelRanges level =
      leftBy level (f.getLevelRanges level) e := by
  rw [getLevelRanges_restrictLevel f e.clevel level _ hlen, leftBy]
  by_cases hlevel : level = e.clevel
  · rw [if_pos hlevel, if_pos ⟨hlevel.symm, hlevel ▸ hzero⟩, hlevel]
  · rw [if_neg hlevel, if_neg fun h => hlevel h.1.symm]

theorem leftBy_eq_self {e : LevelFiles K} (h : e.clevel = 0 ∨ f.rdFilter.length ≤ e.clevel)
    (level : ℕ) : leftBy level (f.getLevelRanges level) e = f.getLevelRanges level := by
  unfold leftBy
  split_ifs with hlevel
  · obtain ⟨rfl, hne⟩ := hlevel
    rw [getLevelRanges_of_length_le (h.resolve_left hne), subtract]
  · rfl

/-- What the removal of some entries does: each level loses what is listed for it, and level-0
files may go but not change. -/
structure Removal (f g : PLRDF K) (entries : List (LevelFiles K)) : Prop where
  wellFormed : g.WellFormed
  ranges : ∀ level,
    g.getLevelRanges level = entries.foldl (leftBy level) (f.getLevelRanges level)
  files : ∀ n rs, g.rdFilterLevel0.lookup n = some rs → f.rdFilterLevel0.lookup n = some rs

theorem removal_shiftSource (hf : f.WellFormed) {e : LevelFiles K}
    (hwf : ∀ x ∈ e.boundaries, x.1 ≤ x.2) (h : f.shiftSource e = some g) : Removal f g [e] := by
  have hg := (hf.shiftSource hwf h).1
  unfold PLRDF.shiftSource at h
  by_cases hzero : e.clevel = 0
  · rw [if_pos hzero, Option.some.injEq] at h
    subst h
    refine ⟨hg, fun level => (leftBy_eq_self (Or.inl hzero) level).symm, ?_⟩
    intro n rs hrs
    rw [lookup_removeRangeDeletesFromLevel0] at hrs
    split_ifs at hrs
    exact hrs
  · rw [if_neg hzero] at h
    by_cases hlen : e.clevel < f.rdFilter.length
    · rw [(hf.removals_eq hzero hlen).2, Option.some.injEq] at h
      subst h
      exact ⟨hg, getLevelRanges_restrictLevel_subtract hzero hlen, fun n rs hrs => hrs⟩
    · rw [removeRangeDeletesAndSplitKeyFromLevel, if_pos (Or.inl (not_lt.mp hlen)),
        Option.some.injEq] at h
      subst h
      exact ⟨hg, fun level => (leftBy_eq_self (Or.inr (not_lt.mp hlen)) level).symm,
        fun n rs hrs => hrs⟩

omit [LinearOrder K] in
theorem lookup_foldlM_eraseLevel0OrExit {files : List ℕ}
    {m m' : AList (fun _ : ℕ => List (K × K))} (h : files.foldlM eraseLevel0OrExit m = some m')
    {n : ℕ} {rs : List (K × K)} (hrs : m'.lookup n = some rs) : m.lookup n = some rs := by
  induction files generalizing m with
  | nil =>
    obtain rfl := Option.some.inj h
    exact hrs
  | cons fd files ih =>
    obtain ⟨mid, hmid, hrest⟩ := Option.bind_eq_some_iff.mp h
    have hlookup := ih hrest
    rw [eraseLevel0OrExit, Option.ite_none_right_eq_some, Option.some.injEq] at hmid
    rw [← hmid.2] at hlookup
    by_cases hn : n = fd
    · rw [hn, AList.lookup_erase] at hlookup
      cases hlookup
    · rwa [AList.lookup_erase_ne hn] at hlookup

theorem removal_deleteRDF (hf : f.WellFormed) {e : LevelFiles K}
    (hwf : ∀ x ∈ e.boundaries, x.1 ≤ x.2)
    (h : f.deleteRDFAssociatedWithFilesAtCurrentLevel e = some g) : Removal f g [e] := by
  have hg := (hf.deleteRDFAssociatedWithFilesAtCurrentLevel hwf h).1
  by_cases hzero : e.clevel = 0
  · rw [PLRDF.deleteRDFAssociatedWithFilesAtCurrentLevel, if_pos hzero] at h
    obtain ⟨m, hm, rfl⟩ := Option.map_eq_some_iff.mp h
    exact ⟨hg, fun level => (leftBy_eq_self (Or.inl hzero) level).symm,
      fun n rs hrs => lookup_foldlM_eraseLevel0OrExit hm hrs⟩
  · by_cases hlen : e.clevel < f.rdFilter.length
    · rw [(hf.removals_eq hzero hlen).1, Option.some.injEq] at h
      subst h
      exact ⟨hg, getLevelRanges_restrictLevel_subtract hzero hlen, fun n rs hrs => hrs⟩
    · rw [PLRDF.deleteRDFAssociatedWithFilesAtCurrentLevel, if_neg hzero,
        if_pos (not_lt.mp hlen), Option.some.injEq] at h
      subst h
      exact ⟨hg, fun level => (leftBy_eq_self (Or.inr (not_lt.mp hlen)) level).symm,
        fun n rs hrs => hrs⟩

theorem removal_foldlM {op : PLRDF K → LevelFiles K → Option (PLRDF K)}
    (hop : ∀ f g e, f.WellFormed → (∀ x ∈ e.boundaries, x.1 ≤ x.2) → op f e = some g →
      Removal f g [e])
    (hf : f.WellFormed) (hwf : ∀ e ∈ entries, ∀ x ∈ e.boundaries, x.1 ≤ x.2)
    (h : entries.foldlM op f = some g) : Removal f g entries := by
  induction entries generalizing f with
  | nil =>
    obtain rfl := Option.some.inj h
    exact ⟨hf, fun _ => rfl, fun _ _ hrs => hrs⟩
  | cons e es ih =>
    obtain ⟨mid, hmid, hrest⟩ := Option.bind_eq_some_iff.mp h
    have hfirst := hop f mid e hf (hwf e List.mem_cons_self) hmid
    have hothers := ih hfirst.wellFormed (fun e' he' => hwf e' (List.mem_cons_of_mem e he')) hrest
    refine ⟨hothers.wellFormed, fun level => ?_, fun n rs hrs => ?_⟩
    · rw [hothers.ranges level, hfirst.ranges level]
      rfl
    · exact hfirst.files n rs (hothers.files n rs hrs)

theorem foldl_leftBy_of_notMem {level : ℕ} (h : ∀ e ∈ entries, e.clevel ≠ level)
    (rs : List (K × K)) : entries.foldl (leftBy level) rs = rs := by
  induction entries with
  | nil => rfl
  | cons e es ih =>
    have hhead : leftBy level rs e = rs := if_neg fun hl => h e List.mem_cons_self hl.1
    rw [List.foldl_cons, hhead]
    exact ih fun e' he' => h e' (List.mem_cons_of_mem e he')

def Spares (f : PLRDF K) (e : LevelFiles K) : Prop :=
  ∀ r ∈ f.getLevelRanges e.clevel, ∀ x ∈ sortAndMerge e.boundaries, ¬ Cleaves x r

theorem normal_leftBy_iff {level : ℕ} {rs : List (K × K)} {e : LevelFiles K} (hrs : Normal rs)
    (hwf : ∀ x ∈ e.boundaries, x.1 ≤ x.2) :
    Normal (leftBy level rs e) ↔
      (e.clevel = level → level ≠ 0 →
        ∀ r ∈ rs, ∀ x ∈ sortAndMerge e.boundaries, ¬ Cleaves x r) := by
  unfold leftBy
  by_cases hlevel : e.clevel = level ∧ level ≠ 0
  · rw [if_pos hlevel, normal_subtract_iff hrs (gapped_sortAndMerge hwf)
      (startSorted_sortAndMerge hwf).2]
    exact ⟨fun h _ _ => h, fun h => h hlevel.1 hlevel.2⟩
  · rw [if_neg hlevel]
    exact ⟨fun _ hl hz => absurd ⟨hl, hz⟩ hlevel, fun _ => hrs⟩

/-- With one entry per source level, the entry listed for a level alone decides. -/
theorem normal_foldl_leftBy_iff {level : ℕ} {rs : List (K × K)} (hrs : Normal rs)
    (hnodup : (entries.map LevelFiles.clevel).Nodup)
    (hwf : ∀ e ∈ entries, ∀ x ∈ e.boundaries, x.1 ≤ x.2) :
    Normal (entries.foldl (leftBy level) rs) ↔
      ∀ e ∈ entries, e.clevel = level → level ≠ 0 →
        ∀ r ∈ rs, ∀ x ∈ sortAndMerge e.boundaries, ¬ Cleaves x r := by
  induction entries with
  | nil => simpa using hrs
  | cons e es ih =>
    rw [List.map_cons, List.nodup_cons] at hnodup
    have hwf' : ∀ e' ∈ es, ∀ x ∈ e'.boundaries, x.1 ≤ x.2 :=
      fun e' he' => hwf e' (List.mem_cons_of_mem e he')
    rw [List.foldl_cons, List.forall_mem_cons]
    by_cases hlevel : e.clevel = level
    · -- the remaining entries are about other levels
      have hother : ∀ e' ∈ es, e'.clevel ≠ level := by
        intro e' he' heq
        exact hnodup.1 (hlevel.trans heq.symm ▸ List.mem_map_of_mem he')
      rw [foldl_leftBy_of_notMem hother, normal_leftBy_iff hrs (hwf e List.mem_cons_self)]
      exact ⟨fun h => ⟨h, fun e' he' hl => absurd hl (hother e' he')⟩, fun h => h.1⟩
    · have hhead : leftBy level rs e = rs := if_neg fun hl => hlevel hl.1
      rw [hhead, ih hnodup.2 hwf']
      exact ⟨fun h => ⟨fun hl => absurd hl hlevel, h⟩, fun h => h.2⟩

theorem Removal.normal_iff (h : Removal f g entries) {level : ℕ}
    (hnormal : Normal (f.getLevelRanges level)) (hnodup : (entries.map LevelFiles.clevel).Nodup)
    (hwf : ∀ e ∈ entries, ∀ x ∈ e.boundaries, x.1 ≤ x.2) :
    Normal (g.getLevelRanges level) ↔
      ∀ e ∈ entries, e.clevel = level → level ≠ 0 → f.Spares e := by
  rw [h.ranges level, normal_foldl_leftBy_iff hnormal hnodup hwf]
  constructor
  · rintro hall e he rfl hzero
    exact hall e he rfl hzero
  · rintro hall e he rfl hzero
    exact hall e he rfl hzero

/-- Well formed, with the ranges of every level-0 file in normal form. -/
structure Sound (f : PLRDF K) : Prop extends WellFormed f where
  level0 : ∀ n rs, f.rdFilterLevel0.lookup n = some rs → Normal rs

theorem sound_empty : (empty : PLRDF K).Sound :=
  ⟨wellFormed_empty, fun _ _ hrs => by cases hrs⟩

theorem Removal.sound (h : Removal f g entries) (hf : f.Sound) : g.Sound :=
  ⟨h.wellFormed, fun n rs hrs => hf.level0 n rs (h.files n rs hrs)⟩

theorem Sound.applyFlush (hf : f.Sound) {d : FlushDelta K} (hranges : ∀ r ∈ d.ranges, r.1 < r.2)
    (h : f.applyFlush d = some g) :
    g.Sound ∧ ∀ level, g.getLevelRanges level = f.getLevelRanges level := by
  have hg := (hf.toWellFormed.applyFlush h).1
  unfold PLRDF.applyFlush at h
  split_ifs at h
  · obtain rfl := Option.some.inj h
    exact ⟨hf, fun _ => rfl⟩
  · unfold PLRDF.insertRangeDeleteToLevel0 at h
    split_ifs at h
    obtain rfl := Option.some.inj h
    refine ⟨⟨hg, fun n rs hrs => ?_⟩, fun _ => rfl⟩
    by_cases hn : n = d.fileNum
    · rw [hn, AList.lookup_insert, Option.some.injEq] at hrs
      exact hrs ▸ normal_sortAndMerge hranges
    · rw [AList.lookup_insert_ne hn] at hrs
      exact hf.level0 n rs hrs

theorem normal_addRangeDelete {rdList rdListIn rdListOut : List (K × K)} (h : Ordered rdList)
    (hin : Ascends rdListIn) (hne : rdListIn ≠ [])
    (hadd : addRangeDelete rdList rdListIn = some rdListOut) : Normal rdListOut := by
  rw [addRangeDelete, if_neg hne, if_pos hin.startSorted, Option.some.injEq] at hadd
  subst hadd
  apply normal_coalesceAll (startSorted_interleave h.startSorted hin.startSorted)
  intro r hr
  cases List.mem_append.mp ((interleave_perm rdList rdListIn).mem_iff.mp hr) with
  | inl hr => exact h.nonempty r hr
  | inr hr => exact hin.nonempty r hr

/-- A compaction leaves gaps between all ranges exactly if the entries spare the ranges of their
levels. The output level does not matter if new ranges are merged into it. -/
theorem Sound.shiftRDFToOutputLevel (hf : f.Sound) {e : LevelFiles K} {es : List (LevelFiles K)}
    {out : List (K × K)} (hne : ∀ r ∈ out, r.1 < r.2)
    (hwf : ∀ e' ∈ e :: es, ∀ x ∈ e'.boundaries, x.1 ≤ x.2)
    (h : f.shiftRDFToOutputLevel (e :: es) out = some g) :
    g.Sound ∧ ((∀ level, Normal (f.getLevelRanges level)) →
      ((e :: es).map LevelFiles.clevel).Nodup →
      ((∀ level, Normal (g.getLevelRanges level)) ↔
        ∀ e' ∈ e :: es, e'.clevel ≠ 0 → ¬ (out ≠ [] ∧ e.olevel = e'.clevel) → f.Spares e')) := by
  have hout := ascends_of_shiftRDFToOutputLevel hne h
  have hg := (hf.toWellFormed.levelCoverage_shiftRDF hne hwf h).1
  obtain ⟨mid, hmid, hrest⟩ := Option.bind_eq_some_iff.mp h
  have hremoved := removal_foldlM (fun _ _ _ hf hwf h => removal_shiftSource hf hwf h)
    hf.toWellFormed hwf hmid
  by_cases hempty : out = []
  · rw [if_pos hempty] at hrest
    obtain rfl := Option.some.inj hrest
    refine ⟨hremoved.sound hf, fun hnormal hnodup => ?_⟩
    simp only [hremoved.normal_iff (hnormal _) hnodup hwf]
    constructor
    · intro hall e' he' hzero _
      exact hall e'.clevel e' he' rfl hzero
    · rintro hall _ e' he' rfl hzero
      exact hall e' he' hzero fun hnot => hnot.1 hempty
  · rw [if_neg hempty] at hrest
    obtain ⟨⟨rdList, hadd, hranges⟩, hmap⟩ := getLevelRanges_addRangeDeleteInternal hrest
    have hmerged := normal_addRangeDelete (hremoved.wellFormed.ordered e.olevel) hout hempty hadd
    refine ⟨⟨hg, fun n rs hrs => (hremoved.sound hf).level0 n rs (hmap ▸ hrs)⟩,
      fun hnormal hnodup => ?_⟩
    have hlevel : ∀ level, Normal (g.getLevelRanges level) ↔
        (level ≠ e.olevel → ∀ e' ∈ e :: es, e'.clevel = level → level ≠ 0 → f.Spares e') := by
      intro level
      rw [hranges level]
      by_cases heq : level = e.olevel
      · rw [if_pos heq]
        exact ⟨fun _ hnot => absurd heq hnot, fun _ => hmerged⟩
      · rw [if_neg heq, hremoved.normal_iff (hnormal level) hnodup hwf]
        exact ⟨fun h _ => h, fun h => h heq⟩
    simp only [hlevel]
    constructor
    · intro hall e' he' hzero hnot
      exact hall e'.clevel (fun heq => hnot ⟨hempty, heq.symm⟩) e' he' rfl hzero
    · rintro hall _ holevel e' he' rfl hzero
      exact hall e' he' hzero fun hnot => holevel hnot.2.symm

def AllTight (f : PLRDF K) : Prop :=
  (∀ level, Tight (f.getLevelRanges level)) ∧
    ∀ n rs, f.rdFilterLevel0.lookup n = some rs → Tight rs

theorem Sound.allTight_iff (hf : f.Sound) :
    f.AllTight ↔ ∀ level, Normal (f.getLevelRanges level) := by
  constructor
  · intro h level
    exact (tight_iff_normal (hf.ordered level)).mp (h.1 level)
  · intro h
    exact ⟨fun level => tight_of_normal (h level),
      fun n rs hrs => tight_of_normal (hf.level0 n rs hrs)⟩

end PLRDF

namespace RDFUpdateMetadata

def Refills (d : RDFUpdateMetadata K) (level : ℕ) : Prop :=
  d.IsCompaction ∧ d.rangetombstonesOnOutputLevel ≠ [] ∧
    d.plrdfStringkeyCompactionDelta.head?.map LevelFiles.olevel = some level

/-- On every level from which files are taken and into which nothing is merged, no merged file
boundary is a single key strictly inside of a stored range. -/
def SparesRanges (d : RDFUpdateMetadata K) (f : PLRDF K) : Prop :=
  d.type ≠ .kFlush → ∀ e ∈ d.plrdfStringkeyCompactionDelta, e.clevel ≠ 0 →
    ¬ d.Refills e.clevel → f.Spares e

/-- What the jobs hand over: proper ranges, flushed tombstones that are not empty, and one entry
for each source level. -/
structure JobRanges (d : RDFUpdateMetadata K) : Prop
    extends d.ProperRanges d.plrdfStringkeyCompactionDelta where
  flushed : ∀ r ∈ d.plrdfStringkeyFlushDelta.ranges, r.1 < r.2
  sources : (d.plrdfStringkeyCompactionDelta.map LevelFiles.clevel).Nodup

end RDFUpdateMetadata

namespace VersionRDFBundle

variable {stoll : K → Option ℤ} {b b' : VersionRDFBundle K} {d : RDFUpdateMetadata K}
  {deltas : List (RDFUpdateMetadata K)}

theorem sound_applyCompactionDelta (hb : b.plrdfStringkey.Sound) (hd : d.JobRanges)
    (htype : d.IsCompaction) (h : b.applyCompactionDelta stoll d = some b') :
    b'.plrdfStringkey.Sound ∧ ((∀ level, Normal (b.plrdfStringkey.getLevelRanges level)) →
      ((∀ level, Normal (b'.plrdfStringkey.getLevelRanges level)) ↔
        d.SparesRanges b.plrdfStringkey)) := by
  have hshift := (compactionParts h).plrdfStringkey
  have hwf := hd.boundaries
  have hnodup := hd.sources
  have hflush : d.type ≠ .kFlush := by
    rcases htype with htype | htype
    · rw [htype]
      exact JobType.noConfusion
    · rw [htype]
      exact JobType.noConfusion
  cases hentries : d.plrdfStringkeyCompactionDelta with
  | nil =>
    rw [hentries] at hshift
    obtain heq := Option.some.inj hshift
    rw [← heq]
    refine ⟨hb, fun hnormal => ⟨fun _ _ e he => ?_, fun _ => hnormal⟩⟩
    rw [hentries] at he
    cases he
  | cons e es =>
    rw [hentries] at hshift hwf hnodup
    obtain ⟨hsound, hiff⟩ := hb.shiftRDFToOutputLevel hd.nonempty hwf hshift
    refine ⟨hsound, fun hnormal => (hiff hnormal hnodup).trans ?_⟩
    have hrefills : ∀ level, d.Refills level ↔
        d.rangetombstonesOnOutputLevel ≠ [] ∧ e.olevel = level := by
      intro level
      simp [RDFUpdateMetadata.Refills, htype, hentries]
    simp only [RDFUpdateMetadata.SparesRanges, hentries, hrefills, hflush, ne_eq,
      not_false_eq_true, true_imp_iff]

/-- One delta leaves gaps between all ranges exactly if it spares the ranges of the levels it
takes files from. -/
theorem sound_applyDelta (hb : b.plrdfStringkey.Sound) (hd : d.JobRanges)
    (h : b.applyDelta stoll d = some b') :
    b'.plrdfStringkey.Sound ∧ ((∀ level, Normal (b.plrdfStringkey.getLevelRanges level)) →
      ((∀ level, Normal (b'.plrdfStringkey.getLevelRanges level)) ↔
        d.SparesRanges b.plrdfStringkey)) := by
  rcases applyDelta_cases h with ⟨htype, h⟩ | ⟨htype, h⟩ | ⟨htype, h⟩
  · obtain ⟨hsound, hranges⟩ := hb.applyFlush hd.flushed (flushParts h).plrdfStringkey
    refine ⟨hsound, fun hnormal => ⟨fun _ hnot => absurd htype hnot, fun _ level => ?_⟩⟩
    rw [hranges level]
    exact hnormal level
  · exact sound_applyCompactionDelta hb hd htype h
  · have hremoved := PLRDF.removal_foldlM
      (fun _ _ _ hf hwf h => PLRDF.removal_deleteRDF hf hwf h) hb.toWellFormed hd.boundaries
      (removalParts h).plrdfStringkey
    refine ⟨hremoved.sound hb, fun hnormal => ?_⟩
    simp only [hremoved.normal_iff (hnormal _) hd.sources hd.boundaries]
    constructor
    · intro hall _ e he hzero _
      exact hall e.clevel e he rfl hzero
    · rintro hall _ e he rfl hzero
      refine hall (by rw [htype]; exact JobType.noConfusion) e he hzero ?_
      rintro ⟨hcompaction | hcompaction, _⟩
      · rw [htype] at hcompaction
        cases hcompaction
      · rw [htype] at hcompaction
        cases hcompaction

theorem sound_run (hdeltas : ∀ d ∈ deltas, d.JobRanges)
    (h : deltas.foldlM (applyDelta stoll) empty = some b) : b.plrdfStringkey.Sound := by
  suffices hfrom : ∀ start : VersionRDFBundle K, start.plrdfStringkey.Sound →
      deltas.foldlM (applyDelta stoll) start = some b → b.plrdfStringkey.Sound from
    hfrom empty PLRDF.sound_empty h
  clear h
  induction deltas with
  | nil =>
    intro start hstart h
    obtain rfl := Option.some.inj h
    exact hstart
  | cons d deltas ih =>
    intro start hstart h
    obtain ⟨mid, hmid, hrest⟩ := Option.bind_eq_some_iff.mp h
    exact ih (fun d' hd' => hdeltas d' (List.mem_cons_of_mem d hd')) mid
      (sound_applyDelta hstart (hdeltas d List.mem_cons_self) hmid).1 hrest

theorem foldlM_applyDelta_concat {before : List (RDFUpdateMetadata K)}
    {start : VersionRDFBundle K} :
    (before ++ [d]).foldlM (applyDelta stoll) start = some b' ↔
      ∃ b, before.foldlM (applyDelta stoll) start = some b ∧ b.applyDelta stoll d = some b' := by
  simp [List.foldlM_append, Option.bind_eq_some_iff]

/-- Along a run of deltas no two ranges of the string-key filter touch, and every list of ranges
is as short as its coverage allows, exactly if every delta of the run spares the ranges it finds. -/
theorem allTight_iff_sparesRanges (hdeltas : ∀ d ∈ deltas, d.JobRanges) :
    (∀ before b, before <+: deltas → before.foldlM (applyDelta stoll) empty = some b →
        b.plrdfStringkey.AllTight) ↔
      ∀ before d b, before ++ [d] <+: deltas → before.foldlM (applyDelta stoll) empty = some b →
        (b.applyDelta stoll d).isSome = true → d.SparesRanges b.plrdfStringkey := by
  have hjobs : ∀ before, before <+: deltas → ∀ d ∈ before, d.JobRanges :=
    fun before hinit d hd => hdeltas d (hinit.subset hd)
  constructor
  · intro hall before d b hinit hb hsome
    obtain ⟨b', hb'⟩ := Option.isSome_iff_exists.mp hsome
    have hbefore : before <+: deltas := (List.prefix_append before [d]).trans hinit
    have hsound := sound_run (hjobs before hbefore) hb
    have hd : d.JobRanges := hjobs _ hinit d (by simp)
    obtain ⟨hsound', hiff⟩ := sound_applyDelta hsound hd hb'
    have hafter := hall _ b' hinit (foldlM_applyDelta_concat.mpr ⟨b, hb, hb'⟩)
    exact (hiff (hsound.allTight_iff.mp (hall before b hbefore hb))).mp
      (hsound'.allTight_iff.mp hafter)
  · intro hall before
    induction before using List.reverseRecOn with
    | nil =>
      intro b _ hb
      obtain rfl := Option.some.inj hb
      exact PLRDF.sound_empty.allTight_iff.mpr fun level => Normal.nil
    | append_singleton before d ih =>
      intro b' hinit hb'
      obtain ⟨b, hb, hstep⟩ := foldlM_applyDelta_concat.mp hb'
      have hbefore : before <+: deltas := (List.prefix_append before [d]).trans hinit
      have hsound := sound_run (hjobs before hbefore) hb
      have hd : d.JobRanges := hjobs _ hinit d (by simp)
      obtain ⟨hsound', hiff⟩ := sound_applyDelta hsound hd hstep
      apply hsound'.allTight_iff.mpr
      apply (hiff (hsound.allTight_iff.mp (ih b hbefore hb))).mpr
      exact hall before d b hinit hb (by rw [hstep]; rfl)

/-- File 7 with the tombstone `[1, 5)` is flushed and compacted into three files of level 1, the
second of which holds the key 3 alone. The file with these boundaries goes on to level 2. -/
def sampleNormalDeltas (boundary : ℕ × ℕ) : List (RDFUpdateMetadata ℕ) :=
  [{ type := .kFlush, plrdfStringkeyFlushDelta := ⟨7, [(1, 5)], []⟩ },
    { type := .kCompaction
      plrdfStringkeyCompactionDelta := [⟨0, 1, [(1, 5)], [7]⟩]
      fdRangetombstonesInfo := some ⟨[⟨0, [7], [(1, 5)]⟩], 1,
        [⟨8, (1, 3)⟩, ⟨9, (3, 3)⟩, ⟨10, (3, 5)⟩]⟩ },
    { type := .kCompaction, plrdfStringkeyCompactionDelta := [⟨1, 2, [boundary], [9]⟩] }]

theorem jobRanges_sampleNormalDeltas {boundary : ℕ × ℕ} (h : boundary.1 ≤ boundary.2) :
    ∀ d ∈ sampleNormalDeltas boundary, d.JobRanges := by
  intro d hd
  simp only [sampleNormalDeltas, List.mem_cons, List.not_mem_nil, or_false] at hd
  rcases hd with rfl | rfl | rfl
  · exact ⟨⟨by decide, by decide, by decide⟩, by decide, by decide⟩
  · exact ⟨⟨by decide, by decide, by decide⟩, by decide, by decide⟩
  · refine ⟨⟨?_, fun _ ht => (by cases ht), fun _ hx => (by cases hx)⟩,
      fun _ hr => (by cases hr), List.nodup_singleton 1⟩
    intro e he x hx
    obtain rfl := List.mem_singleton.mp he
    obtain rfl := List.mem_singleton.mp hx
    exact h

theorem allTight_iff_sparesRanges_sample : ∃ b : VersionRDFBundle ℕ,
    (sampleNormalDeltas (3, 5)).foldlM (applyDelta fun _ => none) empty = some b ∧
      b.plrdfStringkey.AllTight := by
  have hrun : ((sampleNormalDeltas (3, 5)).foldlM (applyDelta fun _ => none) empty).isSome =
      true := by decide
  obtain ⟨b, hb⟩ := Option.isSome_iff_exists.mp hrun
  refine ⟨b, hb, ?_⟩
  apply (allTight_iff_sparesRanges (jobRanges_sampleNormalDeltas (by decide))).mpr _ _ b
    (List.prefix_refl _) hb
  intro before d mid hinit hmid _ hflush e he hzero _ r hr x hx
  match before with
  | [] =>
    obtain rfl : d = _ := by simpa [sampleNormalDeltas] using hinit
    cases he
  | [_] =>
    obtain ⟨rfl, rfl⟩ : _ ∧ d = _ := by simpa [sampleNormalDeltas] using hinit
    obtain rfl := List.mem_singleton.mp he
    exact absurd rfl hzero
  | [_, _] =>
    obtain ⟨rfl, rfl, rfl⟩ : _ ∧ _ ∧ d = _ := by simpa [sampleNormalDeltas] using hinit
    obtain rfl := List.mem_singleton.mp he
    have hlevel : (((sampleNormalDeltas (3, 5)).take 2).foldlM (applyDelta fun _ => none)
        empty).map (fun b => b.plrdfStringkey.getLevelRanges 1) = some [(1, 5)] := by decide
    obtain ⟨mid', hmid', hranges⟩ := Option.map_eq_some_iff.mp hlevel
    obtain rfl : mid = mid' := Option.some.inj (hmid.symm.trans hmid')
    rw [hranges, List.mem_singleton] at hr
    subst hr
    revert x
    decide
  | _ :: _ :: _ :: _ => simp [sampleNormalDeltas] at hinit

/-- Taking the single key 3 out of `[1, 5)` leaves two ranges that touch. -/
theorem single_key_file_leaves_touching_ranges :
    (∀ d ∈ sampleNormalDeltas (3, 3), d.JobRanges) ∧
      ∃ b : VersionRDFBundle ℕ,
        (sampleNormalDeltas (3, 3)).foldlM (applyDelta fun _ => none) empty = some b ∧
          b.plrdfStringkey.getLevelRanges 1 = [(1, 3), (3, 5)] ∧ ¬ b.plrdfStringkey.AllTight := by
  have hrun : ((sampleNormalDeltas (3, 3)).foldlM (applyDelta fun _ => none) empty).map
      (fun b => b.plrdfStringkey.getLevelRanges 1) = some [(1, 3), (3, 5)] := by decide
  obtain ⟨b, hb, hranges⟩ := Option.map_eq_some_iff.mp hrun
  refine ⟨jobRanges_sampleNormalDeltas (by decide), b, hb, hranges, ?_⟩
  intro htight
  have hgap := (htight.1 1).1
  rw [hranges] at hgap
  revert hgap
  decide

end VersionRDFBundle

end Spry
