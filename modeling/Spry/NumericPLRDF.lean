import Spry.BundleSplit
import Spry.Checked
import Spry.Decimal
import Spry.PLRDFEmbed

/-!
# The numeric filter class

The numeric filter is a second copy of the filter template, written out for `long long` keys. Three
of its functions differ from the template: the two lists of levels grow in loops of their own, and
the removal of files compares with `<=` where the template has `<`. Neither changes what the copy
computes. Fed with decimal strings of one length, and with their numbers, the two copies stay
images of each other.
-/

namespace Spry

open HalfOpen

namespace PLRDF

theorem Aligned.applyFlush {K : Type} [LinearOrder K] {f g : PLRDF K} (hf : f.Aligned)
    {d : FlushDelta K} (h : f.applyFlush d = some g) : g.Aligned := by
  unfold PLRDF.applyFlush insertRangeDeleteToLevel0 at h
  split_ifs at h
  · obtain rfl := Option.some.inj h
    exact hf
  · obtain rfl := Option.some.inj h
    exact hf

theorem Aligned.applySplitCompaction {K : Type} [LinearOrder K] {f g : PLRDF K} (hf : f.Aligned)
    {entries : List (LevelFiles K)} {out : List (K × K)} {flag : Bool} {keys : List K}
    (h : f.applySplitCompaction entries out flag keys = some g) : g.Aligned := by
  cases entries with
  | nil =>
    cases h
    exact hf
  | cons e es =>
    obtain ⟨mid, hmid, hsplit⟩ := Option.bind_eq_some_iff.mp h
    have hmidaligned := hf.shiftRDFToOutputLevel hmid
    simp only [Option.pure_def, Option.some.injEq] at hsplit
    rw [← hsplit]
    split_ifs
    · exact hmidaligned.splitRangesOnLevel e.olevel keys
    · exact hmidaligned

end PLRDF

namespace NumericPLRDF

def growTo (f : PLRDF ℤ) (level : ℕ) : PLRDF ℤ :=
  { f with
    rdFilter := f.rdFilter ++ List.replicate (level + 1 - f.rdFilter.length) []
    splitKeys := f.splitKeys ++ List.replicate (level + 1 - f.splitKeys.length) [] }

def addRangeDeleteInternal (f : PLRDF ℤ) (level : ℕ) (ranges : List (ℤ × ℤ)) :
    Option (PLRDF ℤ) :=
  let g := (growTo f level).purgeKeyOnLevel level ranges
  (PLRDF.addRangeDelete (g.getLevelRanges level) ranges).map
    fun rdList => { g with rdFilter := g.rdFilter.set level rdList }

def shiftRDFToOutputLevel (f : PLRDF ℤ) (entries : List (LevelFiles ℤ))
    (outRanges : List (ℤ × ℤ)) : Option (PLRDF ℤ) :=
  match entries with
  | [] => some f
  | e :: es => do
    let g ← (e :: es).foldlM PLRDF.shiftSource f
    if outRanges = [] then return g else addRangeDeleteInternal g e.olevel outRanges

def cutAtBoundaries : ℤ × ℤ → List (ℤ × ℤ) → Option (List (ℤ × ℤ) × List (ℤ × ℤ))
  | val, [] => some ([val], [])
  | val, fb :: bs =>
    if val.2 ≤ fb.1 then some ([val], fb :: bs)
    else if fb.2 ≤ val.1 then cutAtBoundaries val bs
    else if val.1 < fb.1 ∧ fb.1 < val.2 ∧ val.2 ≤ fb.2 then some ([(val.1, fb.1)], fb :: bs)
    else if fb.1 ≤ val.1 ∧ val.2 ≤ fb.2 then some ([], fb :: bs)
    else if fb.1 ≤ val.1 ∧ val.1 ≤ fb.2 ∧ fb.2 < val.2 then cutAtBoundaries (fb.2, val.2) bs
    else if val.1 < fb.1 ∧ fb.2 < val.2 then
      (cutAtBoundaries (fb.2, val.2) bs).map fun p => ((val.1, fb.1) :: p.1, p.2)
    else none

def rangesOutside : List (ℤ × ℤ) → List (ℤ × ℤ) → Option (List (ℤ × ℤ))
  | [], _ => some []
  | val :: rs, bs => do
    let p ← cutAtBoundaries val bs
    let rest ← rangesOutside rs p.2
    return p.1 ++ rest

def deleteRDFAssociatedWithFilesAtCurrentLevel (f : PLRDF ℤ) (e : LevelFiles ℤ) :
    Option (PLRDF ℤ) :=
  if e.clevel = 0 then
    (e.files.foldlM PLRDF.eraseLevel0OrExit f.rdFilterLevel0).map
      fun m => { f with rdFilterLevel0 := m }
  else if f.rdFilter.length ≤ e.clevel then some f
  else
    (rangesOutside (f.getLevelRanges e.clevel) (PLRDF.sortAndMerge e.boundaries)).map
      (f.restrictLevel e.clevel)

/-- A range that starts where the boundary ends was sent on to the next boundary before, so the
wider comparison admits nothing new. -/
theorem cutAtBoundaries_eq (val : ℤ × ℤ) (bs : List (ℤ × ℤ)) :
    cutAtBoundaries val bs = PLRDF.cutAtBoundaries false val bs := by
  induction bs generalizing val with
  | nil => simp [cutAtBoundaries, PLRDF.cutAtBoundaries]
  | cons fb bs ih =>
    unfold cutAtBoundaries PLRDF.cutAtBoundaries
    by_cases hpast : fb.2 ≤ val.1
    · simp [hpast, ih]
    · have hlt : val.1 ≤ fb.2 ↔ val.1 < fb.2 := by omega
      simp [hpast, ih, hlt]

theorem rangesOutside_eq (rs bs : List (ℤ × ℤ)) :
    rangesOutside rs bs = PLRDF.rangesOutside false rs bs := by
  induction rs generalizing bs with
  | nil => rfl
  | cons val rs ih => simp only [rangesOutside, PLRDF.rangesOutside, cutAtBoundaries_eq, ih]

theorem deleteRDFAssociatedWithFilesAtCurrentLevel_eq :
    deleteRDFAssociatedWithFilesAtCurrentLevel =
      PLRDF.deleteRDFAssociatedWithFilesAtCurrentLevel := by
  funext f e
  simp only [deleteRDFAssociatedWithFilesAtCurrentLevel,
    PLRDF.deleteRDFAssociatedWithFilesAtCurrentLevel, rangesOutside_eq]

theorem growTo_eq {f : PLRDF ℤ} (hf : f.Aligned) (level : ℕ) : growTo f level = f.growTo level := by
  unfold PLRDF.Aligned at hf
  simp only [growTo, PLRDF.growTo, hf]

theorem shiftRDFToOutputLevel_eq {f : PLRDF ℤ} (hf : f.Aligned) (entries : List (LevelFiles ℤ))
    (out : List (ℤ × ℤ)) :
    shiftRDFToOutputLevel f entries out = f.shiftRDFToOutputLevel entries out := by
  cases entries with
  | nil => rfl
  | cons e es =>
    simp only [shiftRDFToOutputLevel, PLRDF.shiftRDFToOutputLevel]
    cases hsources : (e :: es).foldlM PLRDF.shiftSource f with
    | none => rfl
    | some g =>
      have hg := hf.foldlM (fun h => h.shiftSource) hsources
      simp only [Option.bind_eq_bind, Option.bind_some, addRangeDeleteInternal,
        PLRDF.addRangeDeleteInternal, growTo_eq hg]

/-- The compaction part of a delta: the output ranges go through `stoll` first. -/
def applySplitCompaction (f : PLRDF ℤ) (entries : List (LevelFiles ℤ))
    (outRanges : List (Bytes × Bytes)) (splitFlag : Bool) (sampledKeys : List ℤ) :
    Option (PLRDF ℤ) :=
  match entries with
  | [] => some f
  | e :: es => do
    let out ← stollRanges Bytes.stoll outRanges
    let g ← shiftRDFToOutputLevel f (e :: es) out
    return if splitFlag ∧ sampledKeys ≠ [] then g.splitRangesOnLevel e.olevel sampledKeys else g

theorem applySplitCompaction_eq {f : PLRDF ℤ} (hf : f.Aligned) (entries : List (LevelFiles ℤ))
    (out : List (Bytes × Bytes)) (flag : Bool) (keys : List ℤ) :
    applySplitCompaction f entries out flag keys =
      PLRDF.applyNumericSplitCompaction Bytes.stoll f entries out flag keys := by
  cases entries with
  | nil => rfl
  | cons e es =>
    simp only [applySplitCompaction, PLRDF.applyNumericSplitCompaction,
      PLRDF.applySplitCompaction, shiftRDFToOutputLevel_eq hf, reduceCtorEq, if_false]

def applyDelta (f : PLRDF ℤ) (d : RDFUpdateMetadata Bytes) : Option (PLRDF ℤ) :=
  match d.type with
  | .kFlush => f.applyFlush d.splitPlrdfFlushDelta
  | .kCompaction | .kCompactionDirectMoved =>
    applySplitCompaction f d.splitPlrdfCompactionDelta d.rangetombstonesOnOutputLevel d.splitFlag
      d.splitSampledKeys
  | .kCompactionDirectRemoved =>
    d.splitPlrdfCompactionDelta.foldlM deleteRDFAssociatedWithFilesAtCurrentLevel f

end NumericPLRDF

namespace PLRDF

def applySplitDelta (f : PLRDF Bytes) (d : RDFUpdateMetadata Bytes) : Option (PLRDF Bytes) :=
  match d.type with
  | .kFlush => f.applyFlush d.splitPlrdfStringkeyFlushDelta
  | .kCompaction | .kCompactionDirectMoved =>
    f.applySplitCompaction d.splitPlrdfStringkeyCompactionDelta d.rangetombstonesOnOutputLevel
      d.splitFlag d.splitSampledKeysStr
  | .kCompactionDirectRemoved =>
    d.splitPlrdfStringkeyCompactionDelta.foldlM deleteRDFAssociatedWithFilesAtCurrentLevel f

end PLRDF

/-- A source level with its boundaries converted to integers. -/
def LevelFiles.stoll (e : LevelFiles Bytes) : Option (LevelFiles ℤ) :=
  (stollRanges Bytes.stoll e.boundaries).map fun bs => ⟨e.clevel, e.olevel, bs, e.files⟩

def DecimalRanges (n : ℕ) (rs : List (Bytes × Bytes)) : Prop :=
  ∀ r ∈ rs, Bytes.IsDecimal n r.1 ∧ Bytes.IsDecimal n r.2

instance (n : ℕ) (rs : List (Bytes × Bytes)) : Decidable (DecimalRanges n rs) :=
  inferInstanceAs (Decidable (∀ r ∈ rs, Bytes.IsDecimal n r.1 ∧ Bytes.IsDecimal n r.2))

/-- A delta that tells both split filters the same: all keys are decimal strings of length `n`, and
what it lists for the numeric filter is what it lists for the other one, converted by `stoll`. -/
structure Mirrored (n : ℕ) (d : RDFUpdateMetadata Bytes) : Prop where
  tombstones : DecimalRanges n d.inputTombstones
  outputs : DecimalRanges n d.outputBoundaries
  flushed : DecimalRanges n d.splitPlrdfStringkeyFlushDelta.ranges
  listed : ∀ e ∈ d.splitPlrdfStringkeyCompactionDelta, DecimalRanges n e.boundaries
  sampled : ∀ k ∈ d.splitSampledKeysStr, Bytes.IsDecimal n k
  fileNum_eq : d.splitPlrdfFlushDelta.fileNum = d.splitPlrdfStringkeyFlushDelta.fileNum
  exist_eq : d.splitPlrdfFlushDelta.existLevel0FileNums =
    d.splitPlrdfStringkeyFlushDelta.existLevel0FileNums
  flushed_eq : stollRanges Bytes.stoll d.splitPlrdfStringkeyFlushDelta.ranges =
    some d.splitPlrdfFlushDelta.ranges
  listed_eq : d.splitPlrdfStringkeyCompactionDelta.mapM LevelFiles.stoll =
    some d.splitPlrdfCompactionDelta
  sampled_eq : d.splitSampledKeysStr.mapM Bytes.stoll = some d.splitSampledKeys

section Lift

open Bytes.Decimal

variable {n : ℕ}

theorem exists_embed_text {rs : List (Bytes × Bytes)} (h : DecimalRanges n rs) :
    ∃ rs', rs = embed (text n) rs' := by
  induction rs with
  | nil => exact ⟨[], rfl⟩
  | cons r rs ih =>
    obtain ⟨rs', rfl⟩ := ih fun s hs => h s (List.mem_cons_of_mem r hs)
    obtain ⟨h₁, h₂⟩ := h r List.mem_cons_self
    exact ⟨(⟨r.1, h₁⟩, ⟨r.2, h₂⟩) :: rs', rfl⟩

theorem exists_map_text {ks : List Bytes} (h : ∀ k ∈ ks, Bytes.IsDecimal n k) :
    ∃ ks' : List (Bytes.Decimal n), ks = ks'.map (text n) := by
  induction ks with
  | nil => exact ⟨[], rfl⟩
  | cons k ks ih =>
    obtain ⟨ks', rfl⟩ := ih fun s hs => h s (List.mem_cons_of_mem k hs)
    exact ⟨⟨k, h k List.mem_cons_self⟩ :: ks', rfl⟩

theorem exists_levelFiles_text {es : List (LevelFiles Bytes)}
    (h : ∀ e ∈ es, DecimalRanges n e.boundaries) :
    ∃ es' : List (LevelFiles (Bytes.Decimal n)), es = es'.map (LevelFiles.embed (text n)) := by
  induction es with
  | nil => exact ⟨[], rfl⟩
  | cons e es ih =>
    obtain ⟨es', rfl⟩ := ih fun s hs => h s (List.mem_cons_of_mem e hs)
    obtain ⟨bs, hbs⟩ := exists_embed_text (h e List.mem_cons_self)
    refine ⟨⟨e.clevel, e.olevel, bs, e.files⟩ :: es', ?_⟩
    rw [List.map_cons, LevelFiles.embed, ← hbs]

theorem mapM_map_eq_some {A B C : Type} {f : A → B} {g : B → Option C} {h : A → C}
    (hg : ∀ a, g (f a) = some (h a)) (l : List A) : (l.map f).mapM g = some (l.map h) := by
  rw [List.mapM_map]
  exact Fallible.mapM_eq_some_map fun a _ => hg a

theorem mapM_stoll_text (ks : List (Bytes.Decimal n)) :
    (ks.map (text n)).mapM Bytes.stoll = some (ks.map (value n)) :=
  mapM_map_eq_some (stoll_text n) ks

theorem stollRanges_embed_text (rs : List (Bytes.Decimal n × Bytes.Decimal n)) :
    stollRanges Bytes.stoll (embed (text n) rs) = some (embed (value n) rs) := by
  apply mapM_map_eq_some
  intro r
  simp [stoll_text, Prod.map]

theorem mapM_stoll_levelFiles (es : List (LevelFiles (Bytes.Decimal n))) :
    (es.map (LevelFiles.embed (text n))).mapM LevelFiles.stoll =
      some (es.map (LevelFiles.embed (value n))) := by
  apply mapM_map_eq_some
  intro e
  simp [LevelFiles.stoll, LevelFiles.embed, stollRanges_embed_text]

theorem Mirrored.exists_outRanges {d : RDFUpdateMetadata Bytes} (hd : Mirrored n d) :
    ∃ out, d.rangetombstonesOnOutputLevel = embed (text n) out := by
  obtain ⟨tombstones, htombstones⟩ := exists_embed_text hd.tombstones
  obtain ⟨outputs, houtputs⟩ := exists_embed_text hd.outputs
  refine ⟨clip (coalesceAll (sortPairs tombstones)) outputs, ?_⟩
  rw [d.rangetombstonesOnOutputLevel_eq, htombstones, houtputs, sortPairs_embed, coalesceAll_embed,
    clip_embed]

def Images (n : ℕ) (fs : Option (PLRDF Bytes)) (fn : Option (PLRDF ℤ)) : Prop :=
  ∃ F : Option (PLRDF (Bytes.Decimal n)), fs = F.map (PLRDF.embed (text n)) ∧
    fn = F.map (PLRDF.embed (value n)) ∧ ∀ f ∈ F, f.Aligned

section Mirrored

variable {d : RDFUpdateMetadata Bytes} (hd : Mirrored n d) {f : PLRDF (Bytes.Decimal n)}
  (hf : f.Aligned)
include hd

theorem Mirrored.exists_levelFiles : ∃ entries : List (LevelFiles (Bytes.Decimal n)),
    d.splitPlrdfStringkeyCompactionDelta = entries.map (LevelFiles.embed (text n)) ∧
      d.splitPlrdfCompactionDelta = entries.map (LevelFiles.embed (value n)) := by
  obtain ⟨entries, hentries⟩ := exists_levelFiles_text hd.listed
  have hlisted := hd.listed_eq
  rw [hentries, mapM_stoll_levelFiles] at hlisted
  exact ⟨entries, hentries, (Option.some.inj hlisted).symm⟩

theorem Mirrored.exists_sampledKeys : ∃ keys : List (Bytes.Decimal n),
    d.splitSampledKeysStr = keys.map (text n) ∧ d.splitSampledKeys = keys.map (value n) := by
  obtain ⟨keys, hkeys⟩ := exists_map_text hd.sampled
  have hsampled := hd.sampled_eq
  rw [hkeys, mapM_stoll_text] at hsampled
  exact ⟨keys, hkeys, (Option.some.inj hsampled).symm⟩

include hf

theorem Mirrored.images_applySplitCompaction : Images n
    ((f.embed (text n)).applySplitCompaction d.splitPlrdfStringkeyCompactionDelta
      d.rangetombstonesOnOutputLevel d.splitFlag d.splitSampledKeysStr)
    (NumericPLRDF.applySplitCompaction (f.embed (value n)) d.splitPlrdfCompactionDelta
      d.rangetombstonesOnOutputLevel d.splitFlag d.splitSampledKeys) := by
  have hvalue : (f.embed (value n)).Aligned := by
    unfold PLRDF.Aligned at hf ⊢
    simpa using hf
  obtain ⟨entries, hentries, hnumeric⟩ := hd.exists_levelFiles
  obtain ⟨out, hout⟩ := hd.exists_outRanges
  obtain ⟨keys, hkeys, hsampled⟩ := hd.exists_sampledKeys
  refine ⟨f.applySplitCompaction entries out d.splitFlag keys, ?_, ?_,
    fun g hg => hf.applySplitCompaction hg⟩
  · rw [hentries, hout, hkeys, PLRDF.applySplitCompaction_embed]
  · rw [NumericPLRDF.applySplitCompaction_eq hvalue, hnumeric, hout, hsampled,
      ← PLRDF.applySplitCompaction_embed, PLRDF.applyNumericSplitCompaction,
      stollRanges_embed_text]
    cases entries with
    | nil => rfl
    | cons e es => rfl

theorem Mirrored.images_applyFlush : Images n
    ((f.embed (text n)).applyFlush d.splitPlrdfStringkeyFlushDelta)
    ((f.embed (value n)).applyFlush d.splitPlrdfFlushDelta) := by
  obtain ⟨ranges, hranges⟩ := exists_embed_text hd.flushed
  have hflushed := hd.flushed_eq
  rw [hranges, stollRanges_embed_text] at hflushed
  have hstring : d.splitPlrdfStringkeyFlushDelta =
      ⟨d.splitPlrdfStringkeyFlushDelta.fileNum, embed (text n) ranges,
        d.splitPlrdfStringkeyFlushDelta.existLevel0FileNums⟩ := by
    rw [← hranges]
  have hnumber : d.splitPlrdfFlushDelta =
      ⟨d.splitPlrdfStringkeyFlushDelta.fileNum, embed (value n) ranges,
        d.splitPlrdfStringkeyFlushDelta.existLevel0FileNums⟩ := by
    rw [Option.some.inj hflushed, ← hd.fileNum_eq, ← hd.exist_eq]
  refine ⟨f.applyFlush ⟨d.splitPlrdfStringkeyFlushDelta.fileNum, ranges,
    d.splitPlrdfStringkeyFlushDelta.existLevel0FileNums⟩, ?_, ?_, fun g hg => hf.applyFlush hg⟩
  · rw [hstring]
    exact PLRDF.applyFlush_embed (text n) f ⟨_, ranges, _⟩
  · rw [hnumber]
    exact PLRDF.applyFlush_embed (value n) f ⟨_, ranges, _⟩

/-- One mirrored delta keeps the two split filters images of one filter, and makes both exit or
neither. -/
theorem Mirrored.images_applyDelta :
    Images n ((f.embed (text n)).applySplitDelta d)
      (NumericPLRDF.applyDelta (f.embed (value n)) d) := by
  unfold PLRDF.applySplitDelta NumericPLRDF.applyDelta
  cases d.type with
  | kFlush => exact hd.images_applyFlush hf
  | kCompaction => exact hd.images_applySplitCompaction hf
  | kCompactionDirectMoved => exact hd.images_applySplitCompaction hf
  | kCompactionDirectRemoved =>
    obtain ⟨entries, hentries, hnumeric⟩ := hd.exists_levelFiles
    refine ⟨entries.foldlM PLRDF.deleteRDFAssociatedWithFilesAtCurrentLevel f, ?_, ?_,
      fun g hg => hf.foldlM (fun h => h.deleteRDFAssociatedWithFilesAtCurrentLevel) hg⟩
    · simp only [hentries]
      exact PLRDF.foldlM_embed (text n)
        (PLRDF.deleteRDFAssociatedWithFilesAtCurrentLevel_embed (text n)) f entries
    · simp only [hnumeric, NumericPLRDF.deleteRDFAssociatedWithFilesAtCurrentLevel_eq]
      exact PLRDF.foldlM_embed (value n)
        (PLRDF.deleteRDFAssociatedWithFilesAtCurrentLevel_embed (value n)) f entries

end Mirrored

theorem images_foldlM_applyDelta {deltas : List (RDFUpdateMetadata Bytes)}
    (hd : ∀ d ∈ deltas, Mirrored n d) {f : PLRDF (Bytes.Decimal n)} (hf : f.Aligned) :
    Images n (deltas.foldlM PLRDF.applySplitDelta (f.embed (text n)))
      (deltas.foldlM NumericPLRDF.applyDelta (f.embed (value n))) := by
  induction deltas generalizing f with
  | nil =>
    refine ⟨some f, rfl, rfl, ?_⟩
    rintro g ⟨⟩
    exact hf
  | cons d deltas ih =>
    obtain ⟨F, hstring, hnumeric, haligned⟩ := (hd d List.mem_cons_self).images_applyDelta hf
    rw [List.foldlM_cons, List.foldlM_cons, hstring, hnumeric]
    cases F with
    | none => exact ⟨none, rfl, rfl, by rintro g ⟨⟩⟩
    | some g => exact ih (fun d' hd' => hd d' (List.mem_cons_of_mem d hd')) (haligned g rfl)

end Lift

namespace VersionRDFBundle

variable {b b' : VersionRDFBundle Bytes} {d : RDFUpdateMetadata Bytes}

theorem splitFilters_applyDelta (hb : b.splitPlrdf.Aligned)
    (h : b.applyDelta Bytes.stoll d = some b') :
    b.splitPlrdfStringkey.applySplitDelta d = some b'.splitPlrdfStringkey ∧
      NumericPLRDF.applyDelta b.splitPlrdf d = some b'.splitPlrdf ∧ b'.splitPlrdf.Aligned := by
  have hcompaction : b.applyCompactionDelta Bytes.stoll d = some b' →
      NumericPLRDF.applySplitCompaction b.splitPlrdf d.splitPlrdfCompactionDelta
        d.rangetombstonesOnOutputLevel d.splitFlag d.splitSampledKeys = some b'.splitPlrdf ∧
      b'.splitPlrdf.Aligned := by
    intro h
    have hnumeric := (compactionParts h).splitPlrdf
    rw [NumericPLRDF.applySplitCompaction_eq hb]
    refine ⟨hnumeric, ?_⟩
    unfold PLRDF.applyNumericSplitCompaction at hnumeric
    split_ifs at hnumeric
    · rw [← Option.some.inj hnumeric]
      exact hb
    · obtain ⟨out, _, hsplit⟩ := Option.bind_eq_some_iff.mp hnumeric
      exact hb.applySplitCompaction hsplit
  unfold applyDelta at h
  unfold PLRDF.applySplitDelta NumericPLRDF.applyDelta
  cases htype : d.type with
  | kFlush =>
    rw [htype] at h
    have hnumeric := (flushParts h).splitPlrdf
    exact ⟨(flushParts h).splitPlrdfStringkey, hnumeric, hb.applyFlush hnumeric⟩
  | kCompaction | kCompactionDirectMoved =>
    rw [htype] at h
    exact ⟨(compactionParts h).splitPlrdfStringkey, hcompaction h⟩
  | kCompactionDirectRemoved =>
    rw [htype] at h
    have hnumeric := (removalParts h).splitPlrdf
    rw [← NumericPLRDF.deleteRDFAssociatedWithFilesAtCurrentLevel_eq] at hnumeric
    refine ⟨(removalParts h).splitPlrdfStringkey, hnumeric, ?_⟩
    rw [NumericPLRDF.deleteRDFAssociatedWithFilesAtCurrentLevel_eq] at hnumeric
    exact hb.foldlM (fun h => h.deleteRDFAssociatedWithFilesAtCurrentLevel) hnumeric

theorem splitFilters_foldlM_applyDelta {deltas : List (RDFUpdateMetadata Bytes)}
    (hb : b.splitPlrdf.Aligned) (h : deltas.foldlM (applyDelta Bytes.stoll) b = some b') :
    deltas.foldlM PLRDF.applySplitDelta b.splitPlrdfStringkey = some b'.splitPlrdfStringkey ∧
      deltas.foldlM NumericPLRDF.applyDelta b.splitPlrdf = some b'.splitPlrdf := by
  induction deltas generalizing b with
  | nil =>
    cases h
    exact ⟨rfl, rfl⟩
  | cons d deltas ih =>
    obtain ⟨mid, hmid, hrest⟩ := Option.bind_eq_some_iff.mp h
    obtain ⟨hstring, hnumeric, haligned⟩ := splitFilters_applyDelta hb hmid
    rw [List.foldlM_cons, List.foldlM_cons, hstring, hnumeric]
    exact ih haligned hrest

/-- In every run of mirrored deltas the numeric split filter is the image under `stoll` of the one
over string keys: the levels, the split keys and the level-0 map, and so the verdict on every key.
Both copies exit or neither does. -/
theorem splitPlrdf_stoll_image {n : ℕ} {deltas : List (RDFUpdateMetadata Bytes)}
    (hd : ∀ d ∈ deltas, Mirrored n d) :
    (deltas.foldlM NumericPLRDF.applyDelta PLRDF.empty = none ↔
      deltas.foldlM PLRDF.applySplitDelta PLRDF.empty = none) ∧
    (∀ fs fn, deltas.foldlM PLRDF.applySplitDelta PLRDF.empty = some fs →
      deltas.foldlM NumericPLRDF.applyDelta PLRDF.empty = some fn →
      fs.rdFilter.mapM (stollRanges Bytes.stoll) = some fn.rdFilter ∧
      fs.splitKeys.mapM (fun ks => ks.mapM Bytes.stoll) = some fn.splitKeys ∧
      (∀ file, (fs.rdFilterLevel0.lookup file).map (stollRanges Bytes.stoll) =
        (fn.rdFilterLevel0.lookup file).map some) ∧
      ∀ level key, Bytes.IsDecimal n key →
        ∃ v, Bytes.stoll key = some v ∧ fn.isEntryAlive level v = fs.isEntryAlive level key) ∧
    ∀ b, deltas.foldlM (applyDelta Bytes.stoll) empty = some b →
      deltas.foldlM PLRDF.applySplitDelta PLRDF.empty = some b.splitPlrdfStringkey ∧
      deltas.foldlM NumericPLRDF.applyDelta PLRDF.empty = some b.splitPlrdf := by
  obtain ⟨F, hstring, hnumeric, _⟩ :=
    images_foldlM_applyDelta hd
      (PLRDF.aligned_empty : (PLRDF.empty : PLRDF (Bytes.Decimal n)).Aligned)
  rw [PLRDF.embed_empty] at hstring hnumeric
  refine ⟨?_, ?_, fun b hb => splitFilters_foldlM_applyDelta PLRDF.aligned_empty hb⟩
  · rw [hstring, hnumeric, Option.map_eq_none_iff, Option.map_eq_none_iff]
  · intro fs fn hfs hfn
    rw [hstring] at hfs
    rw [hnumeric] at hfn
    obtain ⟨f, rfl, rfl⟩ := Option.map_eq_some_iff.mp hfs
    obtain rfl := Option.some.inj hfn
    refine ⟨mapM_map_eq_some stollRanges_embed_text f.rdFilter,
      mapM_map_eq_some mapM_stoll_text f.splitKeys, ?_, ?_⟩
    · intro file
      change ((embedFiles (Bytes.Decimal.text n) f.rdFilterLevel0).lookup file).map _ =
        ((embedFiles (Bytes.Decimal.value n) f.rdFilterLevel0).lookup file).map _
      rw [lookup_embedFiles, lookup_embedFiles, Option.map_map, Option.map_map]
      congr 1
      funext rs
      exact stollRanges_embed_text rs
    · intro level key hkey
      refine ⟨_, Bytes.Decimal.stoll_text n ⟨key, hkey⟩, ?_⟩
      rw [PLRDF.isEntryAlive_embed]
      exact (PLRDF.isEntryAlive_embed (Bytes.Decimal.text n) f level ⟨key, hkey⟩).symm

/-- A file with a tombstone over `[02, 09)` is flushed. -/
def decimalFlush : RDFUpdateMetadata Bytes :=
  { type := .kFlush
    splitPlrdfStringkeyFlushDelta := ⟨5, [([48, 50], [48, 57])], []⟩
    splitPlrdfFlushDelta := ⟨5, [(2, 9)], []⟩ }

/-- It is compacted into level 1, with `04` sampled. -/
def decimalCompaction : RDFUpdateMetadata Bytes :=
  { type := .kCompaction
    splitFlag := true
    splitPlrdfStringkeyCompactionDelta := [⟨0, 1, [([48, 50], [48, 57])], [5]⟩]
    splitPlrdfCompactionDelta := [⟨0, 1, [(2, 9)], [5]⟩]
    splitSampledKeysStr := [[48, 52]]
    splitSampledKeys := [4]
    fdRangetombstonesInfo := some
      ⟨[⟨0, [5], [([48, 50], [48, 57])]⟩], 1, [⟨6, ([48, 48], [57, 57])⟩]⟩ }

theorem mirrored_decimals : ∀ d ∈ [decimalFlush, decimalCompaction], Mirrored 2 d := by
  intro d hd
  rcases List.mem_pair.mp hd with rfl | rfl
  · exact ⟨by decide, by decide, by decide +kernel, by decide, by decide, rfl, rfl, rfl, rfl, rfl⟩
  · exact ⟨by decide +kernel, by decide +kernel, by decide, by decide +kernel, by decide +kernel,
      rfl, rfl, rfl, rfl, rfl⟩

theorem splitPlrdf_stoll_image_decimals : ∃ fs fn,
    [decimalFlush, decimalCompaction].foldlM PLRDF.applySplitDelta PLRDF.empty = some fs ∧
      [decimalFlush, decimalCompaction].foldlM NumericPLRDF.applyDelta PLRDF.empty = some fn ∧
      fs.rdFilter = [[], [([48, 50], [48, 57])]] ∧
      fs.rdFilter.mapM (stollRanges Bytes.stoll) = some fn.rdFilter ∧
      fs.splitKeys.mapM (fun ks => ks.mapM Bytes.stoll) = some fn.splitKeys := by
  obtain ⟨hexit, himage, _⟩ := splitPlrdf_stoll_image mirrored_decimals
  have hrun : ([decimalFlush, decimalCompaction].foldlM PLRDF.applySplitDelta PLRDF.empty).map
      (fun fs => fs.rdFilter) = some [[], [([48, 50], [48, 57])]] := by decide
  obtain ⟨fs, hfs, hlevels⟩ := Option.map_eq_some_iff.mp hrun
  have hnumeric : [decimalFlush, decimalCompaction].foldlM NumericPLRDF.applyDelta PLRDF.empty ≠
      none := by
    rw [Ne, hexit, hfs]
    exact Option.some_ne_none fs
  obtain ⟨fn, hfn⟩ := Option.ne_none_iff_exists'.mp hnumeric
  obtain ⟨hranges, hkeys, _⟩ := himage fs fn hfs hfn
  exact ⟨fs, fn, hfs, hfn, hlevels, hranges, hkeys⟩

end VersionRDFBundle

end Spry
