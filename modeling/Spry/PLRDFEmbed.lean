import Spry.Bundle
import Spry.Interval.Embed

/-!
# The filter along an order embedding of its keys

A filter over one key type is carried to a filter over another by an order embedding. All
operations commute with this, the exits included.
-/

namespace Spry

open HalfOpen

section Files

variable {K L : Type*} [LinearOrder K] [LinearOrder L] (φ : K ↪o L)

theorem keys_map_snd {A B : ℕ → Type*} (f : ∀ n, A n → B n) (l : List (Sigma A)) :
    (l.map (Sigma.map id f)).keys = l.keys := by
  simp [List.keys, Function.comp_def, Sigma.map]

def embedFiles (m : AList (fun _ : ℕ => List (K × K))) : AList (fun _ : ℕ => List (L × L)) where
  entries := m.entries.map (Sigma.map id fun _ => embed φ)
  nodupKeys := by
    rw [List.NodupKeys, keys_map_snd]
    exact m.nodupKeys

@[simp] theorem embedFiles_empty :
    embedFiles φ (∅ : AList (fun _ : ℕ => List (K × K))) = ∅ := rfl

theorem lookup_embedFiles (m : AList (fun _ : ℕ => List (K × K))) (n : ℕ) :
    (embedFiles φ m).lookup n = (m.lookup n).map (embed φ) :=
  List.dlookup_map₂ n

@[simp] theorem mem_embedFiles {m : AList (fun _ : ℕ => List (K × K))} {n : ℕ} :
    n ∈ embedFiles φ m ↔ n ∈ m := by
  rw [AList.mem_keys, AList.mem_keys, AList.keys, AList.keys, embedFiles, keys_map_snd]

@[simp] theorem erase_embedFiles (m : AList (fun _ : ℕ => List (K × K))) (n : ℕ) :
    (embedFiles φ m).erase n = embedFiles φ (m.erase n) :=
  AList.ext List.eraseP_map

@[simp] theorem insert_embedFiles (m : AList (fun _ : ℕ => List (K × K))) (n : ℕ)
    (rs : List (K × K)) :
    (embedFiles φ m).insert n (embed φ rs) = embedFiles φ (m.insert n rs) := by
  apply AList.ext
  change _ :: List.kerase n _ = List.map _ (_ :: List.kerase n _)
  rw [List.map_cons]
  exact congrArg (List.cons _) List.eraseP_map

end Files

/-- A source level with its boundaries sent through an embedding. -/
def LevelFiles.embed {K L : Type*} [LinearOrder K] [LinearOrder L] (φ : K ↪o L)
    (e : LevelFiles K) : LevelFiles L :=
  ⟨e.clevel, e.olevel, HalfOpen.embed φ e.boundaries, e.files⟩

namespace PLRDF

section Operations

variable {K L : Type*} [LinearOrder K] [LinearOrder L] (φ : K ↪o L)

def embed (f : PLRDF K) : PLRDF L :=
  ⟨embedFiles φ f.rdFilterLevel0, f.rdFilter.map (HalfOpen.embed φ), f.splitKeys.map (List.map φ)⟩

@[simp] theorem embed_empty : embed φ empty = empty := rfl

@[simp] theorem length_rdFilter_embed (f : PLRDF K) :
    (f.embed φ).rdFilter.length = f.rdFilter.length := List.length_map _

@[simp] theorem length_splitKeys_embed (f : PLRDF K) :
    (f.embed φ).splitKeys.length = f.splitKeys.length := List.length_map _

@[simp] theorem getLevelRanges_embed (f : PLRDF K) (level : ℕ) :
    (f.embed φ).getLevelRanges level = HalfOpen.embed φ (f.getLevelRanges level) := by
  simp only [getLevelRanges, embed, List.getD_eq_getElem?_getD, List.getElem?_map]
  cases f.rdFilter[level]? <;> rfl

@[simp] theorem getSplitKeys_embed (f : PLRDF K) (level : ℕ) :
    (f.embed φ).getSplitKeys level = (f.getSplitKeys level).map φ := by
  simp only [getSplitKeys, embed, List.getD_eq_getElem?_getD, List.getElem?_map]
  cases f.splitKeys[level]? <;> rfl

theorem sortAndMerge_embed (rs : List (K × K)) :
    sortAndMerge (HalfOpen.embed φ rs) = HalfOpen.embed φ (sortAndMerge rs) := by
  unfold sortAndMerge
  rw [sortByStart_embed]
  cases sortByStart rs with
  | nil => rfl
  | cons r rs => exact coalesce_embed φ r (r :: rs)

theorem purgeKeyOnLevel_embed (f : PLRDF K) (level : ℕ) (rs : List (K × K)) :
    (f.embed φ).purgeKeyOnLevel level (HalfOpen.embed φ rs) =
      (f.purgeKeyOnLevel level rs).embed φ := by
  unfold purgeKeyOnLevel
  simp only [length_splitKeys_embed, getSplitKeys_embed, List.map_eq_nil_iff, purgeKeys_embed]
  split_ifs
  · rfl
  · simp [embed, List.map_set]

theorem addRangeDelete_embed (rs ss : List (K × K)) :
    addRangeDelete (HalfOpen.embed φ rs) (HalfOpen.embed φ ss) =
      (addRangeDelete rs ss).map (HalfOpen.embed φ) := by
  unfold addRangeDelete
  simp only [embed_eq_nil, startSorted_embed, interleave_embed, coalesceAll_embed]
  split_ifs <;> rfl

theorem growTo_embed (f : PLRDF K) (level : ℕ) :
    (f.embed φ).growTo level = (f.growTo level).embed φ := by
  simp [growTo, embed]

theorem addRangeDeleteInternal_embed (f : PLRDF K) (level : ℕ) (rs : List (K × K)) :
    (f.embed φ).addRangeDeleteInternal level (HalfOpen.embed φ rs) =
      (f.addRangeDeleteInternal level rs).map (embed φ) := by
  unfold addRangeDeleteInternal
  simp only [growTo_embed, purgeKeyOnLevel_embed, getLevelRanges_embed, addRangeDelete_embed,
    Option.map_map]
  congr 1
  funext rdList
  simp [embed, List.map_set]

theorem removeRangeDeletesFromLevel0_embed (f : PLRDF K) (files : List ℕ) :
    (f.embed φ).removeRangeDeletesFromLevel0 files =
      (f.removeRangeDeletesFromLevel0 files).embed φ := by
  have hmap : ∀ m : AList (fun _ : ℕ => List (K × K)),
      files.foldl (fun m n => m.erase n) (embedFiles φ m) =
        embedFiles φ (files.foldl (fun m n => m.erase n) m) := by
    induction files with
    | nil => exact fun _ => rfl
    | cons n files ih =>
      intro m
      rw [List.foldl_cons, List.foldl_cons, erase_embedFiles, ih]
  simp only [removeRangeDeletesFromLevel0, embed, hmap]

theorem cutAtBoundaries_embed (dropEmpty : Bool) (val : K × K) (bs : List (K × K)) :
    cutAtBoundaries dropEmpty (φ val.1, φ val.2) (HalfOpen.embed φ bs) =
      (cutAtBoundaries dropEmpty val bs).map
        (Prod.map (HalfOpen.embed φ) (HalfOpen.embed φ)) := by
  induction bs generalizing val with
  | nil =>
    simp only [embed_nil, cutAtBoundaries, φ.eq_iff_eq]
    split_ifs <;> rfl
  | cons fb bs ih =>
    have hrest := ih (fb.2, val.2)
    simp only [embed_cons, cutAtBoundaries, φ.le_iff_le, φ.lt_iff_lt, φ.eq_iff_eq, ih val]
      at hrest ⊢
    rw [hrest]
    split_ifs
    · rfl
    · rfl
    · rfl
    · rfl
    · rfl
    · rfl
    · simp only [Option.map_map]
      rfl
    · rfl

theorem rangesOutside_embed (dropEmpty : Bool) (rs bs : List (K × K)) :
    rangesOutside dropEmpty (HalfOpen.embed φ rs) (HalfOpen.embed φ bs) =
      (rangesOutside dropEmpty rs bs).map (HalfOpen.embed φ) := by
  induction rs generalizing bs with
  | nil => rfl
  | cons val rs ih =>
    simp only [embed_cons, rangesOutside, cutAtBoundaries_embed]
    cases cutAtBoundaries dropEmpty val bs with
    | none => rfl
    | some p =>
      simp only [Option.map_some, Prod.map_snd, Prod.map_fst, Option.bind_eq_bind,
        Option.bind_some, ih]
      cases rangesOutside dropEmpty rs p.2 with
      | none => rfl
      | some rest => simp

theorem restrictLevel_embed (f : PLRDF K) (level : ℕ) (rs : List (K × K)) :
    (f.embed φ).restrictLevel level (HalfOpen.embed φ rs) = (f.restrictLevel level rs).embed φ := by
  simp only [restrictLevel, getSplitKeys_embed, retainKeys_embed]
  simp only [embed, List.map_set]

theorem removeRangeDeletesAndSplitKeyFromLevel_embed (f : PLRDF K) (level : ℕ)
    (bs : List (K × K)) :
    (f.embed φ).removeRangeDeletesAndSplitKeyFromLevel level (HalfOpen.embed φ bs) =
      (f.removeRangeDeletesAndSplitKeyFromLevel level bs).map (embed φ) := by
  unfold removeRangeDeletesAndSplitKeyFromLevel
  simp only [length_rdFilter_embed, embed_eq_nil, getLevelRanges_embed, rangesOutside_embed]
  split_ifs
  · rfl
  · rw [Option.map_map, Option.map_map]
    congr 1
    funext rs
    exact restrictLevel_embed φ f level rs

theorem insertRangeDeleteToLevel0_embed (f : PLRDF K) (fileNum : ℕ) (rs : List (K × K))
    (exist : List ℕ) :
    (f.embed φ).insertRangeDeleteToLevel0 fileNum (HalfOpen.embed φ rs) exist =
      (f.insertRangeDeleteToLevel0 fileNum rs exist).map (embed φ) := by
  unfold insertRangeDeleteToLevel0
  rw [sortAndMerge_embed]
  split_ifs
  · rfl
  · simp [embed]

theorem shiftSource_embed (f : PLRDF K) (e : LevelFiles K) :
    (f.embed φ).shiftSource (e.embed φ) = (f.shiftSource e).map (embed φ) := by
  unfold shiftSource
  simp only [LevelFiles.embed, sortAndMerge_embed, removeRangeDeletesFromLevel0_embed,
    removeRangeDeletesAndSplitKeyFromLevel_embed]
  split_ifs <;> rfl

theorem foldlM_embed {step : PLRDF K → LevelFiles K → Option (PLRDF K)}
    {step' : PLRDF L → LevelFiles L → Option (PLRDF L)}
    (hstep : ∀ f e, step' (embed φ f) (e.embed φ) = (step f e).map (embed φ)) (f : PLRDF K)
    (entries : List (LevelFiles K)) :
    (entries.map (LevelFiles.embed φ)).foldlM step' (f.embed φ) =
      (entries.foldlM step f).map (embed φ) := by
  induction entries generalizing f with
  | nil => rfl
  | cons e es ih =>
    rw [List.map_cons, List.foldlM_cons, List.foldlM_cons, hstep]
    cases step f e with
    | none => rfl
    | some g => exact ih g

theorem shiftRDFToOutputLevel_embed (f : PLRDF K) (entries : List (LevelFiles K))
    (out : List (K × K)) :
    (f.embed φ).shiftRDFToOutputLevel (entries.map (LevelFiles.embed φ)) (HalfOpen.embed φ out) =
      (f.shiftRDFToOutputLevel entries out).map (embed φ) := by
  cases entries with
  | nil => rfl
  | cons e es =>
    have hsources := foldlM_embed φ (shiftSource_embed φ) f (e :: es)
    rw [List.map_cons] at hsources ⊢
    simp only [shiftRDFToOutputLevel, hsources, embed_eq_nil]
    cases (e :: es).foldlM shiftSource f with
    | none => rfl
    | some g =>
      simp only [Option.map_some, Option.bind_eq_bind, Option.bind_some]
      split_ifs
      · rfl
      · exact addRangeDeleteInternal_embed φ g e.olevel out

theorem foldlM_eraseLevel0OrExit_embed (m : AList (fun _ : ℕ => List (K × K))) (files : List ℕ) :
    files.foldlM eraseLevel0OrExit (embedFiles φ m) =
      (files.foldlM eraseLevel0OrExit m).map (embedFiles φ) := by
  induction files generalizing m with
  | nil => rfl
  | cons n files ih =>
    simp only [List.foldlM_cons, eraseLevel0OrExit, mem_embedFiles, erase_embedFiles]
    split_ifs
    · exact ih (m.erase n)
    · rfl

theorem deleteRDFAssociatedWithFilesAtCurrentLevel_embed (f : PLRDF K) (e : LevelFiles K) :
    (f.embed φ).deleteRDFAssociatedWithFilesAtCurrentLevel (e.embed φ) =
      (f.deleteRDFAssociatedWithFilesAtCurrentLevel e).map (embed φ) := by
  unfold deleteRDFAssociatedWithFilesAtCurrentLevel
  simp only [LevelFiles.embed, length_rdFilter_embed, getLevelRanges_embed, sortAndMerge_embed,
    rangesOutside_embed]
  split_ifs
  · change (e.files.foldlM eraseLevel0OrExit (embedFiles φ f.rdFilterLevel0)).map _ = _
    rw [foldlM_eraseLevel0OrExit_embed, Option.map_map, Option.map_map]
    rfl
  · rfl
  · rw [Option.map_map, Option.map_map]
    congr 1
    funext rs
    exact restrictLevel_embed φ f e.clevel rs

theorem splitRangesOnLevel_embed (f : PLRDF K) (level : ℕ) (keys : List K) :
    (f.embed φ).splitRangesOnLevel level (keys.map φ) =
      (f.splitRangesOnLevel level keys).embed φ := by
  have hkeys := collectKeys_embed φ (unionKeys (f.getSplitKeys level) keys)
    (f.getLevelRanges level) none
  rw [← unionKeys_embed, Option.map_none] at hkeys
  unfold splitRangesOnLevel
  simp only [length_rdFilter_embed, getSplitKeys_embed, getLevelRanges_embed, hkeys]
  split_ifs
  · rfl
  · simp only [embed, List.map_set]

theorem isEntryAlive_embed (f : PLRDF K) (level : ℕ) (key : K) :
    (f.embed φ).isEntryAlive level (φ key) = f.isEntryAlive level key := by
  unfold isEntryAlive
  rw [getLevelRanges_embed, getSplitKeys_embed, map_dropWhile_lt, List.head?_map]
  cases f.getLevelRanges level with
  | nil => rfl
  | cons r rs =>
    have hfound : ((f.getSplitKeys level).dropWhile (fun k => k < key)).head?.map φ =
        some (φ key) ↔
          ((f.getSplitKeys level).dropWhile (fun k => k < key)).head? = some key := by
      rw [← Option.map_some, (Option.map_injective φ.injective).eq_iff]
    simp only [embed_cons, hfound, stepBack_embed, φ.le_iff_le, φ.lt_iff_lt]

end Operations

section Deltas

variable {K L : Type} [LinearOrder K] [LinearOrder L] (φ : K ↪o L)

theorem applyFlush_embed (f : PLRDF K) (d : FlushDelta K) :
    (f.embed φ).applyFlush ⟨d.fileNum, HalfOpen.embed φ d.ranges, d.existLevel0FileNums⟩ =
      (f.applyFlush d).map (embed φ) := by
  unfold applyFlush
  rw [insertRangeDeleteToLevel0_embed]
  split_ifs <;> rfl

theorem applySplitCompaction_embed (f : PLRDF K) (entries : List (LevelFiles K))
    (out : List (K × K)) (flag : Bool) (keys : List K) :
    (f.embed φ).applySplitCompaction (entries.map (LevelFiles.embed φ)) (HalfOpen.embed φ out) flag
        (keys.map φ) =
      (f.applySplitCompaction entries out flag keys).map (embed φ) := by
  cases entries with
  | nil => rfl
  | cons e es =>
    have hshift := shiftRDFToOutputLevel_embed φ f (e :: es) out
    rw [List.map_cons] at hshift ⊢
    simp only [applySplitCompaction, hshift, ne_eq, List.map_eq_nil_iff]
    cases f.shiftRDFToOutputLevel (e :: es) out with
    | none => rfl
    | some g =>
      simp only [Option.map_some, Option.bind_eq_bind, Option.bind_some, Option.pure_def,
        splitRangesOnLevel_embed, LevelFiles.embed]
      split_ifs <;> rfl

end Deltas

end PLRDF

end Spry
