import Spry.PLRDFCoverage

/-!
# As many lists of split keys as levels

Ranges and split keys are kept in two lists by level, which the operations of a bundle grow
together.
-/

namespace Spry.PLRDF

open HalfOpen

def Aligned {K : Type*} (f : PLRDF K) : Prop := f.splitKeys.length = f.rdFilter.length

variable {K : Type*} {f g : PLRDF K}

theorem aligned_empty : (empty : PLRDF K).Aligned := rfl

theorem Aligned.growTo (hf : f.Aligned) (level : ℕ) : (f.growTo level).Aligned := by
  unfold Aligned at hf ⊢
  simp [PLRDF.growTo, hf]

theorem Aligned.foldlM {step : PLRDF K → LevelFiles K → Option (PLRDF K)}
    (hstep : ∀ {f g : PLRDF K} {e : LevelFiles K}, f.Aligned → step f e = some g → g.Aligned)
    (hf : f.Aligned) {entries : List (LevelFiles K)} (h : entries.foldlM step f = some g) :
    g.Aligned := by
  induction entries generalizing f with
  | nil =>
    cases h
    exact hf
  | cons e es ih =>
    obtain ⟨mid, hmid, hrest⟩ := Option.bind_eq_some_iff.mp h
    exact ih (hstep hf hmid) hrest

variable [LinearOrder K]

theorem Aligned.purgeKeyOnLevel (hf : f.Aligned) (level : ℕ) (rs : List (K × K)) :
    (f.purgeKeyOnLevel level rs).Aligned := by
  unfold PLRDF.purgeKeyOnLevel Aligned at *
  split_ifs
  · exact hf
  · simpa using hf

theorem Aligned.addRangeDeleteInternal (hf : f.Aligned) {level : ℕ} {rs : List (K × K)}
    (h : f.addRangeDeleteInternal level rs = some g) : g.Aligned := by
  obtain ⟨rdList, _, rfl⟩ := Option.map_eq_some_iff.mp h
  have hpurged := (hf.growTo level).purgeKeyOnLevel level rs
  unfold Aligned at hpurged ⊢
  simpa using hpurged

theorem Aligned.restrictLevel (hf : f.Aligned) (level : ℕ) (rs : List (K × K)) :
    (f.restrictLevel level rs).Aligned := by
  unfold Aligned at hf ⊢
  simpa [PLRDF.restrictLevel] using hf

theorem Aligned.shiftSource (hf : f.Aligned) {e : LevelFiles K} (h : f.shiftSource e = some g) :
    g.Aligned := by
  unfold PLRDF.shiftSource removeRangeDeletesAndSplitKeyFromLevel at h
  split_ifs at h
  · obtain rfl := Option.some.inj h
    exact hf
  · obtain rfl := Option.some.inj h
    exact hf
  · obtain ⟨rs, _, rfl⟩ := Option.map_eq_some_iff.mp h
    exact hf.restrictLevel e.clevel rs

theorem Aligned.shiftRDFToOutputLevel (hf : f.Aligned) {entries : List (LevelFiles K)}
    {out : List (K × K)} (h : f.shiftRDFToOutputLevel entries out = some g) : g.Aligned := by
  cases entries with
  | nil =>
    cases h
    exact hf
  | cons e es =>
    obtain ⟨mid, hmid, hrest⟩ := Option.bind_eq_some_iff.mp h
    have hmidaligned := hf.foldlM (fun h => h.shiftSource) hmid
    split_ifs at hrest
    · obtain rfl := Option.some.inj hrest
      exact hmidaligned
    · exact hmidaligned.addRangeDeleteInternal hrest

theorem Aligned.deleteRDFAssociatedWithFilesAtCurrentLevel (hf : f.Aligned) {e : LevelFiles K}
    (h : f.deleteRDFAssociatedWithFilesAtCurrentLevel e = some g) : g.Aligned := by
  unfold PLRDF.deleteRDFAssociatedWithFilesAtCurrentLevel at h
  split_ifs at h
  · obtain ⟨m, _, rfl⟩ := Option.map_eq_some_iff.mp h
    exact hf
  · obtain rfl := Option.some.inj h
    exact hf
  · obtain ⟨rs, _, rfl⟩ := Option.map_eq_some_iff.mp h
    exact hf.restrictLevel e.clevel rs

theorem Aligned.splitRangesOnLevel (hf : f.Aligned) (level : ℕ) (keys : List K) :
    (f.splitRangesOnLevel level keys).Aligned := by
  unfold PLRDF.splitRangesOnLevel Aligned at *
  split_ifs
  · exact hf
  · simpa using hf

end Spry.PLRDF
