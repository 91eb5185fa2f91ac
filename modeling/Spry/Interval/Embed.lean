import Spry.Interval.Clip
import Spry.Interval.Subtract
import Spry.Interval.Keys

/-!
# Range lists along an order embedding

Every algorithm on range and key lists only compares keys, so it commutes with an embedding of
the keys into another order.
-/

namespace HalfOpen

variable {K L : Type*} [LinearOrder K] [LinearOrder L] (φ : K ↪o L)

def embed (rs : List (K × K)) : List (L × L) := rs.map (Prod.map φ φ)

@[simp] theorem embed_nil : embed φ [] = [] := rfl

@[simp] theorem embed_cons (r : K × K) (rs : List (K × K)) :
    embed φ (r :: rs) = (φ r.1, φ r.2) :: embed φ rs := rfl

@[simp] theorem embed_append (rs ss : List (K × K)) :
    embed φ (rs ++ ss) = embed φ rs ++ embed φ ss := List.map_append

@[simp] theorem embed_eq_nil {rs : List (K × K)} : embed φ rs = [] ↔ rs = [] := List.map_eq_nil_iff

theorem takeWhile_embed (p : L × L → Bool) (rs : List (K × K)) :
    (embed φ rs).takeWhile p = embed φ (rs.takeWhile fun r => p (φ r.1, φ r.2)) :=
  List.takeWhile_map

theorem dropWhile_embed (p : L × L → Bool) (rs : List (K × K)) :
    (embed φ rs).dropWhile p = embed φ (rs.dropWhile fun r => p (φ r.1, φ r.2)) :=
  List.dropWhile_map

theorem map_takeWhile_lt (ks : List K) (k : K) :
    (ks.map φ).takeWhile (fun x => x < φ k) = (ks.takeWhile fun x => x < k).map φ := by
  simp [List.takeWhile_map, Function.comp_def]

theorem map_dropWhile_lt (ks : List K) (k : K) :
    (ks.map φ).dropWhile (fun x => x < φ k) = (ks.dropWhile fun x => x < k).map φ := by
  simp [List.dropWhile_map, Function.comp_def]

theorem startSorted_embed {rs : List (K × K)} : StartSorted (embed φ rs) ↔ StartSorted rs := by
  unfold StartSorted embed
  rw [List.pairwise_map]
  simp

theorem sortByStart_embed (rs : List (K × K)) :
    sortByStart (embed φ rs) = embed φ (sortByStart rs) := by
  refine (List.map_insertionSort _ _ _ _ ?_).symm
  intro a _ b _
  simp

theorem sortPairs_embed (rs : List (K × K)) :
    sortPairs (embed φ rs) = embed φ (sortPairs rs) := by
  refine (List.map_insertionSort _ _ _ _ ?_).symm
  intro a _ b _
  simp

theorem coalesce_embed (cur : K × K) (rs : List (K × K)) :
    coalesce (φ cur.1, φ cur.2) (embed φ rs) = embed φ (coalesce cur rs) := by
  unfold coalesce
  induction rs generalizing cur with
  | nil => rfl
  | cons r rs ih =>
    simp only [embed_cons, coalesceBy, φ.le_iff_le]
    split_ifs
    · rw [← φ.monotone.map_max]
      exact ih (cur.1, max cur.2 r.2)
    · rw [embed_cons, ih r]

theorem coalesceAll_embed (rs : List (K × K)) :
    coalesceAll (embed φ rs) = embed φ (coalesceAll rs) := by
  cases rs with
  | nil => rfl
  | cons r rs => exact coalesce_embed φ r rs

theorem interleave_embed (as bs : List (K × K)) :
    interleave (embed φ as) (embed φ bs) = embed φ (interleave as bs) := by
  induction as generalizing bs with
  | nil => rfl
  | cons a as ih =>
    simp only [embed_cons, interleave, takeWhile_embed, dropWhile_embed, φ.lt_iff_lt, ih,
      embed_append]

theorem clipOne_embed (rs : List (K × K)) (b : K × K) :
    clipOne (embed φ rs) (φ b.1, φ b.2) = embed φ (clipOne rs b) := by
  unfold clipOne
  simp only [takeWhile_embed, φ.lt_iff_lt]
  simp only [embed, List.map_map, Function.comp_def, Prod.map_fst, Prod.map_snd, Prod.map_apply,
    φ.monotone.map_max, φ.monotone.map_min]

theorem clip_embed (rs bs : List (K × K)) :
    clip (embed φ rs) (embed φ bs) = embed φ (clip rs bs) := by
  induction bs generalizing rs with
  | nil => rfl
  | cons b bs ih =>
    simp only [embed_cons, clip, dropWhile_embed, φ.le_iff_le, φ.eq_iff_eq]
    split_ifs
    · exact ih rs
    · rw [ih, embed_append, ← clipOne_embed]

theorem retainKeys_embed (ks : List K) (rs : List (K × K)) :
    retainKeys (ks.map φ) (embed φ rs) = (retainKeys ks rs).map φ := by
  induction ks generalizing rs with
  | nil => rfl
  | cons k ks ih =>
    simp only [List.map_cons, retainKeys, dropWhile_embed, φ.le_iff_le]
    cases rs.dropWhile (fun r => r.1 ≤ k ∧ r.2 ≤ k) with
    | nil => rfl
    | cons r rest =>
      have hrest := ih (r :: rest)
      simp only [embed_cons, φ.lt_iff_lt] at hrest ⊢
      split_ifs
      · exact hrest
      · rw [hrest, List.map_cons]

theorem purgeKeys_embed (ks : List K) (rs : List (K × K)) :
    purgeKeys (ks.map φ) (embed φ rs) = (purgeKeys ks rs).map φ := by
  induction rs generalizing ks with
  | nil =>
    unfold purgeKeys
    rfl
  | cons r rs ih =>
    simp only [embed_cons, purgeKeys, map_takeWhile_lt, map_dropWhile_lt, ih, List.map_append]

theorem unionKeys_embed (ss ks : List K) :
    unionKeys (ss.map φ) (ks.map φ) = (unionKeys ss ks).map φ := by
  induction ss generalizing ks with
  | nil => rfl
  | cons s ss ih =>
    simp only [List.map_cons, unionKeys, map_takeWhile_lt, map_dropWhile_lt, List.map_append]
    congr 2
    rw [← ih]
    congr 1
    cases ks.dropWhile (fun k => k < s) with
    | nil => rfl
    | cons k rest =>
      simp only [List.map_cons, List.head?_cons, Option.some.injEq, φ.eq_iff_eq, List.tail_cons]
      split_ifs <;> rfl

theorem collectKeys_embed (cs : List K) (rs : List (K × K)) (last : Option K) :
    collectKeys (cs.map φ) (embed φ rs) (last.map φ) = (collectKeys cs rs last).map φ := by
  induction cs generalizing rs last with
  | nil => rfl
  | cons c cs ih =>
    simp only [List.map_cons, collectKeys, dropWhile_embed, φ.le_iff_le]
    cases rs.dropWhile (fun r => r.2 ≤ c) with
    | nil => rfl
    | cons r rest =>
      have hrest := ih (r :: rest)
      have hlast : last.map φ = some (φ c) ↔ last = some c := by
        cases last with
        | none => simp
        | some k => simp
      simp only [embed_cons, φ.lt_iff_lt, hlast] at hrest ⊢
      split_ifs
      · exact hrest last
      · exact hrest last
      · rw [List.map_cons, ← hrest (some c)]
        rfl

theorem stepBack_embed (r : K × K) (rs : List (K × K)) (k : K) :
    stepBack (φ r.1, φ r.2) (embed φ rs) (φ k) =
      (φ (stepBack r rs k).1, φ (stepBack r rs k).2) := by
  induction rs generalizing r with
  | nil => rfl
  | cons s rs ih =>
    simp only [embed_cons, stepBack, φ.le_iff_le]
    split_ifs
    · exact ih s
    · rfl

end HalfOpen
