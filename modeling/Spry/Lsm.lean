import Mathlib.Order.Lattice
import Mathlib.Order.Interval.Set.Defs
import Mathlib.Data.List.Pairwise
import Mathlib.Data.Set.Basic

/-!
# Versions of the tree and the files a read visits

A version is a list of levels of table files, level 0 with its newest file first. A read of a key
visits the files whose boundaries contain the key, level by level. Sequence numbers are positive
for range tombstones, so that the largest covering one tells whether there is any.
-/

namespace Spry

inductive ValueType
  | kTypeValue
  | kTypeBlobIndex
  | kTypeWideColumnEntity
  | kTypeDeletion
  | kTypeSingleDeletion
  | kTypeMerge
  deriving DecidableEq, Repr

structure PointEntry (K V : Type) where
  key : K
  seq : ℕ
  type : ValueType
  value : V
  deriving DecidableEq

/-- The half-open range `[start, stop)` is deleted as of `seq`. -/
structure RangeTombstone (K : Type) where
  start : K
  stop : K
  seq : ℕ
  seq_pos : 0 < seq

variable {K V : Type} [LinearOrder K]

def RangeTombstone.Covers (t : RangeTombstone K) (k : K) : Prop := t.start ≤ k ∧ k < t.stop

instance (t : RangeTombstone K) (k : K) : Decidable (t.Covers k) :=
  inferInstanceAs (Decidable (_ ∧ _))

/-- A table file: point entries by ascending key and, for one key, descending sequence number,
and its range tombstones as truncated to its boundaries. -/
structure SstFile (K V : Type) [LinearOrder K] where
  number : ℕ
  smallest : K
  largest : K
  points : List (PointEntry K V)
  tombstones : List (RangeTombstone K)
  sorted : points.Pairwise (fun a b => a.key < b.key ∨ (a.key = b.key ∧ b.seq < a.seq))
  points_within : ∀ p ∈ points, smallest ≤ p.key ∧ p.key ≤ largest
  tombstones_within : ∀ t ∈ tombstones, smallest ≤ t.start ∧ t.stop ≤ largest

namespace SstFile

def Overlaps (f : SstFile K V) (k : K) : Prop := f.smallest ≤ k ∧ k ≤ f.largest

instance (f : SstFile K V) (k : K) : Decidable (f.Overlaps k) :=
  inferInstanceAs (Decidable (_ ∧ _))

def visible (f : SstFile K V) (k : K) (snapshot : ℕ) : List (PointEntry K V) :=
  f.points.filter (fun p => p.key = k ∧ p.seq ≤ snapshot)

def maxCoveringTombstoneSeqnum (f : SstFile K V) (k : K) (snapshot : ℕ) : ℕ :=
  ((f.tombstones.filter (fun t => t.Covers k ∧ t.seq ≤ snapshot)).map
    (fun t => t.seq)).foldr max 0

def Holds (f : SstFile K V) (k : K) (seq : ℕ) : Prop :=
  (∃ p ∈ f.points, p.key = k ∧ p.seq = seq) ∨ (∃ t ∈ f.tombstones, t.Covers k ∧ t.seq = seq)

def NewerFor (k : K) (f g : SstFile K V) : Prop :=
  ∀ a b, f.Holds k a → g.Holds k b → b < a

theorem mem_visible {f : SstFile K V} {k : K} {snapshot : ℕ} {p : PointEntry K V} :
    p ∈ f.visible k snapshot ↔ p ∈ f.points ∧ p.key = k ∧ p.seq ≤ snapshot := by
  simp [visible]

theorem holds_of_mem_visible {f : SstFile K V} {k : K} {snapshot : ℕ} {p : PointEntry K V}
    (h : p ∈ f.visible k snapshot) : f.Holds k p.seq := by
  obtain ⟨hpoint, hkey, _⟩ := mem_visible.mp h
  exact Or.inl ⟨p, hpoint, hkey, rfl⟩

theorem overlaps_of_holds {f : SstFile K V} {k : K} {seq : ℕ} (h : f.Holds k seq) :
    f.Overlaps k := by
  cases h with
  | inl h =>
    obtain ⟨p, hp, rfl, _⟩ := h
    exact f.points_within p hp
  | inr h =>
    obtain ⟨t, ht, hcov, _⟩ := h
    obtain ⟨hlo, hhi⟩ := f.tombstones_within t ht
    exact ⟨hlo.trans hcov.1, hcov.2.le.trans hhi⟩

theorem visible_descending (f : SstFile K V) (k : K) (snapshot : ℕ) :
    (f.visible k snapshot).Pairwise (fun a b => b.seq < a.seq) := by
  refine (f.sorted.filter _).imp_of_mem ?_
  intro a b ha hb hab
  obtain ⟨_, hak, _⟩ := mem_visible.mp ha
  obtain ⟨_, hbk, _⟩ := mem_visible.mp hb
  cases hab with
  | inl hlt => exact absurd (hak.trans hbk.symm) hlt.ne
  | inr heq => exact heq.2

theorem visible_eq_cons {f : SstFile K V} {k : K} {snapshot : ℕ} {e : PointEntry K V}
    (he : e ∈ f.visible k snapshot)
    (hnewest : ∀ e' ∈ f.visible k snapshot, e'.seq ≤ e.seq) :
    ∃ es, f.visible k snapshot = e :: es := by
  have hdesc := f.visible_descending k snapshot
  cases hvis : f.visible k snapshot with
  | nil => rw [hvis] at he; cases he
  | cons e' es =>
    rw [hvis] at he hnewest hdesc
    cases List.mem_cons.mp he with
    | inl heq => exact ⟨es, by rw [heq]⟩
    | inr hmem =>
      have hlt := (List.pairwise_cons.mp hdesc).1 e hmem
      have hle := hnewest e' List.mem_cons_self
      omega

theorem le_foldr_max {ns : List ℕ} {n : ℕ} (hn : n ∈ ns) : n ≤ ns.foldr max 0 := by
  induction ns with
  | nil => cases hn
  | cons m ns ih =>
    simp only [List.foldr_cons]
    cases List.mem_cons.mp hn with
    | inl h => omega
    | inr h =>
      have := ih h
      omega

theorem foldr_max_mem {ns : List ℕ} (h : 0 < ns.foldr max 0) : ns.foldr max 0 ∈ ns := by
  induction ns with
  | nil => exact absurd h (by simp)
  | cons m ns ih =>
    simp only [List.foldr_cons] at h ⊢
    by_cases hle : ns.foldr max 0 ≤ m
    · rw [max_eq_left hle]
      exact List.mem_cons_self
    · rw [max_eq_right (by omega)]
      exact List.mem_cons_of_mem m (ih (by omega))

theorem seq_le_maxCovering {f : SstFile K V} {k : K} {snapshot : ℕ} {t : RangeTombstone K}
    (ht : t ∈ f.tombstones) (hcov : t.Covers k) (hseq : t.seq ≤ snapshot) :
    t.seq ≤ f.maxCoveringTombstoneSeqnum k snapshot := by
  apply le_foldr_max
  apply List.mem_map_of_mem
  simp [ht, hcov, hseq]

theorem exists_of_maxCovering_pos {f : SstFile K V} {k : K} {snapshot : ℕ}
    (h : 0 < f.maxCoveringTombstoneSeqnum k snapshot) :
    ∃ t ∈ f.tombstones, t.Covers k ∧ t.seq ≤ snapshot ∧
      t.seq = f.maxCoveringTombstoneSeqnum k snapshot := by
  obtain ⟨t, ht, hseq⟩ := List.mem_map.mp (foldr_max_mem h)
  simp only [List.mem_filter, decide_eq_true_eq] at ht
  exact ⟨t, ht.1, ht.2.1, ht.2.2, hseq⟩

theorem maxCovering_le {f : SstFile K V} {k : K} {snapshot seq : ℕ}
    (h : ∀ t ∈ f.tombstones, t.Covers k → t.seq ≤ seq) :
    f.maxCoveringTombstoneSeqnum k snapshot ≤ seq := by
  by_contra hlt
  obtain ⟨t, ht, hcov, _, heq⟩ :=
    exists_of_maxCovering_pos (Nat.zero_lt_of_lt (not_le.mp hlt))
  have := h t ht hcov
  omega

theorem maxCovering_eq_zero {f : SstFile K V} {k : K} {snapshot : ℕ}
    (h : ∀ t ∈ f.tombstones, t.Covers k → snapshot < t.seq) :
    f.maxCoveringTombstoneSeqnum k snapshot = 0 := by
  by_contra hne
  obtain ⟨t, ht, hcov, hle, _⟩ := exists_of_maxCovering_pos (Nat.pos_of_ne_zero hne)
  have := h t ht hcov
  omega

end SstFile

structure Version (K V : Type) [LinearOrder K] where
  levels : List (List (SstFile K V))

namespace Version

def files (v : Version K V) (level : ℕ) : List (SstFile K V) := v.levels.getD level []

def pickFrom (k : K) : ℕ → List (List (SstFile K V)) → List (ℕ × SstFile K V)
  | _, [] => []
  | level, fs :: rest =>
    (fs.filter (fun f => f.Overlaps k)).map (fun f => (level, f)) ++ pickFrom k (level + 1) rest

def picks (v : Version K V) (k : K) : List (ℕ × SstFile K V) := pickFrom k 0 v.levels

theorem mem_pickFrom {k : K} {level : ℕ} {ls : List (List (SstFile K V))}
    {p : ℕ × SstFile K V} :
    p ∈ pickFrom k level ls ↔
      level ≤ p.1 ∧ p.2 ∈ ls.getD (p.1 - level) [] ∧ p.2.Overlaps k := by
  induction ls generalizing level with
  | nil => simp [pickFrom]
  | cons fs ls ih =>
    obtain ⟨l, f⟩ := p
    simp only [pickFrom, List.mem_append, ih, List.mem_map, List.mem_filter, Prod.mk.injEq,
      decide_eq_true_eq]
    constructor
    · intro h
      cases h with
      | inl h =>
        obtain ⟨g, ⟨hg, hov⟩, rfl, rfl⟩ := h
        simpa using ⟨hg, hov⟩
      | inr h =>
        obtain ⟨hle, hmem, hov⟩ := h
        have hsub : l - level = (l - (level + 1)) + 1 := by omega
        exact ⟨by omega, by simpa [hsub] using hmem, hov⟩
    · intro h
      obtain ⟨hle, hmem, hov⟩ := h
      by_cases heq : l = level
      · subst heq
        exact Or.inl ⟨f, ⟨by simpa using hmem, hov⟩, rfl, rfl⟩
      · have hsub : l - level = (l - (level + 1)) + 1 := by omega
        exact Or.inr ⟨by omega, by simpa [hsub] using hmem, hov⟩

theorem pickFrom_sorted (k : K) (level : ℕ) (ls : List (List (SstFile K V))) :
    (pickFrom k level ls).Pairwise (fun p q => p.1 ≤ q.1) := by
  induction ls generalizing level with
  | nil => exact List.Pairwise.nil
  | cons fs ls ih =>
    refine List.pairwise_append.mpr ⟨?_, ih (level + 1), ?_⟩
    · exact List.pairwise_map.mpr (List.pairwise_of_forall (fun _ _ => le_rfl))
    · intro p hp q hq
      obtain ⟨f, _, rfl⟩ := List.mem_map.mp hp
      have := (mem_pickFrom.mp hq).1
      omega

theorem picks_sorted (v : Version K V) (k : K) :
    (v.picks k).Pairwise (fun p q => p.1 ≤ q.1) := pickFrom_sorted k 0 v.levels

theorem mem_picks {v : Version K V} {k : K} {p : ℕ × SstFile K V} :
    p ∈ v.picks k ↔ p.2 ∈ v.files p.1 ∧ p.2.Overlaps k := by
  simp [picks, mem_pickFrom, files]

/-- For one key, shallower levels and newer level-0 files hold newer entries and tombstones, and
a deeper level has at most one file around the key. -/
structure NewestFirst (v : Version K V) (k : K) : Prop where
  levels : ∀ i j, i < j → ∀ f ∈ v.files i, ∀ g ∈ v.files j, SstFile.NewerFor k f g
  level0 : (v.files 0).Pairwise (SstFile.NewerFor k)
  single : ∀ level, 1 ≤ level → ((v.files level).filter (fun f => f.Overlaps k)).length ≤ 1

theorem pickFrom_newest {k : K} (level : ℕ) {ls : List (List (SstFile K V))}
    (hlevels : ∀ i j, i < j → ∀ f ∈ ls.getD i [], ∀ g ∈ ls.getD j [], SstFile.NewerFor k f g)
    (hlevel : ∀ i, ((ls.getD i []).filter (fun f => f.Overlaps k)).Pairwise
      (SstFile.NewerFor k)) :
    (pickFrom k level ls).Pairwise (fun p q => SstFile.NewerFor k p.2 q.2) := by
  induction ls generalizing level with
  | nil => exact List.Pairwise.nil
  | cons fs ls ih =>
    refine List.pairwise_append.mpr ⟨?_, ?_, ?_⟩
    · exact List.pairwise_map.mpr (hlevel 0)
    · apply ih (level + 1)
      · intro i j hij
        exact hlevels (i + 1) (j + 1) (by omega)
      · intro i
        exact hlevel (i + 1)
    · intro p hp q hq
      obtain ⟨f, hf, rfl⟩ := List.mem_map.mp hp
      obtain ⟨hle, hmem, _⟩ := mem_pickFrom.mp hq
      exact hlevels 0 (q.1 - (level + 1) + 1) (by omega) f (List.mem_filter.mp hf).1 q.2 hmem

theorem NewestFirst.picks {v : Version K V} {k : K} (h : v.NewestFirst k) :
    (v.picks k).Pairwise (fun p q => SstFile.NewerFor k p.2 q.2) := by
  apply pickFrom_newest 0 h.levels
  intro level
  cases level with
  | zero => exact h.level0.filter _
  | succ level =>
    have hlen := h.single (level + 1) (by omega)
    unfold files at hlen
    cases hfiles : (v.levels.getD (level + 1) []).filter (fun f => f.Overlaps k) with
    | nil => exact List.Pairwise.nil
    | cons f fs =>
      rw [hfiles, List.length_cons] at hlen
      rw [List.length_eq_zero_iff.mp (by omega : fs.length = 0)]
      exact List.pairwise_singleton _ _

def tower (level0 deeper : List (SstFile K V)) : Version K V :=
  ⟨level0 :: deeper.map (fun f => [f])⟩

theorem files_tower_succ (level0 deeper : List (SstFile K V)) (level : ℕ) :
    (tower level0 deeper).files (level + 1) = deeper[level]?.toList := by
  simp only [files, tower, List.getD_eq_getElem?_getD, List.getElem?_cons_succ,
    List.getElem?_map]
  cases deeper[level]? <;> rfl

theorem mem_of_mem_files_tower {level0 deeper : List (SstFile K V)} {level : ℕ}
    {f : SstFile K V} (hf : f ∈ (tower level0 deeper).files level) : f ∈ level0 ++ deeper := by
  cases level with
  | zero => exact List.mem_append_left _ hf
  | succ level =>
    rw [files_tower_succ, Option.mem_toList] at hf
    exact List.mem_append_right _ (List.mem_of_getElem? hf)

theorem exists_mem_files_tower {level0 deeper : List (SstFile K V)} {f : SstFile K V} :
    (∃ level, f ∈ (tower level0 deeper).files level) ↔ f ∈ level0 ++ deeper := by
  constructor
  · intro h
    obtain ⟨level, hf⟩ := h
    exact mem_of_mem_files_tower hf
  · intro h
    cases List.mem_append.mp h with
    | inl h => exact ⟨0, h⟩
    | inr h =>
      obtain ⟨n, hn⟩ := List.mem_iff_getElem?.mp h
      refine ⟨n + 1, ?_⟩
      rw [files_tower_succ, Option.mem_toList]
      exact hn

theorem newestFirst_tower {level0 deeper : List (SstFile K V)} {k : K}
    (h : (level0 ++ deeper).Pairwise (SstFile.NewerFor k)) :
    (tower level0 deeper).NewestFirst k := by
  obtain ⟨hzero, hdeeper, hcross⟩ := List.pairwise_append.mp h
  refine ⟨?_, hzero, ?_⟩
  · intro i j hij f hf g hg
    obtain ⟨j, rfl⟩ : ∃ n, j = n + 1 := ⟨j - 1, by omega⟩
    rw [files_tower_succ, Option.mem_toList] at hg
    cases i with
    | zero => exact hcross f hf g (List.mem_of_getElem? hg)
    | succ i =>
      rw [files_tower_succ, Option.mem_toList] at hf
      obtain ⟨hi, rfl⟩ := List.getElem?_eq_some_iff.mp hf
      obtain ⟨hj, rfl⟩ := List.getElem?_eq_some_iff.mp hg
      exact List.pairwise_iff_getElem.mp hdeeper i j hi hj (by omega)
  · intro level hlevel
    obtain ⟨n, rfl⟩ : ∃ n, level = n + 1 := ⟨level - 1, by omega⟩
    rw [files_tower_succ]
    refine (List.length_filter_le _ _).trans ?_
    cases deeper[n]? <;> simp

end Version

end Spry
