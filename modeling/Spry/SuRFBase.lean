import Spry.SuRFPunctured
import Spry.SuRFTrieSeek

/-!
# SuRF-base mode

In SuRF-base mode a stored key is cut behind its first differences from the key before it. A
shortened key still lies behind every key before it, so the stored keys stay ascending, although
one of them may be a prefix of the next. A query that extends a stored key is left open; any other
query lies between two shortened keys exactly where it lies between the full ones.
-/

namespace Spry

open HalfOpen

namespace SuRF

/-- The loop of `truncateToFirstKDifference`: the number of bytes kept of those left of `str1`. -/
def keptLen (k : ℕ) : (str1 str2 : Bytes) → (diffCount : ℕ) → ℕ
  | a :: str1, b :: str2, diffCount =>
    let diffCount := if a ≠ b then diffCount + 1 else diffCount
    if diffCount = k then 1 else keptLen k str1 str2 diffCount + 1
  | str1, _, diffCount => min str1.length (k - diffCount)

def truncateToFirstKDifference (str1 str2 : Bytes) (k : ℕ) : Bytes :=
  str1.take (keptLen k str1 str2 0)

def truncateBehind (k : ℕ) : (previous : Bytes) → List Bytes → List Bytes
  | _, [] => []
  | previous, a :: rest => truncateToFirstKDifference a previous k :: truncateBehind k a rest

/-- A single key is compared with a blank; of no keys the source reads the first. -/
def processStringsToFirstKDifference (vec : List Bytes) (k : ℕ) : List Bytes :=
  match vec.insertionSort (· ≤ ·) with
  | [] => []
  | [a] => [truncateToFirstKDifference a [32] k]
  | a :: b :: rest => truncateToFirstKDifference a b k :: truncateBehind k a (b :: rest)

def shortenKeys (surf : SuRF Bytes) (k : ℕ) : SuRF Bytes :=
  (processStringsToFirstKDifference (surf.map ParenKey.key) k).zipWith
    (fun key p => { p with key := key }) surf

section Truncate

variable {k : ℕ} {a b : Bytes}

theorem keptLen_pos {diffCount : ℕ} (hk : diffCount < k) (ha : a ≠ []) :
    0 < keptLen k a b diffCount := by
  cases a with
  | nil => exact absurd rfl ha
  | cons x a =>
    cases b with
    | nil =>
      simp only [keptLen, List.length_cons]
      omega
    | cons y b =>
      rw [keptLen]
      split_ifs <;> omega

theorem lt_take_keptLen {diffCount : ℕ} (hk : diffCount < k) (hlt : b < a) :
    b < a.take (keptLen k a b diffCount) := by
  induction a generalizing b diffCount with
  | nil => exact absurd hlt (List.not_lt_nil b)
  | cons x a ih =>
    cases b with
    | nil =>
      obtain ⟨n, hn⟩ := Nat.exists_eq_succ_of_ne_zero
        (keptLen_pos hk (List.cons_ne_nil x a) (b := [])).ne'
      rw [hn, List.take_succ_cons]
      exact List.nil_lt_cons _ _
    | cons y b =>
      rw [List.cons_lt_cons_iff] at hlt
      rw [keptLen]
      rcases hlt with hyx | ⟨rfl, hba⟩
      · -- the first difference is always kept
        split_ifs <;> exact List.cons_lt_cons_iff.mpr (Or.inl hyx)
      · simp only [ne_eq, not_true_eq_false, if_false, hk.ne]
        exact List.cons_lt_cons_iff.mpr (Or.inr ⟨rfl, ih hk hba⟩)

theorem truncateToFirstKDifference_isPrefix (a b : Bytes) (k : ℕ) :
    truncateToFirstKDifference a b k <+: a := List.take_prefix _ _

theorem lt_truncateToFirstKDifference (hk : 1 ≤ k) (hlt : b < a) :
    b < truncateToFirstKDifference a b k := lt_take_keptLen hk hlt

theorem truncateToFirstKDifference_ne_nil (hk : 1 ≤ k) (ha : a ≠ []) (b : Bytes) :
    truncateToFirstKDifference a b k ≠ [] := by
  intro hnil
  rw [truncateToFirstKDifference, List.take_eq_nil_iff] at hnil
  exact hnil.elim (keptLen_pos hk ha).ne' ha

end Truncate

/-- Shortened keys in the places of the full ones; each lies behind the full key before it. -/
inductive Shortened : Option Bytes → SuRF Bytes → SuRF Bytes → Prop
  | nil {previous : Option Bytes} : Shortened previous [] []
  | cons {previous : Option Bytes} {p : ParenKey Bytes} {key : Bytes} {surf short : SuRF Bytes}
      (isPrefix : key <+: p.key) (ne_nil : p.key ≠ [] → key ≠ [])
      (behind : ∀ a ∈ previous, a < key) (rest : Shortened (some p.key) surf short) :
      Shortened previous (p :: surf) ({ p with key := key } :: short)

variable {surf short : SuRF Bytes} {previous : Option Bytes} {k : ℕ}

theorem shortened_truncateBehind (hk : 1 ≤ k) {a : Bytes}
    (hsurf : (a :: surf.map ParenKey.key).Pairwise (· < ·)) :
    Shortened (some a) surf ((truncateBehind k a (surf.map ParenKey.key)).zipWith
      (fun key p => { p with key := key }) surf) := by
  induction surf generalizing a with
  | nil => exact Shortened.nil
  | cons p surf ih =>
    obtain ⟨hhead, htail⟩ := List.pairwise_cons.mp hsurf
    have hlt : a < p.key := hhead _ (by simp)
    apply Shortened.cons (truncateToFirstKDifference_isPrefix _ _ _)
    · exact fun hne => truncateToFirstKDifference_ne_nil hk hne a
    · intro b hb
      rw [← Option.some_injective _ hb]
      exact lt_truncateToFirstKDifference hk hlt
    · exact ih htail

theorem shortened_shortenKeys (hk : 1 ≤ k) (hsurf : surf.Pairwise fun a b => a.key < b.key) :
    Shortened none surf (surf.shortenKeys k) := by
  have hkeys : (surf.map ParenKey.key).Pairwise (· < ·) := List.pairwise_map.mpr hsurf
  have hsort : (surf.map ParenKey.key).insertionSort (· ≤ ·) = surf.map ParenKey.key :=
    (hkeys.imp fun h => h.le).insertionSort_eq
  rw [shortenKeys, processStringsToFirstKDifference, hsort]
  match surf, hkeys with
  | [], _ => exact Shortened.nil
  | [p], _ =>
    exact Shortened.cons (truncateToFirstKDifference_isPrefix _ _ _)
      (fun hne => truncateToFirstKDifference_ne_nil hk hne _) (by simp) Shortened.nil
  | p :: p' :: surf, hkeys =>
    exact Shortened.cons (truncateToFirstKDifference_isPrefix _ _ _)
      (fun hne => truncateToFirstKDifference_ne_nil hk hne _) (by simp)
      (shortened_truncateBehind hk hkeys)

theorem Shortened.eq_nil_iff (h : Shortened previous surf short) : short = [] ↔ surf = [] := by
  cases h with
  | nil => exact Iff.rfl
  | cons => exact iff_of_false (List.cons_ne_nil _ _) (List.cons_ne_nil _ _)

theorem Shortened.ne_nil_of_mem (h : Shortened previous surf short)
    (hne : ∀ p ∈ surf, p.key ≠ []) : ∀ p ∈ short, p.key ≠ [] := by
  induction h with
  | nil => simp
  | cons _ hnil _ _ ih =>
    rw [List.forall_mem_cons] at hne ⊢
    exact ⟨hnil hne.1, ih hne.2⟩

theorem Shortened.pairwise (h : Shortened previous surf short) :
    (∀ a ∈ previous, ∀ p ∈ short, a < p.key) ∧ short.Pairwise fun a b => a.key < b.key := by
  induction h with
  | nil => simp
  | @cons previous p key surf short hpre _ hbehind _ ih =>
    obtain ⟨hlater, hpairwise⟩ := ih
    have hle : key ≤ p.key := le_of_isPrefix hpre
    have hhead : ∀ b ∈ short, key < b.key := fun b hb => hle.trans_lt (hlater p.key rfl b hb)
    refine ⟨fun a ha => ?_, List.pairwise_cons.mpr ⟨hhead, hpairwise⟩⟩
    rw [List.forall_mem_cons]
    exact ⟨hbehind a ha, fun b hb => (hbehind a ha).trans (hhead b hb)⟩

theorem lt_take_of_not_isPrefix {key full q : Bytes} {len : ℕ} (hlt : key < q)
    (hnot : ¬ key <+: q) (hfull : key <+: full) (hlen : key.length ≤ len) : full < q.take len := by
  induction key generalizing full q len with
  | nil => exact absurd List.nil_prefix hnot
  | cons x key ih =>
    obtain ⟨rest, rfl⟩ := hfull
    cases q with
    | nil => exact absurd hlt (List.not_lt_nil _)
    | cons y q =>
      obtain ⟨len, rfl⟩ := Nat.exists_eq_succ_of_ne_zero
        (show len ≠ 0 by rw [List.length_cons] at hlen; omega)
      rw [List.cons_lt_cons_iff] at hlt
      rw [List.take_succ_cons, List.cons_append, List.cons_lt_cons_iff]
      rcases hlt with hxy | ⟨rfl, hlt⟩
      · exact Or.inl hxy
      · right
        refine ⟨rfl, ih hlt (fun hpre => hnot ?_) (List.prefix_append _ _) ?_⟩
        · exact List.cons_prefix_cons.mpr ⟨rfl, hpre⟩
        · exact Nat.le_of_succ_le_succ hlen

/-- A query that extends no shortened key is decided by the same entry as among the full keys. -/
theorem Shortened.seekEnd_take (h : Shortened previous surf short) {q : Bytes} {len : ℕ}
    (hlen : ∀ p ∈ surf, p.key.length ≤ len) (hnot : ∀ p ∈ short, ¬ p.key <+: q)
    {found : ParenKey Bytes} (hseek : seekEnd short q = some found) :
    ∃ p, seekEnd surf (q.take len) = some p ∧ p.key ≠ q.take len ∧ p.right = found.right := by
  induction h with
  | nil => simp [seekEnd] at hseek
  | @cons previous p key surf short hpre _ _ _ ih =>
    rw [List.forall_mem_cons] at hlen hnot
    rw [seekEnd, List.find?_cons] at hseek
    by_cases hle : q ≤ key
    · simp only [hle, decide_true, Option.some.injEq] at hseek
      have hlt : q < key := lt_of_le_of_ne hle fun heq => hnot.1 (heq ▸ List.prefix_rfl)
      have hfull : q.take len < p.key :=
        ((le_of_isPrefix (List.take_prefix len q)).trans_lt hlt).trans_le (le_of_isPrefix hpre)
      refine ⟨p, ?_, hfull.ne', by rw [← hseek]⟩
      rw [seekEnd, List.find?_cons]
      simp [hfull.le]
    · simp only [hle, decide_false] at hseek
      have hfull := lt_take_of_not_isPrefix (not_le.mp hle) hnot.1 hpre
        (hpre.length_le.trans hlen.1)
      rw [seekEnd, List.find?_cons]
      simp only [not_le.mpr hfull, decide_false]
      exact ih hlen.2 hnot.2 hseek

/-- In SuRF-base mode with the bypass, a key that is reported deleted is decided by a right
parenthesis of a full key that is not the query's. -/
theorem Shortened.of_answer_eq_false (h : Shortened previous surf short) {q : Bytes} {len : ℕ}
    (hlen : ∀ p ∈ surf, p.key.length ≤ len) {surfKeyLength : ℕ}
    (hdead : (answer short true surfKeyLength q true).1 = false) :
    ∃ p, seekEnd surf (q.take len) = some p ∧ p.key ≠ q.take len ∧ p.right = true := by
  simp only [answer, seekKey, if_true] at hdead
  cases hfind : short.find? fun p => p.key <+: q with
  | some p =>
    have hpre : p.key <+: q := by simpa using List.find?_some hfind
    simp [hfind, verdict, ← List.prefix_iff_eq_take.mp hpre] at hdead
  | none =>
    have hnot : ∀ p ∈ short, ¬ p.key <+: q := by simpa using List.find?_eq_none.mp hfind
    rw [hfind, Option.none_or] at hdead
    cases hseek : seekEnd short q with
    | none => simp [hseek] at hdead
    | some found =>
      have hmem : found ∈ short := List.mem_of_find?_eq_some hseek
      have hmiss : found.key ≠ q.take found.key.length := fun heq =>
        hnot found hmem (List.prefix_iff_eq_take.mpr heq)
      obtain ⟨p, hp, hne, hright⟩ := h.seekEnd_take hlen hnot hseek
      refine ⟨p, hp, hne, hright.trans ?_⟩
      simpa [hseek, verdict, hmiss] using hdead

end SuRF

end Spry
