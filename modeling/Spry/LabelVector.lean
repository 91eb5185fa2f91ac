import Spry.SuRFWords

/-!
# Searching the labels of a node

The labels of a node are ascending, except that a terminator stands first with the label of the
largest byte. `LabelVector` skips it when the node has another label, and then searches linearly,
by halving, or in blocks of sixteen, depending on the size of the node. All of them find the first
symbol of the node with the property asked for.
-/

namespace Spry.LabelVector

def read (labels : List (Fin 256)) (pos : ℕ) : Fin 256 := labels.getD pos 0

/-- The loop of `linearSearch` and `linearSearchGreaterThan`. -/
def linearFind (p : Fin 256 → Bool) (labels : List (Fin 256)) : (pos len : ℕ) → Option ℕ
  | _, 0 => none
  | pos, len + 1 => if p (read labels pos) then some pos else linearFind p labels (pos + 1) len

def linearSearch (labels : List (Fin 256)) (target : Fin 256) (pos len : ℕ) : Option ℕ :=
  linearFind (fun l => l == target) labels pos len

def linearSearchGreaterThan (labels : List (Fin 256)) (target : Fin 256) (pos len : ℕ) :
    Option ℕ :=
  linearFind (fun l => target < l) labels pos len

/-- `blocks` compares of sixteen labels each, then one with the labels left. -/
def simdBlocks (labels : List (Fin 256)) (target : Fin 256) (left : ℕ) :
    (blocks pos : ℕ) → Option ℕ
  | 0, pos => linearSearch labels target pos left
  | blocks + 1, pos =>
    (linearSearch labels target pos 16).or (simdBlocks labels target left blocks (pos + 16))

def simdSearch (labels : List (Fin 256)) (target : Fin 256) (pos len : ℕ) : Option ℕ :=
  simdBlocks labels target (len % 16) (len / 16) pos

/-- The loop on the window from `l` to `r`; `fuel` bounds its length. -/
def binarySearchLoop (labels : List (Fin 256)) (target : Fin 256) :
    (fuel l r : ℕ) → Option ℕ
  | 0, _, _ => none
  | fuel + 1, l, r =>
    if l < r then
      let m := (l + r) / 2
      if target < read labels m then binarySearchLoop labels target fuel l m
      else if target = read labels m then some m
      else binarySearchLoop labels target fuel (m + 1) r
    else none

def binarySearch (labels : List (Fin 256)) (target : Fin 256) (pos len : ℕ) : Option ℕ :=
  binarySearchLoop labels target (len + 1) pos (pos + len)

def binarySearchGreaterThanLoop (labels : List (Fin 256)) (target : Fin 256) (stop : ℕ) :
    (fuel l r : ℕ) → Option ℕ
  | 0, _, _ => none
  | fuel + 1, l, r =>
    if l < r then
      let m := (l + r) / 2
      if target < read labels m then binarySearchGreaterThanLoop labels target stop fuel l m
      else if target = read labels m then if m < stop - 1 then some (m + 1) else none
      else binarySearchGreaterThanLoop labels target stop fuel (m + 1) r
    else if l < stop then some l else none

def binarySearchGreaterThan (labels : List (Fin 256)) (target : Fin 256) (pos len : ℕ) :
    Option ℕ :=
  binarySearchGreaterThanLoop labels target (pos + len) (len + 1) pos (pos + len)

def skipTerminator (labels : List (Fin 256)) (pos len : ℕ) : ℕ × ℕ :=
  if 1 < len ∧ read labels pos = kTerminator then (pos + 1, len - 1) else (pos, len)

def search (labels : List (Fin 256)) (target : Fin 256) (pos len : ℕ) : Option ℕ :=
  let (pos, len) := skipTerminator labels pos len
  if len < 3 then linearSearch labels target pos len
  else if len < 12 then binarySearch labels target pos len
  else simdSearch labels target pos len

def searchGreaterThan (labels : List (Fin 256)) (target : Fin 256) (pos len : ℕ) : Option ℕ :=
  let (pos, len) := skipTerminator labels pos len
  if len < 3 then linearSearchGreaterThan labels target pos len
  else binarySearchGreaterThan labels target pos len

def Window (labels : List (Fin 256)) (pos : ℕ) (L : List (Fin 256)) : Prop :=
  ∀ i < L.length, read labels (pos + i) = L.getD i 0

section Search

variable {labels L : List (Fin 256)} {target : Fin 256} {pos : ℕ}

theorem Window.tail {x : Fin 256} (h : Window labels pos (x :: L)) : Window labels (pos + 1) L := by
  intro i hi
  have hread := h (i + 1) (by simpa using hi)
  rw [Nat.add_assoc, Nat.add_comm 1 i]
  simpa using hread

theorem Window.head {x : Fin 256} (h : Window labels pos (x :: L)) : read labels pos = x := by
  simpa using h 0 (by simp)

theorem linearFind_eq (p : Fin 256 → Bool) (h : Window labels pos L) :
    linearFind p labels pos L.length = (L.findIdx? p).map (pos + ·) := by
  induction L generalizing pos with
  | nil => rfl
  | cons x L ih =>
    rw [List.length_cons, linearFind, h.head, List.findIdx?_cons, ih h.tail]
    cases hx : p x with
    | true => simp
    | false => simp [Function.comp_def, Nat.add_assoc, Nat.add_comm 1]

theorem linearFind_add (p : Fin 256 → Bool) (m n : ℕ) :
    linearFind p labels pos (m + n) =
      (linearFind p labels pos m).or (linearFind p labels (pos + m) n) := by
  induction m generalizing pos with
  | zero => simp [linearFind]
  | succ m ih =>
    rw [Nat.add_right_comm, linearFind, linearFind, ih]
    cases hp : p (read labels pos) with
    | true => simp
    | false => simp [Nat.add_assoc, Nat.add_comm 1 m]

theorem simdBlocks_eq (left blocks : ℕ) :
    simdBlocks labels target left blocks pos =
      linearSearch labels target pos (16 * blocks + left) := by
  induction blocks generalizing pos with
  | zero => simp [simdBlocks]
  | succ blocks ih =>
    have hlen : 16 * (blocks + 1) + left = 16 + (16 * blocks + left) := by omega
    rw [simdBlocks, ih, hlen]
    exact (linearFind_add _ 16 (16 * blocks + left)).symm

theorem simdSearch_eq (len : ℕ) :
    simdSearch labels target pos len = linearSearch labels target pos len := by
  rw [simdSearch, simdBlocks_eq, Nat.div_add_mod]

theorem findIdx?_eq_some_of_getD {p : Fin 256 → Bool} {i : ℕ} (hi : i < L.length)
    (hp : p (L.getD i 0) = true) (hbefore : ∀ j < i, p (L.getD j 0) = false) :
    L.findIdx? p = some i := by
  rw [List.findIdx?_eq_some_iff_getElem]
  rw [List.getD_eq_getElem _ _ hi] at hp
  refine ⟨hi, hp, fun j hj => ?_⟩
  have hnot := hbefore j hj
  rw [List.getD_eq_getElem _ _ (hj.trans hi)] at hnot
  simp [hnot]

theorem findIdx?_eq_none_of_getD {p : Fin 256 → Bool}
    (hall : ∀ i < L.length, p (L.getD i 0) = false) : L.findIdx? p = none := by
  rw [List.findIdx?_eq_none_iff]
  intro x hx
  obtain ⟨i, hi, rfl⟩ := List.mem_iff_getElem.mp hx
  rw [← List.getD_eq_getElem _ 0 hi]
  exact hall i hi

variable (hL : L.Pairwise (· < ·)) (h : Window labels pos L)
include hL

theorem getD_lt_getD {i j : ℕ} (hij : i < j) (hj : j < L.length) : L.getD i 0 < L.getD j 0 := by
  rw [List.getD_eq_getElem _ _ (hij.trans hj), List.getD_eq_getElem _ _ hj]
  exact List.pairwise_iff_getElem.mp hL i j _ hj hij

theorem getD_le_getD {i j : ℕ} (hij : i ≤ j) (hj : j < L.length) : L.getD i 0 ≤ L.getD j 0 := by
  rcases hij.eq_or_lt with rfl | hij
  · exact le_rfl
  · exact (getD_lt_getD hL hij hj).le

theorem lt_of_getD_lt_getD {i j : ℕ} (hi : i < L.length) (h : L.getD i 0 < L.getD j 0) :
    i < j := by
  by_contra hij
  exact h.not_ge (getD_le_getD hL (not_lt.mp hij) hi)

include h

theorem binarySearchLoop_eq {fuel l r : ℕ} (hl : pos ≤ l) (hr : r ≤ pos + L.length)
    (hfuel : r < l + fuel)
    (hin : ∀ i < L.length, L.getD i 0 = target → l ≤ pos + i ∧ pos + i < r) :
    binarySearchLoop labels target fuel l r =
      (L.findIdx? fun x => x == target).map (pos + ·) := by
  induction fuel generalizing l r with
  | zero =>
    rw [findIdx?_eq_none_of_getD fun i hi => ?_]
    · rfl
    · by_contra hx
      have hwindow := hin i hi (by simpa using hx)
      omega
  | succ fuel ih =>
    by_cases hlr : l < r
    · obtain ⟨k, hk⟩ := Nat.exists_eq_add_of_le (show pos ≤ (l + r) / 2 by omega)
      have hklen : k < L.length := by omega
      have hmiddle : l ≤ pos + k ∧ pos + k < r := by omega
      simp only [binarySearchLoop, hlr, if_true, hk, h k hklen]
      rcases lt_trichotomy target (L.getD k 0) with hlt | heq | hgt
      · rw [if_pos hlt]
        apply ih hl (by omega) (by omega)
        intro i hi hx
        have hwindow := hin i hi hx
        have hik : i < k := lt_of_getD_lt_getD hL hi (hx ▸ hlt)
        omega
      · rw [if_neg heq.not_lt, if_pos heq, findIdx?_eq_some_of_getD hklen (by simp [heq])]
        · rfl
        · intro j hj
          simpa [heq] using (getD_lt_getD hL hj hklen).ne
      · rw [if_neg hgt.not_gt, if_neg hgt.ne']
        apply ih (by omega) hr (by omega)
        intro i hi hx
        have hwindow := hin i hi hx
        have hki : k < i := lt_of_getD_lt_getD hL hklen (hx ▸ hgt)
        omega
    · rw [binarySearchLoop, if_neg hlr, findIdx?_eq_none_of_getD fun i hi => ?_]
      · rfl
      · by_contra hx
        have hwindow := hin i hi (by simpa using hx)
        omega

theorem binarySearchGreaterThanLoop_eq {fuel l r : ℕ} (hl : pos ≤ l) (hlr : l ≤ r)
    (hr : r ≤ pos + L.length) (hfuel : r < l + fuel)
    (hbefore : ∀ i < L.length, pos + i < l → L.getD i 0 ≤ target)
    (hbehind : ∀ i < L.length, r ≤ pos + i → target < L.getD i 0) :
    binarySearchGreaterThanLoop labels target (pos + L.length) fuel l r =
      (L.findIdx? fun x => target < x).map (pos + ·) := by
  induction fuel generalizing l r with
  | zero => omega
  | succ fuel ih =>
    by_cases hlt : l < r
    · obtain ⟨k, hk⟩ := Nat.exists_eq_add_of_le (show pos ≤ (l + r) / 2 by omega)
      have hklen : k < L.length := by omega
      have hmiddle : l ≤ pos + k ∧ pos + k < r := by omega
      simp only [binarySearchGreaterThanLoop, hlt, if_true, hk, h k hklen]
      rcases lt_trichotomy target (L.getD k 0) with hlt | heq | hgt
      · rw [if_pos hlt]
        apply ih hl (by omega) (by omega) (by omega) hbefore
        intro i hi hri
        exact hlt.trans_le (getD_le_getD hL (show k ≤ i by omega) hi)
      · rw [if_neg heq.not_lt, if_pos heq]
        have hle {j : ℕ} (hj : j ≤ k) : L.getD j 0 ≤ target :=
          heq ▸ getD_le_getD hL hj hklen
        by_cases hlast : k + 1 < L.length
        · rw [if_pos (by omega), findIdx?_eq_some_of_getD hlast]
          · rfl
          · simpa [heq] using getD_lt_getD hL (Nat.lt_succ_self k) hlast
          · intro j hj
            simpa using hle (Nat.lt_succ_iff.mp hj)
        · rw [if_neg (by omega), findIdx?_eq_none_of_getD fun i hi => ?_]
          · rfl
          · simpa using hle (show i ≤ k by omega)
      · rw [if_neg hgt.not_gt, if_neg hgt.ne']
        apply ih (by omega) (by omega) hr (by omega) _ hbehind
        intro i hi hil
        exact (getD_le_getD hL (show i ≤ k by omega) hklen).trans hgt.le
    · have hrl : r = l := by omega
      obtain ⟨k, rfl⟩ := Nat.exists_eq_add_of_le hl
      simp only [binarySearchGreaterThanLoop, hlt, if_false]
      by_cases hk : k < L.length
      · rw [if_pos (by omega), findIdx?_eq_some_of_getD hk]
        · rfl
        · simpa using hbehind k hk hrl.le
        · intro j hj
          simpa using hbefore j (by omega) (by omega)
      · rw [if_neg (by omega), findIdx?_eq_none_of_getD fun i hi => ?_]
        · rfl
        · simpa using hbefore i hi (by omega)

theorem binarySearch_eq :
    binarySearch labels target pos L.length = (L.findIdx? fun x => x == target).map (pos + ·) := by
  apply binarySearchLoop_eq hL h le_rfl le_rfl (by omega)
  intro i hi _
  omega

theorem binarySearchGreaterThan_eq :
    binarySearchGreaterThan labels target pos L.length =
      (L.findIdx? fun x => target < x).map (pos + ·) := by
  apply binarySearchGreaterThanLoop_eq hL h le_rfl (by omega) le_rfl (by omega)
  · intro i _ hi
    omega
  · intro i hi hle
    omega

theorem searchBytes_eq :
    (if L.length < 3 then linearSearch labels target pos L.length
      else if L.length < 12 then binarySearch labels target pos L.length
      else simdSearch labels target pos L.length) =
      (L.findIdx? fun x => x == target).map (pos + ·) := by
  split_ifs
  · exact linearFind_eq _ h
  · exact binarySearch_eq hL h
  · rw [simdSearch_eq]
    exact linearFind_eq _ h

theorem searchBytesGreaterThan_eq :
    (if L.length < 3 then linearSearchGreaterThan labels target pos L.length
      else binarySearchGreaterThan labels target pos L.length) =
      (L.findIdx? fun x => target < x).map (pos + ·) := by
  split_ifs
  · exact linearFind_eq _ h
  · exact binarySearchGreaterThan_eq hL h

end Search

section Node

variable {labels : List (Fin 256)} {target : Fin 256} {pos : ℕ} {S : List Symbol}

structure NodeSymbols (S : List Symbol) : Prop where
  pairwise : S.Pairwise (· < ·)
  sibling : ⊥ ∈ S → 1 < S.length

theorem exists_bytes (hS : S.Pairwise (· < ·)) (hbot : ⊥ ∉ S) :
    ∃ L : Bytes, S = symbols L ∧ L.Pairwise (· < ·) := by
  lift S to List (Fin 256) using fun a ha h => hbot (h ▸ ha)
  exact ⟨S, rfl, by simpa [List.pairwise_map] using hS⟩

theorem map_label_symbols (L : Bytes) : (symbols L).map Symbol.label = L := by
  simp [symbols, Function.comp_def]

theorem NodeSymbols.cases (hS : NodeSymbols S) (h : Window labels pos (S.map Symbol.label)) :
    ∃ L : Bytes, L.Pairwise (· < ·) ∧
      ((S = symbols L ∧ Window labels pos L ∧
          skipTerminator labels pos S.length = (pos, L.length)) ∨
        (S = ⊥ :: symbols L ∧ Window labels (pos + 1) L ∧
          skipTerminator labels pos S.length = (pos + 1, L.length))) := by
  cases S with
  | nil => exact ⟨[], List.Pairwise.nil, Or.inl ⟨rfl, h, by simp [skipTerminator]⟩⟩
  | cons a S =>
    obtain ⟨hfirst, hrest⟩ := List.pairwise_cons.mp hS.pairwise
    have hbot : ⊥ ∉ S := fun hmem => not_lt_bot (hfirst ⊥ hmem)
    obtain ⟨L, rfl, hL⟩ := exists_bytes hrest hbot
    rw [List.map_cons, map_label_symbols] at h
    induction a using WithBot.recBotCoe with
    | bot =>
      have hmany : 1 < (⊥ :: symbols L).length := hS.sibling (by simp)
      refine ⟨L, hL, Or.inr ⟨rfl, h.tail, ?_⟩⟩
      rw [skipTerminator, if_pos ⟨hmany, h.head⟩]
      simp
    | coe c =>
      have hL' : (c :: L).Pairwise (· < ·) := by
        rw [List.pairwise_cons]
        exact ⟨fun x hx => WithBot.coe_lt_coe.mp (hfirst x (by simp [symbols, hx])), hL⟩
      refine ⟨c :: L, hL', Or.inl ⟨rfl, h, ?_⟩⟩
      -- the largest byte is the last label of its node
      have hlast : ¬ (1 < ((c : Symbol) :: symbols L).length ∧
          read labels pos = kTerminator) := by
        rintro ⟨hmany, hread⟩
        have hc : c = kTerminator := h.head.symm.trans hread
        cases L with
        | nil => simp [symbols] at hmany
        | cons x L =>
          have hlt : c < x := (List.pairwise_cons.mp hL').1 x (by simp)
          rw [hc] at hlt
          exact absurd hlt (not_lt.mpr (Fin.le_last x))
      rw [skipTerminator, if_neg hlast]
      simp

theorem search_eq (hS : NodeSymbols S) (h : Window labels pos (S.map Symbol.label)) :
    search labels target pos S.length =
      (S.findIdx? fun a => a == (target : Symbol)).map (pos + ·) := by
  have hmap (L : Bytes) : ((symbols L).findIdx? fun a => a == (target : Symbol)) =
      L.findIdx? fun x => x == target := by
    rw [symbols, List.findIdx?_map]
    congr 1
    funext x
    simp [WithBot.coe_inj]
  obtain ⟨L, hL, ⟨rfl, hw, hskip⟩ | ⟨rfl, hw, hskip⟩⟩ := hS.cases h
  · rw [search, hskip, hmap]
    exact searchBytes_eq hL hw
  · rw [search, hskip, List.findIdx?_cons]
    simp only [WithBot.bot_ne_coe, beq_eq_false_iff_ne.mpr, ne_eq, not_false_eq_true, hmap]
    rw [searchBytes_eq hL hw]
    simp [Function.comp_def, Nat.add_assoc, Nat.add_comm 1]

theorem searchGreaterThan_eq (hS : NodeSymbols S) (h : Window labels pos (S.map Symbol.label)) :
    searchGreaterThan labels target pos S.length =
      (S.findIdx? fun a => (target : Symbol) < a).map (pos + ·) := by
  have hmap (L : Bytes) : ((symbols L).findIdx? fun a => (target : Symbol) < a) =
      L.findIdx? fun x => target < x := by
    rw [symbols, List.findIdx?_map]
    congr 1
    funext x
    simp [WithBot.coe_lt_coe]
  obtain ⟨L, hL, ⟨rfl, hw, hskip⟩ | ⟨rfl, hw, hskip⟩⟩ := hS.cases h
  · rw [searchGreaterThan, hskip, hmap]
    exact searchBytesGreaterThan_eq hL hw
  · rw [searchGreaterThan, hskip, List.findIdx?_cons]
    simp only [not_lt_bot, decide_false, hmap]
    rw [searchBytesGreaterThan_eq hL hw]
    simp [Function.comp_def, Nat.add_assoc, Nat.add_comm 1]

end Node

end Spry.LabelVector
