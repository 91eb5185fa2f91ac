import Spry.SuRFWords

/-!
# The builder leaves the levels of the trie

Inserting a key walks the symbols it shares with the key before and adds the rest, one item on
each level. The arrays of every level are then those of the trie that has the new word.
-/

namespace Spry.SuRFBuilder

open HalfOpen Louds

variable {leaves : List Leaf} {b : SuRFBuilder} {u w : List Symbol} {c : ℕ}

section Step

theorem level_insertKeyByte (label : Fin 256) {j : ℕ} (start term : Bool)
    (hj : j ≤ b.getTreeHeight) (i : ℕ) :
    (b.insertKeyByte label j start term).level i =
      if i = j then (b.level i).insertItem label start term
      else if i + 1 = j then (b.level i).setChildBit else b.level i := by
  have hheight := getTreeHeight_ensureLevel b j hj
  simp only [insertKeyByte]
  split_ifs with hpos h₁ h₂ h₁ h₂
  all_goals
    simp only [level_modifyLevel, level_ensureLevel, getTreeHeight_modifyLevel, hheight,
      lt_sup_iff, Nat.lt_succ_self, or_true, show j - 1 < j + 1 by omega]
  · rw [if_pos h₁, if_neg (by omega)]
  · rw [if_neg h₁, if_pos (by omega)]
  · rw [if_neg h₁, if_neg (by omega)]
  · rw [if_pos h₁]
  · omega
  · rw [if_neg h₁]

theorem getTreeHeight_insertKeyByte (label : Fin 256) {j : ℕ} (start term : Bool)
    (hj : j ≤ b.getTreeHeight) :
    (b.insertKeyByte label j start term).getTreeHeight = max b.getTreeHeight (j + 1) := by
  have hheight := getTreeHeight_ensureLevel b j hj
  simp only [insertKeyByte]
  split_ifs
  · simp [hheight]
  · simp [hheight]

def pushItem (l : BuilderLevel) (a : Symbol) (start child : Bool) : BuilderLevel :=
  { l.insertItem a.label start (decide (a = ⊥)) with
    childIndicatorBits := l.childIndicatorBits ++ [child] }

theorem setChildBit_pushItem (n : ℕ) (a : Symbol) (start : Bool) :
    (pushItem (levelOf leaves n) a start false).setChildBit =
      pushItem (levelOf leaves n) a start true := by
  simp [pushItem, BuilderLevel.setChildBit, BuilderLevel.insertItem, levelOf, itemArrays]

/-- The bit that opens a node is set on all levels but the first one, and there only if the level
is empty. -/
def startsNode (leaves : List Leaf) (c n : ℕ) : Bool :=
  decide (n ≠ c ∨ prefixes (words leaves) (c + 1) = [])

/-- The levels when the symbols of `u` from depth `c` on have been inserted. -/
def inserted (leaves : List Leaf) (c : ℕ) (u : List Symbol) (n : ℕ) : BuilderLevel :=
  if c ≤ n ∧ n < u.length then
    pushItem (levelOf leaves n) (u.getD n ⊥) (startsNode leaves c n) (decide (n + 1 < u.length))
  else levelOf leaves n

def HasParent (leaves : List Leaf) (c : ℕ) : Prop :=
  0 < c → (levelOf leaves (c - 1)).setChildBit = levelOf leaves (c - 1)

theorem inserted_snoc (hc : c ≤ u.length) (hparent : HasParent leaves c) (a : Symbol) (i : ℕ) :
    inserted leaves c (u ++ [a]) i =
      if i = u.length then
        (inserted leaves c u i).insertItem a.label (startsNode leaves c i) (decide (a = ⊥))
      else if i + 1 = u.length then (inserted leaves c u i).setChildBit
      else inserted leaves c u i := by
  split_ifs with h₁ h₂
  · subst h₁
    simp [inserted, hc, pushItem, BuilderLevel.insertItem]
  · by_cases hci : c ≤ i
    · have hlt : i < u.length := by omega
      simp only [inserted, hci, hlt, List.length_append, List.length_singleton, true_and,
        show i < u.length + 1 by omega, show i + 1 < u.length + 1 by omega,
        show ¬ i + 1 < u.length by omega, if_true, decide_true, decide_false,
        setChildBit_pushItem, List.getD_append _ _ _ _ hlt]
    · have heq : i = c - 1 := by omega
      simp only [inserted, hci, false_and, if_false]
      rw [heq]
      exact (hparent (by omega)).symm
  · by_cases hlt : i < u.length
    · simp only [inserted, hlt, List.length_append, List.length_singleton,
        show i < u.length + 1 by omega, show i + 1 < u.length + 1 by omega,
        show i + 1 < u.length by omega, List.getD_append _ _ _ _ hlt]
    · simp [inserted, hlt, show ¬ i < u.length + 1 by omega]

structure Inserting (leaves : List Leaf) (c h : ℕ) (u : List Symbol) (b : SuRFBuilder) : Prop where
  level : ∀ i, b.level i = inserted leaves c u i
  length : u.length ≤ b.getTreeHeight
  height : h ≤ b.getTreeHeight

theorem Inserting.snoc {h : ℕ} (hb : Inserting leaves c h u b) (hc : c ≤ u.length)
    (hparent : HasParent leaves c) (a : Symbol) :
    Inserting leaves c h (u ++ [a])
      (b.insertKeyByte a.label u.length (startsNode leaves c u.length) (decide (a = ⊥))) where
  level i := by
    rw [level_insertKeyByte _ _ _ hb.length, inserted_snoc hc hparent, hb.level]
    split_ifs with h₁
    · rw [h₁]
    · rfl
    · rfl
  length := by simp [getTreeHeight_insertKeyByte _ _ _ hb.length]
  height := by
    rw [getTreeHeight_insertKeyByte _ _ _ hb.length]
    exact hb.height.trans (le_max_left _ _)

theorem Inserting.insertKeyBytes {h maxLevel : ℕ} (hparent : HasParent leaves c) {rest : Bytes}
    (hb : Inserting leaves c h u b) (hc : c < u.length)
    (hmax : u.length + rest.length ≤ maxLevel + 1) :
    Inserting leaves c h (u ++ symbols rest)
        (SuRFBuilder.insertKeyBytes maxLevel b u.length rest).1 ∧
      (SuRFBuilder.insertKeyBytes maxLevel b u.length rest).2 = u.length + rest.length := by
  induction rest generalizing b u with
  | nil =>
    rw [show symbols [] = [] from rfl, List.append_nil]
    exact ⟨hb, rfl⟩
  | cons x rest ih =>
    rw [List.length_cons] at hmax
    have hlevel : ¬ maxLevel < u.length := by omega
    have hstart : startsNode leaves c u.length = true := by
      simp [startsNode, hc.ne']
    have hstep := hb.snoc hc.le hparent (x : Symbol)
    rw [hstart] at hstep
    have hlen : (u ++ [(x : Symbol)]).length = u.length + 1 := by simp
    have hrest := ih hstep (by omega) (by omega)
    simp only [SuRFBuilder.insertKeyBytes, hlevel, if_false]
    simpa [symbols, Nat.add_assoc, Nat.add_comm 1] using hrest

end Step

section Skip

structure StopsAt (W : List (List Symbol)) (w : List Symbol) (c : ℕ) : Prop where
  lt : c < w.length
  old : W = [] ∧ c = 0 ∨ w.take c ∈ prefixes W c
  new : w.take (c + 1) ∉ prefixes W (c + 1)

theorem setChildBit_levelOf {n : ℕ} {x : List Symbol}
    (hlast : (prefixes (words leaves) (n + 1)).getLast? = some x) (hx : x ∉ words leaves) :
    (levelOf leaves n).setChildBit = levelOf leaves n := by
  obtain ⟨init, hinit⟩ := List.getLast?_eq_some_iff.mp hlast
  simp [BuilderLevel.setChildBit, levelOf, itemArrays, hinit, hx]

theorem lt_getTreeHeight_of_mem (hlevel : ∀ i, b.level i = levelOf leaves i) {n : ℕ}
    {x : List Symbol} (hx : x ∈ prefixes (words leaves) (n + 1)) : n < b.getTreeHeight := by
  by_contra hnot
  have hdefault : b.level n = {} := List.getD_eq_default _ _ (not_lt.mp hnot)
  have hlabels := congrArg BuilderLevel.labels ((hlevel n).symm.trans hdefault)
  simp only [levelOf, itemArrays, List.map_eq_nil_iff] at hlabels
  rw [hlabels] at hx
  exact List.not_mem_nil hx

variable (hW : Ascending (words leaves ++ [w])) (hlevel : ∀ i, b.level i = levelOf leaves i)
include hW

theorem setChildBit_levelOf_of_mem {n : ℕ} (hn : n < w.length)
    (hmem : w.take (n + 1) ∈ prefixes (words leaves) (n + 1)) :
    (levelOf leaves n).setChildBit = levelOf leaves n := by
  have hold : w.take n ∈ prefixes (words leaves) n := by
    have htake := take_mem_prefixes hmem (Nat.le_add_right n 1)
    rwa [List.take_take, Nat.min_eq_left (Nat.le_add_right n 1)] at htake
  obtain ⟨a, hlast, ha⟩ := exists_getLast?_prefixes hW hn hold
  rw [ha.mpr hmem, ← List.take_succ_eq_append_getElem hn] at hlast
  exact setChildBit_levelOf hlast (take_notMem hW.pairwise (n + 1))

theorem StopsAt.hasParent (hstop : StopsAt (words leaves) w c) : HasParent leaves c := by
  intro hpos
  obtain ⟨n, rfl⟩ := Nat.exists_eq_add_of_lt hpos
  rw [Nat.zero_add] at hstop ⊢
  rcases hstop.old with ⟨_, h0⟩ | hmem
  · omega
  · exact setChildBit_levelOf_of_mem hW (by have := hstop.lt; omega) hmem

theorem symbols_notMem_prefixes {key : Bytes} {t : List Symbol} (hw : w = symbols key ++ t)
    (ht : t = [] ∨ t = [⊥]) : symbols key ∉ prefixes (words leaves) key.length := by
  intro hmem
  obtain ⟨_, v, hv, s, rfl⟩ := mem_prefixes.mp hmem
  have hlt : Precedes (symbols key ++ s) w :=
    (List.pairwise_append.mp hW.pairwise).2.2 _ hv w (by simp)
  rw [hw, Precedes.append_append] at hlt
  rcases ht with rfl | rfl
  · exact hlt.not_nil_right
  · cases s with
    | nil => exact hlt
    | cons a s =>
      rcases hlt with hlt | ⟨_, hlt⟩
      · exact not_lt_bot hlt
      · exact hlt.not_nil_right

include hlevel

theorem isCharCommonPrefix_iff {n : ℕ} (hn : n < w.length)
    (hold : w.take n ∈ prefixes (words leaves) n) {x : Fin 256} (hx : w[n] = (x : Symbol)) :
    b.isCharCommonPrefix x n = true ↔ w.take (n + 1) ∈ prefixes (words leaves) (n + 1) := by
  obtain ⟨a, hlast, ha⟩ := exists_getLast?_prefixes hW hn hold
  have hheight := lt_getTreeHeight_of_mem hlevel (List.mem_of_getLast? hlast)
  have hlabel : (b.level n).labels.getLast? = some a.label := by
    simp [hlevel, levelOf, itemArrays, List.getLast?_map, hlast, itemLabel]
  have hterm : (b.level n).isLastItemTerminator = decide (a = ⊥) := by
    simp [hlevel, levelOf, itemArrays, hlast]
  rw [← ha, hx, isCharCommonPrefix, hlabel, hterm]
  simp only [hheight, decide_true, Bool.true_and, Bool.and_eq_true, Bool.not_eq_true',
    decide_eq_false_iff_not, beq_iff_eq, Option.some.injEq]
  constructor
  · rintro ⟨hbot, hax⟩
    obtain ⟨y, rfl⟩ := WithBot.ne_bot_iff_exists.mp hbot
    exact congrArg _ hax
  · rintro rfl
    exact ⟨WithBot.coe_ne_bot, rfl⟩

/-- The walk along the bytes shared with the words there changes nothing and stops where the new
word leaves the trie. -/
theorem skipCommonPrefix_spec {maxNumLevel : ℕ} {key walked rest : Bytes} {t : List Symbol}
    (hw : w = symbols key ++ t) (ht : t = [] ∨ t = [⊥]) (hne : key ≠ [])
    (hmax : key.length ≤ maxNumLevel) (hkey : key = walked ++ rest)
    (hold : words leaves = [] ∧ walked = [] ∨
      w.take walked.length ∈ prefixes (words leaves) walked.length) :
    (∀ i, (skipCommonPrefix maxNumLevel b walked.length rest).1.level i = levelOf leaves i) ∧
      (skipCommonPrefix maxNumLevel b walked.length rest).1.getTreeHeight = b.getTreeHeight ∧
      StopsAt (words leaves) w (skipCommonPrefix maxNumLevel b walked.length rest).2 ∧
      (skipCommonPrefix maxNumLevel b walked.length rest).2 < key.length := by
  induction rest generalizing b walked with
  | nil =>
    rw [List.append_nil] at hkey
    subst hkey
    rcases hold with ⟨_, h⟩ | h
    · exact absurd h hne
    · rw [hw, List.take_append_of_le_length (by simp), List.take_of_length_le (by simp)] at h
      exact absurd h (symbols_notMem_prefixes hW hw ht)
  | cons x rest ih =>
    have hlen : walked.length < key.length := by simp [hkey]
    have hn : walked.length < w.length := by
      rw [hw, List.length_append, length_symbols]
      omega
    have hx : w[walked.length] = (x : Symbol) := by
      simp [hw, hkey, symbols]
    -- on the first key all levels are empty
    have hchar : b.isCharCommonPrefix x walked.length = true ↔
        w.take (walked.length + 1) ∈ prefixes (words leaves) (walked.length + 1) := by
      rcases hold with ⟨hnil, hwalked⟩ | hold
      · simp [isCharCommonPrefix, hlevel, levelOf, itemArrays, hnil, prefixes]
      · exact isCharCommonPrefix_iff hW hlevel hn hold hx
    by_cases hmem : w.take (walked.length + 1) ∈ prefixes (words leaves) (walked.length + 1)
    · have hcond : walked.length < maxNumLevel ∧
          b.isCharCommonPrefix x walked.length = true := ⟨by omega, hchar.mpr hmem⟩
      have hheight := lt_getTreeHeight_of_mem hlevel hmem
      have hlevel' : ∀ i, (b.modifyLevel walked.length BuilderLevel.setChildBit).level i =
          levelOf leaves i := by
        intro i
        rw [level_modifyLevel _ _ _ _ hheight, hlevel]
        split_ifs with hi
        · rw [hi, setChildBit_levelOf_of_mem hW hn hmem]
        · rfl
      have hwalked : (walked ++ [x]).length = walked.length + 1 := by simp
      have hkey' : key = walked ++ [x] ++ rest := by simp [hkey]
      have hrec := ih hlevel' hkey' (Or.inr (by rwa [hwalked]))
      rw [hwalked, getTreeHeight_modifyLevel] at hrec
      simpa only [skipCommonPrefix, hcond, and_self, if_true] using hrec
    · have hcond : ¬ (walked.length < maxNumLevel ∧
          b.isCharCommonPrefix x walked.length = true) := fun h => hmem (hchar.mp h.2)
      simp only [skipCommonPrefix, hcond, if_false]
      refine ⟨hlevel, trivial, ⟨hn, ?_, hmem⟩, hlen⟩
      exact hold.imp_left fun h => ⟨h.1, by simp [h.2]⟩

end Skip

section Levels

variable (hW : Ascending (words leaves ++ [w])) (hstop : StopsAt (words leaves) w c)
include hW hstop

omit hW in
theorem StopsAt.notMem {n : ℕ} (hn : c < n) : w.take n ∉ prefixes (words leaves) n := by
  intro hmem
  have htake := take_mem_prefixes hmem (show c + 1 ≤ n from hn)
  rw [List.take_take, Nat.min_eq_left (show c + 1 ≤ n from hn)] at htake
  exact hstop.new htake

omit hW in
theorem StopsAt.mem {n : ℕ} (hpos : 0 < n) (hn : n ≤ c) :
    w.take n ∈ prefixes (words leaves) n := by
  rcases hstop.old with ⟨_, h0⟩ | hmem
  · omega
  · have htake := take_mem_prefixes hmem hn
    rwa [List.take_take, Nat.min_eq_left hn] at htake

theorem StopsAt.isFirst_take {n : ℕ} (hcn : c ≤ n) (hn : n < w.length) :
    isFirst (words leaves ++ [w]) (w.take (n + 1)) = startsNode leaves c n := by
  rw [isFirst_snoc_take hW hn (hstop.notMem (by omega)), startsNode, decide_eq_decide]
  rcases hcn.eq_or_lt with rfl | hlt
  · simp only [ne_eq, not_true_eq_false, false_or]
    rcases hstop.old with ⟨hnil, _⟩ | hmem
    · simp [hnil, prefixes]
    · obtain ⟨a, hlast, _⟩ := exists_getLast?_prefixes hW hn hmem
      have hne := List.ne_nil_of_mem (List.mem_of_getLast? hlast)
      simp [hmem, hne]
  · simp [hstop.notMem hlt, hlt.ne']

def storeParentheses (n : ℕ) (e : Leaf) (l : BuilderLevel) : BuilderLevel :=
  if n + 1 = e.word.length then
    (l.storeLeftParenthesis e.left).storeRightParenthesis e.right
  else l

omit hW hstop in
theorem itemArrays_snoc (W items : List (List Symbol)) (p : List Symbol) (a : Symbol) :
    itemArrays W (items ++ [p ++ [a]]) =
      pushItem (itemArrays W items) a (isFirst W (p ++ [a])) (decide (p ++ [a] ∉ W)) := by
  cases hfirst : isFirst W (p ++ [a]) with
  | true =>
    simp [itemArrays, pushItem, BuilderLevel.insertItem, itemLabel, hfirst, List.countP_append]
  | false =>
    simp [itemArrays, pushItem, BuilderLevel.insertItem, itemLabel, hfirst, List.countP_append]

omit hstop in
theorem itemArrays_words_snoc (n : ℕ) :
    itemArrays (words leaves ++ [w]) (prefixes (words leaves) n) =
      itemArrays (words leaves) (prefixes (words leaves) n) := by
  have hfirst : ∀ x ∈ prefixes (words leaves) n,
      isFirst (words leaves ++ [w]) x = isFirst (words leaves) x :=
    fun x hx => isFirst_snoc hW.pairwise hx
  have hcount : (prefixes (words leaves) n).countP (isFirst (words leaves ++ [w])) =
      (prefixes (words leaves) n).countP (isFirst (words leaves)) :=
    List.countP_congr fun x hx => by rw [hfirst x hx]
  have hword : ∀ x ∈ prefixes (words leaves) n, decide (x ∉ words leaves ++ [w]) =
      decide (x ∉ words leaves) := by
    intro x hx
    simp [ne_of_mem_prefixes hW.pairwise hx]
  simp only [itemArrays, List.map_congr_left hfirst, List.map_congr_left hword, hcount]

theorem itemArrays_prefixes_snoc (n : ℕ) :
    itemArrays (words leaves ++ [w]) (prefixes (words leaves ++ [w]) (n + 1)) =
      if c ≤ n ∧ n < w.length then
        pushItem (itemArrays (words leaves) (prefixes (words leaves) (n + 1))) (w.getD n ⊥)
          (startsNode leaves c n) (decide (n + 1 < w.length))
      else itemArrays (words leaves) (prefixes (words leaves) (n + 1)) := by
  split_ifs with hnew
  · obtain ⟨hcn, hn⟩ := hnew
    have hsnoc : w.take (n + 1) = w.take n ++ [w.getD n ⊥] := by
      rw [List.take_succ_eq_append_getElem hn, List.getD_eq_getElem _ _ hn]
    have hword : decide (w.take (n + 1) ∉ words leaves ++ [w]) = decide (n + 1 < w.length) := by
      simp [take_notMem hW.pairwise, List.take_eq_self_iff]
    rw [prefixes_snoc_of_notMem hW.pairwise hn (hstop.notMem (by omega)), Nat.succ_eq_add_one,
      hsnoc, itemArrays_snoc, itemArrays_words_snoc hW, ← hsnoc, hstop.isFirst_take hW hcn hn,
      hword]
  · rw [prefixes_snoc_of_mem hW.pairwise, itemArrays_words_snoc hW]
    exact fun hn => hstop.mem (Nat.succ_pos n) (by omega)

theorem levelOf_snoc (left right : Bool) (n : ℕ) :
    levelOf (leaves ++ [⟨w, left, right⟩]) n =
      storeParentheses n ⟨w, left, right⟩ (inserted leaves c w n) := by
  have hwords : words (leaves ++ [⟨w, left, right⟩]) = words leaves ++ [w] := by simp [words]
  rw [levelOf, hwords, itemArrays_prefixes_snoc hW hstop n, List.filter_append]
  by_cases hend : w.length = n + 1
  · have hnew : c ≤ n ∧ n < w.length := by
      have := hstop.lt
      omega
    rw [if_pos hnew, inserted, if_pos hnew]
    simp [levelOf, storeParentheses, pushItem, BuilderLevel.insertItem,
      BuilderLevel.storeLeftParenthesis, BuilderLevel.storeRightParenthesis, hend]
  · rw [inserted, storeParentheses, if_neg (Ne.symm hend)]
    split_ifs with hnew
    · simp [levelOf, pushItem, BuilderLevel.insertItem, hend]
    · simp [levelOf, hend]

end Levels

section Keys

theorem isLevelEmpty_eq (hlevel : ∀ i, b.level i = levelOf leaves i) (c : ℕ) :
    b.isLevelEmpty c = startsNode leaves c c := by
  have hlabels : (b.level c).labels.length = 0 ↔ prefixes (words leaves) (c + 1) = [] := by
    simp [hlevel, levelOf, itemArrays]
  have habsent : b.getTreeHeight ≤ c → prefixes (words leaves) (c + 1) = [] := by
    intro hle
    apply List.eq_nil_iff_forall_not_mem.mpr
    intro x hx
    exact absurd (lt_getTreeHeight_of_mem hlevel hx) (not_lt.mpr hle)
  rw [Bool.eq_iff_iff]
  simp only [isLevelEmpty, startsNode, ne_eq, not_true_eq_false, false_or, Bool.or_eq_true,
    decide_eq_true_eq, beq_iff_eq, hlabels]
  exact ⟨fun h => h.elim habsent id, Or.inr⟩

theorem StopsAt.le_getTreeHeight (hstop : StopsAt (words leaves) w c)
    (hlevel : ∀ i, b.level i = levelOf leaves i) : c ≤ b.getTreeHeight := by
  cases c with
  | zero => exact Nat.zero_le _
  | succ n => exact lt_getTreeHeight_of_mem hlevel (hstop.mem (Nat.succ_pos n) le_rfl)

/-- All symbols of the key's word from the depth on at which it leaves the trie are inserted. -/
theorem insertKeyBytesToTrieUntilLevel_spec {key next : Bytes} {endLevel : ℕ}
    (hW : Ascending (words leaves ++ [wordOf key next]))
    (hlevel : ∀ i, b.level i = levelOf leaves i)
    (hstop : StopsAt (words leaves) (wordOf key next) c) (hc : c < key.length)
    (hend : key.length ≤ endLevel + 1) :
    Inserting leaves c b.getTreeHeight (wordOf key next)
        (b.insertKeyBytesToTrieUntilLevel key next c endLevel).1 ∧
      (b.insertKeyBytesToTrieUntilLevel key next c endLevel).2 = (wordOf key next).length := by
  have hparent := hstop.hasParent hW
  have hlen : (symbols (key.take c)).length = c := by simp [hc.le]
  have hstart : Inserting leaves c b.getTreeHeight (symbols (key.take c)) b := by
    refine ⟨fun i => ?_, ?_, le_rfl⟩
    · rw [hlevel, inserted, hlen, if_neg (by omega)]
    · rw [hlen]
      exact hstop.le_getTreeHeight hlevel
  have hfirst := hstart.snoc hlen.ge hparent ((key.getD c 0 : Fin 256) : Symbol)
  rw [hlen, ← isLevelEmpty_eq hlevel] at hfirst
  have hsnoc : symbols (key.take c) ++ [((key.getD c 0 : Fin 256) : Symbol)] =
      symbols (key.take (c + 1)) := by
    rw [List.take_succ_eq_append_getElem hc, symbols_append, List.getD_eq_getElem _ _ hc]
    rfl
  rw [hsnoc] at hfirst
  have hlen' : (symbols (key.take (c + 1))).length = c + 1 := by
    rw [length_symbols, List.length_take_of_le hc]
  have hdrop : c + 1 + (key.drop (c + 1)).length = key.length := by
    rw [List.length_drop]
    omega
  have hmax : (symbols (key.take (c + 1))).length + (key.drop (c + 1)).length ≤ endLevel + 1 := by
    omega
  obtain ⟨hbytes, hcount⟩ := hfirst.insertKeyBytes hparent (by omega) hmax
  rw [← symbols_append, List.take_append_drop, hlen'] at hbytes
  rw [hlen', hdrop] at hcount
  have hne : c ≠ endLevel + 1 := by omega
  simp only [insertKeyBytesToTrieUntilLevel, hne, if_false]
  simp only [Symbol.label_coe, WithBot.coe_ne_bot, decide_false] at hbytes hcount
  rw [hcount]
  by_cases hpre : key <+: next
  · -- the terminator opens a node too, one level below the key's last byte
    have hword : wordOf key next = symbols key ++ [⊥] := by simp [wordOf, hpre]
    have hterm := hbytes.snoc (by simp [hc.le]) hparent ⊥
    have hstarts : startsNode leaves c (symbols key).length = true := by
      simp [startsNode, hc.ne']
    rw [hstarts, length_symbols] at hterm
    simp only [hpre, true_and, if_true, hword]
    exact ⟨hterm, by simp⟩
  · have hword : wordOf key next = symbols key := by simp [wordOf, hpre]
    simp only [hpre, and_false, if_false, hword]
    exact ⟨hbytes, by simp⟩

structure Built (leaves : List Leaf) (b : SuRFBuilder) : Prop where
  level : ∀ i, b.level i = levelOf leaves i
  height : ∀ e ∈ leaves, e.word.length < b.getTreeHeight

theorem built_empty : Built [] empty where
  level i := by simp [levelOf, itemArrays, words, prefixes]
  height := by simp

theorem insertParentheses_eq (left right : Bool) {n : ℕ} (hn : n ≤ b.getTreeHeight) :
    ((b.insertSuffix n).insertLeftParenthesis left n).insertRightParenthesis right n =
      ((b.ensureLevel n).modifyLevel (n - 1) fun l => l.storeLeftParenthesis left).modifyLevel
        (n - 1) fun l => l.storeRightParenthesis right := by
  have hheight := getTreeHeight_ensureLevel b _ hn
  have hpresent {b' : SuRFBuilder} (hb' : b'.getTreeHeight = max b.getTreeHeight (n + 1)) :
      b'.ensureLevel n = b' := by
    rw [ensureLevel, if_neg (by omega)]
  simp only [insertSuffix, insertLeftParenthesis, insertRightParenthesis]
  rw [hpresent hheight, hpresent (by rw [getTreeHeight_modifyLevel, hheight])]

theorem Built.insertKey {maxNumLevel : ℕ} {k : ParenKey Bytes} {next : Bytes}
    (hb : Built leaves b) (hW : Ascending (words leaves ++ [wordOf k.key next]))
    (hne : k.key ≠ []) (hmax : k.key.length ≤ maxNumLevel) :
    Built (leaves ++ [⟨wordOf k.key next, k.left, k.right⟩])
      (insertKey maxNumLevel b k next) := by
  have htail : (if k.key <+: next then [(⊥ : Symbol)] else []) = [] ∨
      (if k.key <+: next then [(⊥ : Symbol)] else []) = [⊥] := by
    split_ifs
    · exact Or.inr rfl
    · exact Or.inl rfl
  have hroot : words leaves = [] ∧ ([] : Bytes) = [] ∨
      (wordOf k.key next).take ([] : Bytes).length ∈
        prefixes (words leaves) ([] : Bytes).length := by
    cases hwords : words leaves with
    | nil => exact Or.inl ⟨rfl, rfl⟩
    | cons v W => exact Or.inr (mem_prefixes.mpr ⟨by simp, v, by simp, by simp⟩)
  obtain ⟨hlevel, hheight, hstop, hc⟩ :=
    skipCommonPrefix_spec hW hb.level rfl htail hne hmax (List.nil_append k.key).symm hroot
  obtain ⟨hins, hlen⟩ := insertKeyBytesToTrieUntilLevel_spec hW hlevel hstop hc
    (by omega : k.key.length ≤ maxNumLevel - 1 + 1)
  simp only [SuRFBuilder.insertKey, List.length_nil] at hins hlen hstop ⊢
  rw [hlen, insertParentheses_eq _ _ hins.length]
  have hpos : 0 < (wordOf k.key next).length := (Nat.zero_le _).trans_lt hstop.lt
  have hgrown := getTreeHeight_ensureLevel _ _ hins.length
  constructor
  · intro i
    rw [level_modifyLevel _ _ _ _ (by rw [getTreeHeight_modifyLevel]; omega),
      level_modifyLevel _ _ _ _ (by omega), level_ensureLevel, hins.level,
      levelOf_snoc hW hstop, storeParentheses]
    by_cases hi : i = (wordOf k.key next).length - 1
    · rw [if_pos hi, if_pos hi, if_pos (by simp only; omega)]
    · rw [if_neg hi, if_neg hi, if_neg (by simp only; omega)]
  · intro e he
    rw [getTreeHeight_modifyLevel, getTreeHeight_modifyLevel, hgrown]
    rcases List.mem_append.mp he with he | he
    · have hold := hb.height e he
      have hkept := hins.height
      simp only [List.length_nil] at hheight
      omega
    · rw [List.mem_singleton.mp he]
      simp only
      omega

theorem Built.buildSparseWithparentheses {maxNumLevel : ℕ} {rest : List (ParenKey Bytes)}
    {previous : Option Bytes} (hb : Built leaves b)
    (hW : Ascending (words (leaves ++ leavesOf rest)))
    (hkeys : rest.Pairwise fun a b => a.key < b.key)
    (hprevious : ∀ k ∈ rest, previous ≠ some k.key) (hne : ∀ k ∈ rest, k.key ≠ [])
    (hmax : ∀ k ∈ rest, k.key.length ≤ maxNumLevel) :
    Built (leaves ++ leavesOf rest)
      (SuRFBuilder.buildSparseWithparentheses maxNumLevel b previous rest) := by
  induction rest generalizing leaves b previous with
  | nil => simpa [SuRFBuilder.buildSparseWithparentheses, leavesOf] using hb
  | cons k rest ih =>
    obtain ⟨hfirst, hrest⟩ := List.pairwise_cons.mp hkeys
    have hassoc : leaves ++ leavesOf (k :: rest) =
        leaves ++ [⟨wordOf k.key (nextKey k.key rest), k.left, k.right⟩] ++ leavesOf rest := by
      simp [leavesOf]
    rw [hassoc] at hW ⊢
    have hWk : Ascending (words leaves ++ [wordOf k.key (nextKey k.key rest)]) := by
      have hsub : (words leaves ++ [wordOf k.key (nextKey k.key rest)]).Sublist
          (words (leaves ++ [⟨wordOf k.key (nextKey k.key rest), k.left, k.right⟩] ++
            leavesOf rest)) := by
        simp [words]
      exact ⟨hW.pairwise.sublist hsub, fun w hw => hW.nonempty w (hsub.subset hw)⟩
    have hinsert := hb.insertKey hWk (hne k (by simp)) (hmax k (by simp))
    rw [SuRFBuilder.buildSparseWithparentheses, if_neg (hprevious k (by simp))]
    apply ih hinsert hW hrest
    · intro k' hk' heq
      exact (hfirst k' hk').ne (Option.some.inj heq)
    · exact fun k' hk' => hne k' (List.mem_cons_of_mem k hk')
    · exact fun k' hk' => hmax k' (List.mem_cons_of_mem k hk')

theorem built_build {maxNumLevel : ℕ} {keys : List (ParenKey Bytes)}
    (hkeys : keys.Pairwise fun a b => a.key < b.key) (hne : ∀ k ∈ keys, k.key ≠ [])
    (hmax : ∀ k ∈ keys, k.key.length ≤ maxNumLevel) :
    Built (leavesOf keys) (build maxNumLevel keys) := by
  have hW : Ascending (words ([] ++ leavesOf keys)) :=
    (trieWords_leavesOf hkeys hne).toAscending
  exact built_empty.buildSparseWithparentheses hW hkeys (by simp) hne hmax

end Keys

end Spry.SuRFBuilder
