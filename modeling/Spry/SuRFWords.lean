import Spry.Louds.Levels
import Spry.SuRFBuilder

/-!
# The words of a trie's keys

A stored key is a word over the bytes and the terminator, which comes before every byte. The words
of ascending keys are ascending and none is a prefix of another, and the arrays that the builder
leaves for a level are the items of that level in the trie of the words.
-/

namespace Spry

open HalfOpen Louds

/-- A byte, or the terminator of a key that is a prefix of the next one. -/
abbrev Symbol := WithBot (Fin 256)

instance : LawfulBEq (List Symbol) := inferInstance

namespace Symbol

def label (a : Symbol) : Fin 256 := a.unbotD kTerminator

@[simp] theorem label_coe (c : Fin 256) : label (c : Symbol) = c := rfl

@[simp] theorem label_bot : label ⊥ = kTerminator := rfl

end Symbol

structure Leaf where
  word : List Symbol
  left : Bool
  right : Bool

def symbols (key : Bytes) : List Symbol := key.map WithBot.some

def wordOf (key next : Bytes) : List Symbol :=
  symbols key ++ if key <+: next then [⊥] else []

def leavesOf : List (ParenKey Bytes) → List Leaf
  | [] => []
  | k :: rest =>
    ⟨wordOf k.key (SuRFBuilder.nextKey k.key rest), k.left, k.right⟩ :: leavesOf rest

def words (leaves : List Leaf) : List (List Symbol) := leaves.map Leaf.word

def itemLabel (x : List Symbol) : Fin 256 := (x.getLastD ⊥).label

def itemArrays (W items : List (List Symbol)) : BuilderLevel where
  labels := items.map itemLabel
  childIndicatorBits := items.map fun x => decide (x ∉ W)
  loudsBits := items.map (isFirst W)
  nodeCount := items.countP (isFirst W)
  isLastItemTerminator := decide (items.getLast?.bind List.getLast? = some ⊥)

def levelOf (leaves : List Leaf) (n : ℕ) : BuilderLevel :=
  { itemArrays (words leaves) (prefixes (words leaves) (n + 1)) with
    leftParentheses := (leaves.filter fun e => e.word.length = n + 1).map Leaf.left
    rightParentheses := (leaves.filter fun e => e.word.length = n + 1).map Leaf.right }

section Symbols

@[simp] theorem length_symbols (key : Bytes) : (symbols key).length = key.length := by
  simp [symbols]

theorem symbols_append (a b : Bytes) : symbols (a ++ b) = symbols a ++ symbols b := by
  simp [symbols]

theorem symbols_injective : Function.Injective symbols := fun _ _ h =>
  List.map_injective_iff.mpr WithBot.coe_injective h

theorem bot_notMem_symbols (key : Bytes) : ⊥ ∉ symbols key := by
  simp [symbols]

theorem isPrefix_symbols {a b : Bytes} : symbols a <+: symbols b ↔ a <+: b := by
  constructor
  · rintro ⟨t, ht⟩
    obtain ⟨c, d, rfl, hc, -⟩ : ∃ c d, b = c ++ d ∧ symbols c = symbols a ∧ symbols d = t :=
      List.append_eq_map_iff.mp ht
    exact ⟨d, by rw [symbols_injective hc]⟩
  · rintro ⟨t, rfl⟩
    exact ⟨symbols t, (symbols_append a t).symm⟩

theorem precedes_symbols {a b : Bytes} :
    Precedes (symbols a) (symbols b) ↔ a < b ∧ ¬ a <+: b := by
  induction a generalizing b with
  | nil => simp [symbols]
  | cons x a ih =>
    cases b with
    | nil => simp [symbols]
    | cons y b =>
      have hrec : Precedes (symbols (x :: a)) (symbols (y :: b)) ↔
          x < y ∨ (x = y ∧ Precedes (symbols a) (symbols b)) := by
        simp [symbols, WithBot.coe_lt_coe]
      rw [hrec, ih, List.cons_lt_cons_iff, List.cons_prefix_cons]
      constructor
      · rintro (h | ⟨rfl, h₁, h₂⟩)
        · exact ⟨Or.inl h, fun h' => h.ne h'.1⟩
        · exact ⟨Or.inr ⟨rfl, h₁⟩, fun h' => h₂ h'.2⟩
      · rintro ⟨h | ⟨rfl, h⟩, hn⟩
        · exact Or.inl h
        · exact Or.inr ⟨rfl, h, fun h' => hn ⟨rfl, h'⟩⟩

theorem precedes_wordOf {key next after : Bytes} (hlt : key < next) :
    Precedes (wordOf key next) (wordOf next after) := by
  by_cases hpre : key <+: next
  · obtain ⟨t, rfl⟩ := hpre
    cases t with
    | nil => simp at hlt
    | cons c t =>
      have hword : wordOf key (key ++ c :: t) = symbols key ++ [⊥] := by simp [wordOf]
      rw [hword, wordOf, symbols_append, List.append_assoc, Precedes.append_append]
      exact Or.inl (WithBot.bot_lt_coe c)
  · have hword : wordOf key next = symbols key := by simp [wordOf, hpre]
    rw [hword]
    simpa [wordOf] using (precedes_symbols.mpr ⟨hlt, hpre⟩).extend [] _

end Symbols

/-- The words of stored keys: a terminator ends its word, and it has a sibling. -/
structure TrieWords (W : List (List Symbol)) : Prop extends Ascending W where
  shape : ∀ w ∈ W, ∃ key, w = symbols key ∨ w = symbols key ++ [⊥]
  sibling : ∀ p, p ++ [⊥] ∈ W → ∃ c : Fin 256, ∃ v ∈ W, p ++ [(c : Symbol)] <+: v

theorem TrieWords.mem_of_bot_kid {W : List (List Symbol)} {p : List Symbol} (hW : TrieWords W)
    (h : p ++ [⊥] ∈ kids W p) : p ++ [⊥] ∈ W := by
  obtain ⟨_, _, w, hw, hpre⟩ := mem_kids.mp h
  obtain ⟨key, rfl | rfl⟩ := hW.shape w hw
  · have hbot : (⊥ : Symbol) ∈ symbols key := hpre.subset (by simp)
    exact absurd hbot (bot_notMem_symbols key)
  · rcases List.prefix_concat_iff.mp hpre with heq | hpre
    · exact heq ▸ hw
    · have hbot : (⊥ : Symbol) ∈ symbols key := hpre.subset (by simp)
      exact absurd hbot (bot_notMem_symbols key)

section Keys

variable {keys : List (ParenKey Bytes)}

theorem nextKey_cons_of_lt {key : Bytes} {k : ParenKey Bytes} {rest : List (ParenKey Bytes)}
    (hlt : key < k.key) : SuRFBuilder.nextKey key (k :: rest) = k.key := by
  have hne : k.key ≠ key := hlt.ne'
  simp [SuRFBuilder.nextKey, hne]

theorem isChain_words_leavesOf (hkeys : keys.Pairwise fun a b => a.key < b.key) :
    (words (leavesOf keys)).IsChain Precedes := by
  induction keys with
  | nil => exact List.IsChain.nil
  | cons k rest ih =>
    obtain ⟨hfirst, hrest⟩ := List.pairwise_cons.mp hkeys
    cases rest with
    | nil => exact List.IsChain.singleton _
    | cons k' rest =>
      have hlt : k.key < k'.key := hfirst k' (by simp)
      have hhead : Precedes (wordOf k.key (SuRFBuilder.nextKey k.key (k' :: rest)))
          (wordOf k'.key (SuRFBuilder.nextKey k'.key rest)) := by
        rw [nextKey_cons_of_lt hlt]
        exact precedes_wordOf hlt
      exact List.IsChain.cons_cons hhead (ih hrest)

theorem wordOf_shape (key next : Bytes) :
    wordOf key next = symbols key ∨ wordOf key next = symbols key ++ [⊥] := by
  by_cases hpre : key <+: next
  · exact Or.inr (by simp [wordOf, hpre])
  · exact Or.inl (by simp [wordOf, hpre])

theorem of_wordOf_eq_snoc_bot {key next : Bytes} {p : List Symbol}
    (h : wordOf key next = p ++ [⊥]) : key <+: next ∧ p = symbols key := by
  by_cases hpre : key <+: next
  · have hword : symbols key ++ [⊥] = p ++ [⊥] := by simpa [wordOf, hpre] using h
    exact ⟨hpre, (List.append_cancel_right hword).symm⟩
  · have hword : symbols key = p ++ [⊥] := by simpa [wordOf, hpre] using h
    have hmem : (⊥ : Symbol) ∈ symbols key := hword ▸ by simp
    exact absurd hmem (bot_notMem_symbols key)

theorem exists_sibling_leavesOf (hkeys : keys.Pairwise fun a b => a.key < b.key)
    (hne : ∀ k ∈ keys, k.key ≠ []) (p : List Symbol) (hp : p ++ [⊥] ∈ words (leavesOf keys)) :
    ∃ c : Fin 256, ∃ v ∈ words (leavesOf keys), p ++ [(c : Symbol)] <+: v := by
  induction keys with
  | nil => simp [words, leavesOf] at hp
  | cons k rest ih =>
    obtain ⟨hfirst, hrest⟩ := List.pairwise_cons.mp hkeys
    have hcons : words (leavesOf (k :: rest)) =
        wordOf k.key (SuRFBuilder.nextKey k.key rest) :: words (leavesOf rest) := rfl
    rw [hcons, List.mem_cons] at hp
    rw [hcons]
    rcases hp with hp | hp
    · obtain ⟨hpre, rfl⟩ := of_wordOf_eq_snoc_bot hp.symm
      cases rest with
      | nil => exact absurd (by simpa [SuRFBuilder.nextKey] using hpre) (hne k (by simp))
      | cons k' rest =>
        -- the next key goes on behind the terminated one
        have hlt : k.key < k'.key := hfirst k' (by simp)
        rw [nextKey_cons_of_lt hlt] at hpre
        obtain ⟨t, ht⟩ := hpre
        cases t with
        | nil => exact absurd (by simpa using ht) hlt.ne
        | cons c t =>
          refine ⟨c, wordOf k'.key (SuRFBuilder.nextKey k'.key rest), ?_, ?_⟩
          · simp [words, leavesOf]
          · rw [wordOf, ← ht, symbols_append, List.append_assoc]
            exact (List.prefix_append_right_inj _).mpr (by simp [symbols])
    · obtain ⟨c, v, hv, hpre⟩ := ih hrest (fun k hk => hne k (List.mem_cons_of_mem _ hk)) hp
      exact ⟨c, v, List.mem_cons_of_mem _ hv, hpre⟩

theorem exists_key_of_mem_leavesOf {e : Leaf} (he : e ∈ leavesOf keys) :
    ∃ k ∈ keys, ∃ next, e = ⟨wordOf k.key next, k.left, k.right⟩ := by
  induction keys with
  | nil => simp [leavesOf] at he
  | cons k rest ih =>
    rw [leavesOf, List.mem_cons] at he
    rcases he with rfl | he
    · exact ⟨k, by simp, _, rfl⟩
    · obtain ⟨k', hk', next, rfl⟩ := ih he
      exact ⟨k', List.mem_cons_of_mem _ hk', next, rfl⟩

theorem trieWords_leavesOf (hkeys : keys.Pairwise fun a b => a.key < b.key)
    (hne : ∀ k ∈ keys, k.key ≠ []) : TrieWords (words (leavesOf keys)) where
  pairwise := by
    have : IsTrans (List Symbol) Precedes := ⟨fun _ _ _ => Precedes.trans⟩
    exact List.isChain_iff_pairwise.mp (isChain_words_leavesOf hkeys)
  nonempty := by
    intro w hw
    obtain ⟨e, he, rfl⟩ := List.mem_map.mp hw
    obtain ⟨k, hk, next, rfl⟩ := exists_key_of_mem_leavesOf he
    simp [wordOf, symbols, hne k hk]
  shape := by
    intro w hw
    obtain ⟨e, he, rfl⟩ := List.mem_map.mp hw
    obtain ⟨k, hk, next, rfl⟩ := exists_key_of_mem_leavesOf he
    exact ⟨k.key, wordOf_shape k.key next⟩
  sibling := exists_sibling_leavesOf hkeys hne

end Keys

end Spry
