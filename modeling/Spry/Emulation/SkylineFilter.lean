import Spry.Emulation.EntryList

/-!
# The skyline filter of the emulator

Closed ranges with timetags in an ordered set. A new range is newer than all others: it carves
head and tail pieces out of the ones it overlaps. Two neighbours may share an endpoint, so a
lookup at the start of an entry also looks at the entry before it.
-/

namespace Spry.Emulation

structure RangeDeleteEntry where
  start : ℤ
  stop : ℤ
  timetag : ℤ
  deriving DecidableEq, Repr

namespace RangeDeleteEntry

def lt (a b : RangeDeleteEntry) : Bool :=
  if a.start < b.start then true else if a.stop < b.stop then true else false

def Over (e : RangeDeleteEntry) (k : ℤ) : Prop := e.start ≤ k ∧ k ≤ e.stop

instance (e : RangeDeleteEntry) (k : ℤ) : Decidable (e.Over k) :=
  inferInstanceAs (Decidable (_ ∧ _))

/-- Insertion into the set, in front of the first element that is not less. An element that is
equivalent under the comparator keeps its place. -/
def insertInto (x : RangeDeleteEntry) : List RangeDeleteEntry → List RangeDeleteEntry
  | [] => [x]
  | e :: es =>
    if e.lt x then e :: insertInto x es
    else if x.lt e then x :: e :: es
    else e :: es

end RangeDeleteEntry

structure SkylineRangeDeleteFilter where
  rangeDeleteWithTimetagList : List RangeDeleteEntry

namespace SkylineRangeDeleteFilter

open RangeDeleteEntry

def empty : SkylineRangeDeleteFilter := ⟨[]⟩

/-- The loop over the entries: what stays in the set, and the pieces to be added. An entry that
sticks out on both sides passes through variables of type `int`. -/
def carve (start stop : ℤ) :
    List RangeDeleteEntry → List RangeDeleteEntry × List RangeDeleteEntry
  | [] => ([], [])
  | e :: es =>
    if e.stop ≤ start then (e :: (carve start stop es).1, (carve start stop es).2)
    else if stop ≤ e.start then (e :: es, [])
    else if e.start < start ∧ stop < e.stop then
      (es, [⟨toInt e.start, toInt start, toInt e.timetag⟩,
        ⟨toInt stop, toInt e.stop, toInt e.timetag⟩])
    else if e.start < start ∧ e.stop ≤ stop then
      ((carve start stop es).1, ⟨e.start, start, e.timetag⟩ :: (carve start stop es).2)
    else if start ≤ e.start ∧ stop < e.stop then (es, [⟨stop, e.stop, e.timetag⟩])
    else carve start stop es

def addRangeDeleteWithTimetag (f : SkylineRangeDeleteFilter) (new : RangeDeleteEntry) :
    SkylineRangeDeleteFilter :=
  let carved := carve new.start new.stop f.rangeDeleteWithTimetagList
  ⟨carved.2.foldl (fun es e => e.insertInto es) (new.insertInto carved.1)⟩

def isEntryAliveWithTimetag (f : SkylineRangeDeleteFilter) (start timetag : ℤ) : Bool :=
  let key : RangeDeleteEntry := ⟨start, start, timetag⟩
  let before := (f.rangeDeleteWithTimetagList.takeWhile fun e => e.lt key).getLast?
  -- the entry one step back, if there is one
  let back : Bool := match before with
    | none => true
    | some e => if e.stop < start then true else e.timetag < timetag
  match (f.rangeDeleteWithTimetagList.dropWhile fun e => e.lt key).head? with
  | none => back
  | some e =>
    if e.start = start then
      if before = none then e.timetag < timetag
      else if timetag ≤ e.timetag then false
      else back
    else back

end SkylineRangeDeleteFilter

namespace RangeDeleteEntry

variable {x e : RangeDeleteEntry} {es : List RangeDeleteEntry}

structure FitsInt (e : RangeDeleteEntry) : Prop where
  start : e.start ∈ Set.Ico (-2 ^ 31 : ℤ) (2 ^ 31)
  stop : e.stop ∈ Set.Ico (-2 ^ 31 : ℤ) (2 ^ 31)
  timetag : e.timetag ∈ Set.Ico (-2 ^ 31 : ℤ) (2 ^ 31)

def Apart (a b : RangeDeleteEntry) : Prop := a.stop ≤ b.start ∨ b.stop ≤ a.start

structure Linked (es : List RangeDeleteEntry) : Prop where
  proper : ∀ e ∈ es, e.start < e.stop
  apart : es.Pairwise fun a b => a.stop ≤ b.start

theorem lt_iff {a b : RangeDeleteEntry} : a.lt b = true ↔ a.start < b.start ∨ a.stop < b.stop := by
  simp [lt]

theorem Linked.nil : Linked [] := ⟨by simp, List.Pairwise.nil⟩

theorem linked_cons_iff :
    Linked (e :: es) ↔ e.start < e.stop ∧ (∀ y ∈ es, e.stop ≤ y.start) ∧ Linked es := by
  constructor
  · intro h
    obtain ⟨hle, hes⟩ := List.pairwise_cons.mp h.apart
    exact ⟨h.proper e List.mem_cons_self, hle, fun y hy => h.proper y (List.mem_cons_of_mem e hy),
      hes⟩
  · intro h
    exact ⟨List.forall_mem_cons.mpr ⟨h.1, h.2.2.proper⟩,
      List.pairwise_cons.mpr ⟨h.2.1, h.2.2.apart⟩⟩

theorem Linked.sublist {es' : List RangeDeleteEntry} (h : Linked es) (hsub : es'.Sublist es) :
    Linked es' :=
  ⟨fun e he => h.proper e (hsub.subset he), h.apart.sublist hsub⟩

theorem lt_iff_of_apart (he : e.start < e.stop) (hx : x.start < x.stop) (h : Apart e x) :
    e.lt x = true ↔ e.stop ≤ x.start := by
  rw [lt_iff]
  cases h with
  | inl h => omega
  | inr h => omega

theorem insertInto_spec (hes : Linked es) (hx : x.start < x.stop) (h : ∀ e ∈ es, Apart e x) :
    Linked (x.insertInto es) ∧ ∀ y, y ∈ x.insertInto es ↔ y = x ∨ y ∈ es := by
  induction es with
  | nil => exact ⟨linked_cons_iff.mpr ⟨hx, by simp, hes⟩, by simp [insertInto]⟩
  | cons e es ih =>
    obtain ⟨he, hle, hrest⟩ := linked_cons_iff.mp hes
    obtain ⟨hlinked, hmem⟩ := ih hrest fun y hy => h y (List.mem_cons_of_mem e hy)
    have hapart := h e List.mem_cons_self
    have hlt := lt_iff_of_apart he hx hapart
    rw [insertInto]
    by_cases hbefore : e.stop ≤ x.start
    · rw [if_pos (hlt.mpr hbefore)]
      refine ⟨linked_cons_iff.mpr ⟨he, fun y hy => ?_, hlinked⟩, fun y => ?_⟩
      · cases (hmem y).mp hy with
        | inl heq => exact heq ▸ hbefore
        | inr hy => exact hle y hy
      · rw [List.mem_cons, hmem y, List.mem_cons]
        exact or_left_comm
    · have hafter : x.stop ≤ e.start := hapart.resolve_left hbefore
      have hgt : x.lt e = true := (lt_iff_of_apart hx he (Or.inl hafter)).mpr hafter
      rw [if_neg fun h => hbefore (hlt.mp h), if_pos hgt]
      refine ⟨linked_cons_iff.mpr ⟨hx, fun y hy => ?_, hes⟩, fun y => List.mem_cons⟩
      cases List.mem_cons.mp hy with
      | inl heq => exact heq ▸ hafter
      | inr hy => exact (hafter.trans he.le).trans (hle y hy)

theorem foldl_insertInto_spec {xs : List RangeDeleteEntry} (hes : Linked es)
    (hproper : ∀ x ∈ xs, x.start < x.stop) (hxs : xs.Pairwise Apart)
    (h : ∀ e ∈ es, ∀ x ∈ xs, Apart e x) :
    Linked (xs.foldl (fun es x => x.insertInto es) es) ∧
      ∀ y, y ∈ xs.foldl (fun es x => x.insertInto es) es ↔ y ∈ xs ∨ y ∈ es := by
  induction xs generalizing es with
  | nil => exact ⟨hes, by simp⟩
  | cons x xs ih =>
    obtain ⟨hx, hxs⟩ := List.pairwise_cons.mp hxs
    obtain ⟨hlinked, hmem⟩ := insertInto_spec hes (hproper x List.mem_cons_self)
      fun e he => h e he x List.mem_cons_self
    have hrest : ∀ e ∈ x.insertInto es, ∀ y ∈ xs, Apart e y := by
      intro e he y hy
      cases (hmem e).mp he with
      | inl heq => exact heq ▸ hx y hy
      | inr he => exact h e he y (List.mem_cons_of_mem x hy)
    obtain ⟨hfold, hfoldmem⟩ :=
      ih hlinked (fun y hy => hproper y (List.mem_cons_of_mem x hy)) hxs hrest
    refine ⟨hfold, fun y => ?_⟩
    rw [List.foldl_cons, hfoldmem y, hmem y, List.mem_cons]
    tauto

end RangeDeleteEntry

namespace SkylineRangeDeleteFilter

open RangeDeleteEntry

theorem toInt_eq_self {x : ℤ} (h : x ∈ Set.Ico (-2 ^ 31 : ℤ) (2 ^ 31)) : toInt x = x := by
  have hlo := h.1
  have hhi := h.2
  rw [toInt]
  apply Int.bmod_eq_of_le_mul_two
  · omega
  · omega

structure Carves (start stop : ℤ) (es kept pieces : List RangeDeleteEntry) : Prop where
  linked : Linked kept
  apart : pieces.Pairwise Apart
  apart_kept : ∀ x ∈ kept, ∀ p ∈ pieces, Apart x p
  outside : ∀ x ∈ kept ++ pieces, x.start < x.stop ∧ (x.stop ≤ start ∨ stop ≤ x.start)
  within : ∀ x ∈ kept ++ pieces, ∃ y ∈ es,
    y.start ≤ x.start ∧ x.stop ≤ y.stop ∧ x.timetag = y.timetag
  covers : ∀ y ∈ es, ∀ k, y.Over k → (k < start ∨ stop < k) →
    ∃ x ∈ kept ++ pieces, x.Over k ∧ x.timetag = y.timetag

section Carve

variable {start stop : ℤ} {e : RangeDeleteEntry} {es : List RangeDeleteEntry}

theorem Carves.keep (hes : Linked es) (h : ∀ e ∈ es, e.stop ≤ start ∨ stop ≤ e.start) :
    Carves start stop es es [] := by
  refine ⟨hes, List.Pairwise.nil, by simp, ?_, ?_, ?_⟩
  · intro x hx
    rw [List.append_nil] at hx
    exact ⟨hes.proper x hx, h x hx⟩
  · intro x hx
    rw [List.append_nil] at hx
    exact ⟨x, hx, le_rfl, le_rfl, rfl⟩
  · intro y hy k hk _
    exact ⟨y, by simpa using hy, hk, rfl⟩

theorem Carves.replace {pieces : List RangeDeleteEntry} (hapart : pieces.Pairwise Apart)
    (hpieces : ∀ x ∈ pieces, (x.start < x.stop ∧ (x.stop ≤ start ∨ stop ≤ x.start)) ∧
      e.start ≤ x.start ∧ x.stop ≤ e.stop ∧ x.timetag = e.timetag)
    (hcovers : ∀ k, e.Over k → (k < start ∨ stop < k) → ∃ x ∈ pieces, x.Over k) :
    Carves start stop [e] [] pieces := by
  refine ⟨Linked.nil, hapart, by simp, fun x hx => (hpieces x hx).1, fun x hx => ?_, ?_⟩
  · exact ⟨e, List.mem_singleton_self e, (hpieces x hx).2⟩
  · intro y hy k hk hout
    obtain rfl := List.mem_singleton.mp hy
    obtain ⟨x, hx, hxk⟩ := hcovers k hk hout
    exact ⟨x, hx, hxk, (hpieces x hx).2.2.2⟩

theorem Carves.cons {kept pieces kept' pieces' : List RangeDeleteEntry} (hes : Linked (e :: es))
    (hfirst : Carves start stop [e] kept pieces) (hrest : Carves start stop es kept' pieces') :
    Carves start stop (e :: es) (kept ++ kept') (pieces ++ pieces') := by
  obtain ⟨_, hle, _⟩ := linked_cons_iff.mp hes
  have hbefore : ∀ x ∈ kept ++ pieces, ∀ y ∈ kept' ++ pieces', x.stop ≤ y.start := by
    intro x hx y hy
    obtain ⟨e', he', _, hstop, _⟩ := hfirst.within x hx
    obtain ⟨y', hy', hstart, _⟩ := hrest.within y hy
    rw [List.mem_singleton.mp he'] at hstop
    exact (hstop.trans (hle y' hy')).trans hstart
  have hsplit : ∀ x, x ∈ (kept ++ kept') ++ (pieces ++ pieces') ↔
      x ∈ kept ++ pieces ∨ x ∈ kept' ++ pieces' := by
    intro x
    simp only [List.mem_append]
    tauto
  refine ⟨⟨fun x hx => ?_, List.pairwise_append.mpr ⟨hfirst.linked.apart, hrest.linked.apart, ?_⟩⟩,
    List.pairwise_append.mpr ⟨hfirst.apart, hrest.apart, ?_⟩, ?_, fun x hx => ?_, fun x hx => ?_,
    fun y hy k hk hout => ?_⟩
  · cases List.mem_append.mp hx with
    | inl hx => exact hfirst.linked.proper x hx
    | inr hx => exact hrest.linked.proper x hx
  · intro x hx y hy
    exact hbefore x (List.mem_append_left _ hx) y (List.mem_append_left _ hy)
  · intro x hx y hy
    exact Or.inl (hbefore x (List.mem_append_right _ hx) y (List.mem_append_right _ hy))
  · intro x hx p hp
    rcases List.mem_append.mp hx with hx | hx
    · rcases List.mem_append.mp hp with hp | hp
      · exact hfirst.apart_kept x hx p hp
      · exact Or.inl (hbefore x (List.mem_append_left _ hx) p (List.mem_append_right _ hp))
    · rcases List.mem_append.mp hp with hp | hp
      · exact Or.inr (hbefore p (List.mem_append_right _ hp) x (List.mem_append_left _ hx))
      · exact hrest.apart_kept x hx p hp
  · cases (hsplit x).mp hx with
    | inl hx => exact hfirst.outside x hx
    | inr hx => exact hrest.outside x hx
  · cases (hsplit x).mp hx with
    | inl hx =>
      obtain ⟨y, hy, hwithin⟩ := hfirst.within x hx
      rw [List.mem_singleton.mp hy] at hwithin
      exact ⟨e, List.mem_cons_self, hwithin⟩
    | inr hx =>
      obtain ⟨y, hy, hwithin⟩ := hrest.within x hx
      exact ⟨y, List.mem_cons_of_mem e hy, hwithin⟩
  · cases List.mem_cons.mp hy with
    | inl heq =>
      obtain ⟨x, hx, hover⟩ := hfirst.covers y (by simp [heq]) k hk hout
      exact ⟨x, (hsplit x).mpr (Or.inl hx), hover⟩
    | inr hy =>
      obtain ⟨x, hx, hover⟩ := hrest.covers y hy k hk hout
      exact ⟨x, (hsplit x).mpr (Or.inr hx), hover⟩

theorem Carves.both (hlt : start < stop) (hhead : e.start < start) (htail : stop < e.stop) :
    Carves start stop [e] [] [⟨e.start, start, e.timetag⟩, ⟨stop, e.stop, e.timetag⟩] := by
  apply Carves.replace
  · simp [Apart, hlt.le]
  · have hbegin : e.start ≤ stop := (hhead.trans hlt).le
    have hend : start ≤ e.stop := (hlt.trans htail).le
    simp [hhead, htail, hbegin, hend]
  · intro k hk hout
    cases hout with
    | inl hlow => exact ⟨_, List.mem_cons_self, hk.1, hlow.le⟩
    | inr hhigh => exact ⟨_, List.mem_cons_of_mem _ List.mem_cons_self, hhigh.le, hk.2⟩

theorem Carves.head (hhead : e.start < start) (hin : start ≤ e.stop) (htail : e.stop ≤ stop) :
    Carves start stop [e] [] [⟨e.start, start, e.timetag⟩] := by
  apply Carves.replace
  · simp
  · simp [hhead, hin]
  · intro k hk hout
    have hend := hk.2
    exact ⟨_, List.mem_cons_self, hk.1, (by omega : k ≤ start)⟩

theorem Carves.tail (hhead : start ≤ e.start) (hin : e.start ≤ stop) (htail : stop < e.stop) :
    Carves start stop [e] [] [⟨stop, e.stop, e.timetag⟩] := by
  apply Carves.replace
  · simp
  · simp [htail, hin]
  · intro k hk hout
    have hbegin := hk.1
    exact ⟨_, List.mem_cons_self, (by omega : stop ≤ k), hk.2⟩

theorem Carves.whole (hhead : start ≤ e.start) (htail : e.stop ≤ stop) :
    Carves start stop [e] [] [] := by
  apply Carves.replace List.Pairwise.nil (by simp)
  intro k hk hout
  have hbegin := hk.1
  have hend := hk.2
  omega

theorem carves_carve (hes : Linked es) (hfits : ∀ e ∈ es, e.FitsInt) (hlt : start < stop)
    (hstart : start ∈ Set.Ico (-2 ^ 31 : ℤ) (2 ^ 31))
    (hstop : stop ∈ Set.Ico (-2 ^ 31 : ℤ) (2 ^ 31)) :
    Carves start stop es (carve start stop es).1 (carve start stop es).2 := by
  induction es with
  | nil => exact Carves.keep Linked.nil (by simp)
  | cons e es ih =>
    obtain ⟨he, hle, hrest⟩ := linked_cons_iff.mp hes
    have hsingle : Linked [e] := linked_cons_iff.mpr ⟨he, by simp, Linked.nil⟩
    have hlater := ih hrest fun x hx => hfits x (List.mem_cons_of_mem e hx)
    -- where the loop ends, all later entries lie behind the range
    have hbehind : stop ≤ e.stop → Carves start stop es es [] := fun hend =>
      Carves.keep hrest fun y hy => Or.inr (hend.trans (hle y hy))
    rw [carve]
    by_cases h₁ : e.stop ≤ start
    · rw [if_pos h₁]
      exact Carves.cons hes (Carves.keep hsingle (by simp [h₁])) hlater
    by_cases h₂ : stop ≤ e.start
    · rw [if_neg h₁, if_pos h₂]
      exact Carves.cons hes (Carves.keep hsingle (by simp [h₂])) (hbehind (by omega))
    rw [if_neg h₁, if_neg h₂]
    rcases lt_or_ge e.start start with h₃ | h₃
    · rcases lt_or_ge stop e.stop with h₄ | h₄
      · have hint := hfits e List.mem_cons_self
        rw [if_pos ⟨h₃, h₄⟩, toInt_eq_self hint.start, toInt_eq_self hint.stop,
          toInt_eq_self hint.timetag, toInt_eq_self hstart, toInt_eq_self hstop]
        exact Carves.cons hes (Carves.both hlt h₃ h₄) (hbehind h₄.le)
      · rw [if_neg (by omega), if_pos ⟨h₃, h₄⟩]
        exact Carves.cons hes (Carves.head h₃ (by omega) h₄) hlater
    · rcases lt_or_ge stop e.stop with h₄ | h₄
      · rw [if_neg (by omega), if_neg (by omega), if_pos ⟨h₃, h₄⟩]
        exact Carves.cons hes (Carves.tail h₃ (by omega) h₄) (hbehind h₄.le)
      · rw [if_neg (by omega), if_neg (by omega), if_neg (by omega)]
        exact Carves.cons hes (Carves.whole h₃ h₄) hlater

end Carve

variable {f : SkylineRangeDeleteFilter} {new : RangeDeleteEntry} {added : List RangeDeleteEntry}
  {k t : ℤ}

def Deleted (es : List RangeDeleteEntry) (k t : ℤ) : Prop := ∃ e ∈ es, e.Over k ∧ t ≤ e.timetag

structure Represents (f : SkylineRangeDeleteFilter) (added : List RangeDeleteEntry) : Prop where
  linked : Linked f.rangeDeleteWithTimetagList
  fits : ∀ e ∈ f.rangeDeleteWithTimetagList, e.FitsInt
  timetag : ∀ e ∈ f.rangeDeleteWithTimetagList, ∃ a ∈ added, a.timetag = e.timetag
  deleted_iff : ∀ k t, Deleted f.rangeDeleteWithTimetagList k t ↔ Deleted added k t

theorem represents_empty : Represents empty [] :=
  ⟨Linked.nil, by simp [empty], by simp [empty], fun _ _ => Iff.rfl⟩

theorem addRangeDeleteWithTimetag_spec (hlinked : Linked f.rangeDeleteWithTimetagList)
    (hfits : ∀ e ∈ f.rangeDeleteWithTimetagList, e.FitsInt) (hlt : new.start < new.stop)
    (hint : new.FitsInt) :
    ∃ kept pieces, Carves new.start new.stop f.rangeDeleteWithTimetagList kept pieces ∧
      Linked (f.addRangeDeleteWithTimetag new).rangeDeleteWithTimetagList ∧
      ∀ y, y ∈ (f.addRangeDeleteWithTimetag new).rangeDeleteWithTimetagList ↔
        y = new ∨ y ∈ kept ++ pieces := by
  have hcarves := carves_carve hlinked hfits hlt hint.start hint.stop
  generalize hcarved : carve new.start new.stop f.rangeDeleteWithTimetagList = carved at hcarves
  obtain ⟨kept, pieces⟩ := carved
  obtain ⟨hlinked, hmem⟩ := insertInto_spec hcarves.linked hlt fun e he =>
    (hcarves.outside e (List.mem_append_left _ he)).2
  have hapart : ∀ e ∈ new.insertInto kept, ∀ p ∈ pieces, Apart e p := by
    intro e he p hp
    cases (hmem e).mp he with
    | inl heq => exact heq ▸ (hcarves.outside p (List.mem_append_right _ hp)).2.symm
    | inr he => exact hcarves.apart_kept e he p hp
  obtain ⟨hlinked', hmem'⟩ := foldl_insertInto_spec hlinked
    (fun p hp => (hcarves.outside p (List.mem_append_right _ hp)).1) hcarves.apart hapart
  have hlist : (f.addRangeDeleteWithTimetag new).rangeDeleteWithTimetagList =
      pieces.foldl (fun es e => e.insertInto es) (new.insertInto kept) := by
    rw [addRangeDeleteWithTimetag, hcarved]
  refine ⟨kept, pieces, hcarves, hlist ▸ hlinked', fun y => ?_⟩
  rw [hlist, hmem' y, hmem y, List.mem_append]
  tauto

theorem Represents.add (hf : f.Represents added) (hlt : new.start < new.stop)
    (hint : new.FitsInt) (hnew : ∀ a ∈ added, a.timetag < new.timetag) :
    (f.addRangeDeleteWithTimetag new).Represents (added ++ [new]) := by
  obtain ⟨kept, pieces, hcarves, hlinked, hparts⟩ :=
    addRangeDeleteWithTimetag_spec hf.linked hf.fits hlt hint
  refine ⟨hlinked, fun e he => ?_, fun e he => ?_, fun k t => ?_⟩
  · cases (hparts e).mp he with
    | inl heq => exact heq ▸ hint
    | inr he =>
      obtain ⟨y, hy, hstart, hstop, htag⟩ := hcarves.within e he
      have hproper := (hcarves.outside e he).1
      have hfits := hf.fits y hy
      have h₁ := hfits.start.1
      have h₂ := hfits.stop.2
      exact ⟨⟨by omega, by omega⟩, ⟨by omega, by omega⟩, htag ▸ hfits.timetag⟩
  · cases (hparts e).mp he with
    | inl heq => exact ⟨new, by simp, by rw [heq]⟩
    | inr he =>
      obtain ⟨y, hy, _, _, htag⟩ := hcarves.within e he
      obtain ⟨a, ha, hatag⟩ := hf.timetag y hy
      exact ⟨a, by simp [ha], hatag.trans htag.symm⟩
  · have hsnoc : Deleted (added ++ [new]) k t ↔
        Deleted added k t ∨ (new.Over k ∧ t ≤ new.timetag) := by
      simp [Deleted, or_and_right, exists_or]
    rw [hsnoc, ← hf.deleted_iff]
    constructor
    · rintro ⟨e, he, hover, hle⟩
      cases (hparts e).mp he with
      | inl heq => exact Or.inr ⟨heq ▸ hover, heq ▸ hle⟩
      | inr he =>
        obtain ⟨y, hy, hstart, hstop, htag⟩ := hcarves.within e he
        exact Or.inl ⟨y, hy, ⟨hstart.trans hover.1, hover.2.trans hstop⟩, htag ▸ hle⟩
    · rintro (⟨y, hy, hover, hle⟩ | ⟨hover, hle⟩)
      · by_cases hnewOver : new.Over k
        · -- an older entry does not matter below the new range
          obtain ⟨a, ha, hatag⟩ := hf.timetag y hy
          have hnewer := hnew a ha
          exact ⟨new, (hparts new).mpr (Or.inl rfl), hnewOver, by omega⟩
        · have hout : k < new.start ∨ new.stop < k := by
            simp only [Over] at hnewOver
            omega
          obtain ⟨x, hx, hxover, htag⟩ := hcarves.covers y hy k hover hout
          exact ⟨x, (hparts x).mpr (Or.inr hx), hxover, htag ▸ hle⟩
      · exact ⟨new, (hparts new).mpr (Or.inl rfl), hover, hle⟩

theorem represents_foldl (hproper : ∀ a ∈ added, a.start < a.stop)
    (hint : ∀ a ∈ added, a.FitsInt) (hnew : added.Pairwise fun a b => a.timetag < b.timetag) :
    (added.foldl addRangeDeleteWithTimetag empty).Represents added := by
  induction added using List.reverseRecOn with
  | nil => exact represents_empty
  | append_singleton added a ih =>
    obtain ⟨hbefore, _, hlast⟩ := List.pairwise_append.mp hnew
    have hf := ih (fun b hb => hproper b (List.mem_append_left _ hb))
      (fun b hb => hint b (List.mem_append_left _ hb)) hbefore
    have ha : a ∈ added ++ [a] := by simp
    rw [List.foldl_append]
    exact hf.add (hproper a ha) (hint a ha) fun b hb => hlast b hb a (List.mem_singleton_self a)

section Lookup

variable {es : List RangeDeleteEntry}

theorem deleted_append {es es' : List RangeDeleteEntry} :
    Deleted (es ++ es') k t ↔ Deleted es k t ∨ Deleted es' k t := by
  simp [Deleted, or_and_right, exists_or]

theorem deleted_iff_getLast? (hes : Linked es) (hlt : ∀ e ∈ es, e.start < k) :
    Deleted es k t ↔ ∃ e ∈ es.getLast?, k ≤ e.stop ∧ t ≤ e.timetag := by
  induction es using List.reverseRecOn with
  | nil => simp [Deleted]
  | append_singleton es last =>
    obtain ⟨_, _, hbefore⟩ := List.pairwise_append.mp hes.apart
    have hlast : last.start < k := hlt last (by simp)
    have hout : ¬ Deleted es k t := by
      rintro ⟨e, he, hover, _⟩
      have hend := hbefore e he last (List.mem_singleton_self last)
      have hreach := hover.2
      omega
    rw [deleted_append, or_iff_right hout]
    simp [Deleted, Over, hlast.le]

theorem deleted_iff_head? (hes : Linked es) (hle : ∀ e ∈ es, k ≤ e.start) :
    Deleted es k t ↔ ∃ e ∈ es.head?, e.start = k ∧ t ≤ e.timetag := by
  cases es with
  | nil => simp [Deleted]
  | cons e es =>
    obtain ⟨hproper, hbehind, _⟩ := linked_cons_iff.mp hes
    have hfirst : k ≤ e.start := hle e List.mem_cons_self
    have hover : e.Over k ↔ e.start = k := by
      rw [Over]
      omega
    have hout : ¬ Deleted es k t := by
      rintro ⟨y, hy, hyover, _⟩
      have hbegin := hbehind y hy
      have hreach := hyover.1
      omega
    change Deleted ([e] ++ es) k t ↔ _
    rw [deleted_append, or_iff_left hout]
    simp [Deleted, hover]

theorem lt_key_iff {e : RangeDeleteEntry} (he : e.start < e.stop) :
    e.lt ⟨k, k, t⟩ = true ↔ e.start < k := by
  rw [lt_iff]
  exact ⟨fun h => h.elim id he.trans, Or.inl⟩

theorem le_start_of_mem_dropWhile (hes : Linked es) :
    ∀ e ∈ es.dropWhile fun e => e.lt ⟨k, k, t⟩, k ≤ e.start := by
  induction es with
  | nil => simp
  | cons e es ih =>
    obtain ⟨he, hle, hrest⟩ := linked_cons_iff.mp hes
    by_cases hlt : e.lt ⟨k, k, t⟩ = true
    · rw [List.dropWhile_cons, if_pos hlt]
      exact ih hrest
    · rw [List.dropWhile_cons, if_neg hlt]
      have hfirst : k ≤ e.start := not_lt.mp fun h => hlt ((lt_key_iff he).mpr h)
      intro y hy
      cases List.mem_cons.mp hy with
      | inl heq => exact heq ▸ hfirst
      | inr hy => exact (hfirst.trans he.le).trans (hle y hy)

theorem isEntryAliveWithTimetag_eq_false_iff (hf : Linked f.rangeDeleteWithTimetagList) :
    f.isEntryAliveWithTimetag k t = false ↔ Deleted f.rangeDeleteWithTimetagList k t := by
  have hsplit := List.takeWhile_append_dropWhile
    (p := fun e : RangeDeleteEntry => e.lt ⟨k, k, t⟩) (l := f.rangeDeleteWithTimetagList)
  have hfront : Linked (f.rangeDeleteWithTimetagList.takeWhile fun e => e.lt ⟨k, k, t⟩) :=
    hf.sublist (List.takeWhile_sublist _)
  have hback : Linked (f.rangeDeleteWithTimetagList.dropWhile fun e => e.lt ⟨k, k, t⟩) :=
    hf.sublist (List.dropWhile_sublist _)
  have hlt : ∀ e ∈ f.rangeDeleteWithTimetagList.takeWhile fun e => e.lt ⟨k, k, t⟩, e.start < k :=
    fun e he => (lt_key_iff (hfront.proper e he)).mp
      (List.mem_takeWhile_imp (p := fun e : RangeDeleteEntry => e.lt ⟨k, k, t⟩) he)
  have hle := le_start_of_mem_dropWhile (k := k) (t := t) hf
  conv_rhs => rw [← hsplit]
  rw [deleted_append, deleted_iff_getLast? hfront hlt, deleted_iff_head? hback hle,
    isEntryAliveWithTimetag]
  generalize (f.rangeDeleteWithTimetagList.takeWhile fun e => e.lt ⟨k, k, t⟩).getLast? = before
  generalize (f.rangeDeleteWithTimetagList.dropWhile fun e => e.lt ⟨k, k, t⟩).head? = here
  cases before with
  | none =>
    cases here with
    | none => simp
    | some e =>
      by_cases hstart : e.start = k
      · simp [hstart]
      · simp [hstart]
  | some b =>
    cases here with
    | none =>
      by_cases hstop : b.stop < k
      · simp [hstop]
      · simp [hstop, not_lt.mp hstop]
    | some e =>
      by_cases hstart : e.start = k
      · by_cases hold : t ≤ e.timetag
        · simp [hstart, hold]
        · by_cases hstop : b.stop < k
          · simp [hstart, hold, hstop]
          · simp [hstart, hold, hstop, not_lt.mp hstop]
      · by_cases hstop : b.stop < k
        · simp [hstart, hstop]
        · simp [hstart, hstop, not_lt.mp hstop]

end Lookup

/-- For ranges of more than one key, with values of type `int`, a lookup is wrong at ties only:
the newest range over the key may not have the timetag of the lookup. -/
theorem isEntryAliveWithTimetag_exact_iff (hproper : ∀ a ∈ added, a.start < a.stop)
    (hint : ∀ a ∈ added, a.FitsInt) (hnew : added.Pairwise fun a b => a.timetag < b.timetag)
    (k t : ℤ) :
    ((added.foldl addRangeDeleteWithTimetag empty).isEntryAliveWithTimetag k t = false ↔
        ∃ a ∈ added, a.Over k ∧ t < a.timetag) ↔
      ∀ a ∈ added, a.Over k → a.timetag = t → ∃ b ∈ added, b.Over k ∧ t < b.timetag := by
  have hrep := represents_foldl hproper hint hnew
  rw [isEntryAliveWithTimetag_eq_false_iff hrep.linked, hrep.deleted_iff k t]
  constructor
  · intro hexact a ha hover htie
    exact hexact.mp ⟨a, ha, hover, htie.ge⟩
  · intro htie
    constructor
    · rintro ⟨a, ha, hover, hle⟩
      rcases hle.lt_or_eq with hlt | heq
      · exact ⟨a, ha, hover, hlt⟩
      · exact htie a ha hover heq.symm
    · rintro ⟨a, ha, hover, hlt⟩
      exact ⟨a, ha, hover, hlt.le⟩

theorem isEntryAliveWithTimetag_exact_sample :
    (([⟨1, 10, 1⟩, ⟨5, 7, 3⟩] : List RangeDeleteEntry).foldl addRangeDeleteWithTimetag
        empty).isEntryAliveWithTimetag 6 2 = false ↔
      ∃ a ∈ ([⟨1, 10, 1⟩, ⟨5, 7, 3⟩] : List RangeDeleteEntry), a.Over 6 ∧ 2 < a.timetag := by
  apply (isEntryAliveWithTimetag_exact_iff _ _ _ 6 2).mpr
  · decide
  · decide
  · simp only [List.forall_mem_cons]
    exact ⟨⟨by decide, by decide, by decide⟩, ⟨by decide, by decide, by decide⟩, by simp⟩
  · decide

/-- A single key in front of a newer range that starts with it: the lookup stops at the key. -/
theorem isEntryAliveWithTimetag_hidden_by_single_key :
    (addRangeDeleteWithTimetag (addRangeDeleteWithTimetag empty ⟨5, 5, 0⟩)
        ⟨5, 9, 2⟩).isEntryAliveWithTimetag 5 1 = true ∧
      (⟨5, 9, 2⟩ : RangeDeleteEntry).Over 5 ∧ (1 : ℤ) < 2 := by
  decide

end SkylineRangeDeleteFilter

end Spry.Emulation
