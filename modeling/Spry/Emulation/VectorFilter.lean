import Spry.Emulation.MergeExact

/-!
# The loops of the vector filter

The filter of a level is a vector of closed ranges of type `long`. Its three updates are loops
over the vector and a second list, with an iterator on each. Here the loops are written out: sums
and differences are checked, and the branch of the removal that only prints an error repeats the
iteration.
-/

namespace Spry.Emulation

open ClosedRange
open HalfOpen (StartSorted)

/-- The iterators of `removeRangeDelete` and the vector it builds. The start of the range under
the first iterator is overwritten by the loop. -/
structure RemoveCursor where
  it : List (ℤ × ℤ)
  itDiscard : List (ℤ × ℤ)
  rdListNew : List (ℤ × ℤ)

namespace RemoveCursor

def keepFront (s : RemoveCursor) (rs : List (ℤ × ℤ)) (start : ℤ) (stop : Option ℤ) :
    Loop.Step RemoveCursor (List (ℤ × ℤ)) :=
  stop.elim .exit fun stop => .next { s with it := rs, rdListNew := s.rdListNew ++ [(start, stop)] }

def keepBack (s : RemoveCursor) (rs ds : List (ℤ × ℤ)) (start : Option ℤ) (stop : ℤ) :
    Loop.Step RemoveCursor (List (ℤ × ℤ)) :=
  start.elim .exit fun start => .next { s with it := (start, stop) :: rs, itDiscard := ds }

def step (s : RemoveCursor) : Loop.Step RemoveCursor (List (ℤ × ℤ)) :=
  match s.it, s.itDiscard with
  | [], _ => .done s.rdListNew
  | r :: rs, [] => .next { s with it := rs, rdListNew := s.rdListNew ++ [r] }
  | r :: rs, d :: ds =>
    if d.2 < r.1 then .next { s with itDiscard := ds }
    else if r.2 < d.1 then .next { s with it := rs, rdListNew := s.rdListNew ++ [r] }
    else if r.1 = d.1 ∧ r.2 = d.2 then .next { s with it := rs, itDiscard := ds }
    else if r.1 < d.1 ∧ r.2 ≤ d.2 then s.keepFront rs r.1 (checked (d.1 - 1))
    else if d.1 ≤ r.1 ∧ r.2 ≤ d.2 then .next { s with it := rs }
    else if d.1 ≤ r.1 ∧ d.2 < r.2 then s.keepBack rs ds (checked (d.2 + 1)) r.2
    else if r.1 < d.1 ∧ d.2 < r.2 then
      match checked (d.1 - 1) with
      | none => .exit
      | some stop =>
        keepBack { s with rdListNew := s.rdListNew ++ [(r.1, stop)] } rs ds (checked (d.2 + 1)) r.2
    else .next s

def Safe (s : RemoveCursor) : Prop :=
  (∀ r ∈ s.it, LongRange r) ∧ ∀ d ∈ s.itDiscard, LongRange d

def value (s : RemoveCursor) : List (ℤ × ℤ) := s.rdListNew ++ subtract s.it s.itDiscard

def bound (s : RemoveCursor) : ℕ := s.it.length + s.itDiscard.length

theorem returns_step {s : RemoveCursor} (hs : s.Safe) : Loop.Returns Safe value bound s s.step := by
  obtain ⟨it, itDiscard, new⟩ := s
  obtain ⟨hit, hdiscard⟩ := hs
  cases it with
  | nil => simp [step, Loop.Returns, value, subtract]
  | cons r rs =>
    obtain ⟨hr, hrs⟩ := List.forall_mem_cons.mp hit
    cases itDiscard with
    | nil => exact ⟨⟨hrs, hdiscard⟩, by simp [value, subtract, cut], by simp [bound]⟩
    | cons d ds =>
      obtain ⟨hd, hds⟩ := List.forall_mem_cons.mp hdiscard
      obtain ⟨hr₁, hr₂, hr₃⟩ := hr
      obtain ⟨hd₁, hd₂, hd₃⟩ := hd
      simp only [step]
      split_ifs with h₁ h₂ h₃ h₄ h₅ h₆ h₇
      · have hcut : cut r (d :: ds) = cut r ds := by rw [cut, if_pos h₁]
        exact ⟨⟨hit, hds⟩, by simp only [value, subtract, hcut], by simp [bound]⟩
      · have hcut : cut r (d :: ds) = ([r], d :: ds) := by rw [cut, if_neg h₁, if_pos h₂]
        exact ⟨⟨hrs, hdiscard⟩, by simp [value, subtract, hcut], by simp [bound]⟩
      · have hcut : cut r (d :: ds) = ([], ds) := by rw [cut, if_neg h₁, if_neg h₂, if_pos h₃]
        exact ⟨⟨hrs, hds⟩, by simp [value, subtract, hcut], by simp [bound]; omega⟩
      · have hcut : cut r (d :: ds) = ([(r.1, d.1 - 1)], d :: ds) := by
          rw [cut, if_neg h₁, if_neg h₂, if_neg h₃, if_pos h₄]
        rw [keepFront, checked_eq (by omega) (by omega)]
        exact ⟨⟨hrs, hdiscard⟩, by simp [value, subtract, hcut], by simp [bound]⟩
      · have hcut : cut r (d :: ds) = ([], d :: ds) := by
          rw [cut, if_neg h₁, if_neg h₂, if_neg h₃, if_neg h₄, if_pos h₅]
        exact ⟨⟨hrs, hdiscard⟩, by simp [value, subtract, hcut], by simp [bound]⟩
      · have hcut : cut r (d :: ds) = cut (d.2 + 1, r.2) ds := by
          rw [cut, if_neg h₁, if_neg h₂, if_neg h₃, if_neg h₄, if_neg h₅, if_pos h₆]
        rw [keepBack, checked_eq (by omega) (by omega)]
        refine ⟨⟨List.forall_mem_cons.mpr ⟨?_, hrs⟩, hds⟩, ?_, by simp [bound]⟩
        · exact ⟨hd₁.trans (by simp only; omega), by simp only; omega, hr₃⟩
        · simp only [value, subtract, hcut]
      · have hcut : cut r (d :: ds) =
            ((r.1, d.1 - 1) :: (cut (d.2 + 1, r.2) ds).1, (cut (d.2 + 1, r.2) ds).2) := by
          rw [cut, if_neg h₁, if_neg h₂, if_neg h₃, if_neg h₄, if_neg h₅, if_neg h₆]
        rw [checked_eq (x := d.1 - 1) (by omega) (by omega)]
        simp only [keepBack]
        rw [checked_eq (x := d.2 + 1) (by omega) (by omega)]
        refine ⟨⟨List.forall_mem_cons.mpr ⟨?_, hrs⟩, hds⟩, ?_, by simp [bound]⟩
        · exact ⟨hd₁.trans (by simp only; omega), by simp only; omega, hr₃⟩
        · simp [value, subtract, hcut]
      · -- the error branch: two ranges that meet pass one of the tests
        omega

def Unchecked (s : RemoveCursor) : Prop :=
  ∃ r rs d ds, s.it = r :: rs ∧ s.itDiscard = d :: ds ∧ ¬ d.2 < r.1 ∧ ¬ r.2 < d.1 ∧
    ¬ (r.1 = d.1 ∧ r.2 = d.2) ∧ ¬ (r.1 < d.1 ∧ r.2 ≤ d.2) ∧ ¬ (d.1 ≤ r.1 ∧ r.2 ≤ d.2) ∧
    ¬ (d.1 ≤ r.1 ∧ d.2 < r.2) ∧ ¬ (r.1 < d.1 ∧ d.2 < r.2)

theorem not_unchecked (s : RemoveCursor) : ¬ s.Unchecked := by
  rintro ⟨r, rs, d, ds, -, -, h₁, h₂, h₃, h₄, h₅, h₆, h₇⟩
  omega

end RemoveCursor

/-- The iterators of `splitRangeByPointEntries` and the vector it builds. -/
structure SplitCursor where
  itPoints : List PointEntry
  itRanges : List (ℤ × ℤ)
  rdListNew : List (ℤ × ℤ)

namespace SplitCursor

def step (s : SplitCursor) : Loop.Step SplitCursor (List (ℤ × ℤ)) :=
  match s.itRanges, s.itPoints with
  | [], _ => .done s.rdListNew
  | r :: rs, [] => .next { s with itRanges := rs, rdListNew := s.rdListNew ++ [r] }
  | r :: rs, p :: ps =>
    if p.sortKey < r.1 then .next { s with itPoints := ps }
    else if r.2 < p.sortKey then .next { s with itRanges := rs, rdListNew := s.rdListNew ++ [r] }
    else if p.sortKey = r.1 ∧ p.sortKey = r.2 then .next { s with itPoints := ps, itRanges := rs }
    else if p.sortKey = r.1 then
      (checked (p.sortKey + 1)).elim .exit fun start =>
        .next { s with itPoints := ps, itRanges := (start, r.2) :: rs }
    else if p.sortKey = r.2 then
      (checked (r.2 - 1)).elim .exit fun stop =>
        .next { s with itRanges := rs, rdListNew := s.rdListNew ++ [(r.1, stop)] }
    else if r.1 < p.sortKey ∧ p.sortKey < r.2 then
      (checked (p.sortKey - 1)).elim .exit fun stop =>
        (checked (p.sortKey + 1)).elim .exit fun start =>
          .next ⟨ps, (start, r.2) :: rs, s.rdListNew ++ [(r.1, stop)]⟩
    else .next s

def Safe (s : SplitCursor) : Prop := ∀ r ∈ s.itRanges, LongRange r

def value (s : SplitCursor) : List (ℤ × ℤ) :=
  s.rdListNew ++ puncture s.itRanges (s.itPoints.map PointEntry.sortKey)

def bound (s : SplitCursor) : ℕ := s.itRanges.length + s.itPoints.length

theorem returns_step {s : SplitCursor} (hs : s.Safe) : Loop.Returns Safe value bound s s.step := by
  obtain ⟨itPoints, itRanges, new⟩ := s
  cases itRanges with
  | nil => simp [step, Loop.Returns, value, puncture]
  | cons r rs =>
    obtain ⟨⟨hr₁, hr₂, hr₃⟩, hrs⟩ := List.forall_mem_cons.mp hs
    cases itPoints with
    | nil => exact ⟨hrs, by simp [value, puncture, pierce], by simp [bound]⟩
    | cons p ps =>
      have htail : p.sortKey < r.2 → r.1 ≤ p.sortKey →
          ∀ x ∈ (p.sortKey + 1, r.2) :: rs, LongRange x := fun hlt hle =>
        List.forall_mem_cons.mpr ⟨⟨hr₁.trans (by simp only; omega), hlt, hr₃⟩, hrs⟩
      simp only [step]
      split_ifs with h₁ h₂ h₃ h₄ h₅ h₆
      · exact ⟨hs, by simp [value, puncture, pierce, h₁], by simp [bound]⟩
      · exact ⟨hrs, by simp [value, puncture, pierce, h₁, h₂], by simp [bound]⟩
      · refine ⟨hrs, ?_, by simp [bound]; omega⟩
        simp only [value, List.map_cons, puncture, pierce, if_neg h₁, if_neg h₂, if_pos h₃,
          List.nil_append]
      · rw [checked_eq (x := p.sortKey + 1) (by omega) (by omega)]
        refine ⟨htail (by omega) (by omega), ?_, by simp [bound]⟩
        simp only [value, List.map_cons, puncture, pierce, if_neg h₁, if_neg h₂, if_neg h₃,
          if_pos h₄]
      · rw [checked_eq (x := r.2 - 1) (by omega) (by omega)]
        refine ⟨hrs, ?_, by simp [bound]⟩
        simp only [value, List.map_cons, puncture, pierce, if_neg h₁, if_neg h₂, if_neg h₃,
          if_neg h₄, if_pos h₅, List.append_assoc]
      · rw [checked_eq (x := p.sortKey - 1) (by omega) (by omega), Option.elim_some,
          checked_eq (x := p.sortKey + 1) (by omega) (by omega)]
        refine ⟨htail (by omega) (by omega), ?_, by simp [bound]⟩
        simp only [value, List.map_cons, puncture, pierce, if_neg h₁, if_neg h₂, if_neg h₃,
          if_neg h₄, if_neg h₅, List.append_assoc, List.cons_append, List.nil_append]
      · omega

end SplitCursor

namespace PerlevelRangeDeleteFilter

def addRangeDeleteLoop (fuel : ℕ) (rdList insertList : List (ℤ × ℤ)) :
    Loop.Outcome (List (ℤ × ℤ)) :=
  if EntryList.ascending rdList ∧ EntryList.ascending insertList then
    (Loop.run UniteCursor.step fuel ⟨rdList, insertList, none, 0, [], 0⟩).bind
      fun (rdListNew, _) => .returned rdListNew
  else .exited

def removeRangeDeleteLoop (fuel : ℕ) (rdList discardList : List (ℤ × ℤ)) :
    Loop.Outcome (List (ℤ × ℤ)) :=
  if EntryList.ascending rdList ∧ EntryList.ascending discardList ∧
      rdList.IsChain (fun a b => a.2 < b.1) ∧ discardList.IsChain (fun a b => a.2 ≤ b.1) then
    Loop.run RemoveCursor.step fuel ⟨rdList, discardList, []⟩
  else .exited

def splitRangeByPointEntriesLoop (fuel : ℕ) (rdList : List (ℤ × ℤ)) (points : List PointEntry) :
    Loop.Outcome (List (ℤ × ℤ)) :=
  Loop.run SplitCursor.step fuel ⟨points, rdList, []⟩

theorem addRangeDeleteLoop_eq {rdList insertList : List (ℤ × ℤ)} (hrd : StartSorted rdList)
    (hinsert : StartSorted insertList) (hlong : ∀ r ∈ rdList ++ insertList, LongRange r)
    (hmax : ∀ r ∈ rdList ++ insertList, r.2 < longMax) {fuel : ℕ}
    (hfuel : 2 * (rdList.length + insertList.length) < fuel) :
    addRangeDeleteLoop fuel rdList insertList = .returned (uniteAll rdList insertList) := by
  rw [addRangeDeleteLoop, if_pos ⟨hrd.isChain, hinsert.isChain⟩, run_uniteStep hlong hmax 0 hfuel,
    Loop.Outcome.returned_bind]

theorem removeRangeDeleteLoop_eq {rdList discardList : List (ℤ × ℤ)} (hrd : Ordered rdList)
    (hdiscard : Ordered discardList) (hlong : ∀ r ∈ rdList ++ discardList, LongRange r) {fuel : ℕ}
    (hfuel : rdList.length + discardList.length < fuel) :
    removeRangeDeleteLoop fuel rdList discardList = .returned (subtract rdList discardList) := by
  have hsafe : RemoveCursor.Safe ⟨rdList, discardList, []⟩ :=
    ⟨fun r hr => hlong r (List.mem_append_left _ hr),
      fun r hr => hlong r (List.mem_append_right _ hr)⟩
  rw [removeRangeDeleteLoop, if_pos ⟨hrd.startSorted.isChain, hdiscard.startSorted.isChain,
    hrd.disjoint.isChain, (hdiscard.disjoint.imp le_of_lt).isChain⟩,
    Loop.run_returns (fun _ => RemoveCursor.returns_step) hsafe hfuel]
  rfl

theorem splitRangeByPointEntriesLoop_eq {rdList : List (ℤ × ℤ)} {points : List PointEntry}
    (hlong : ∀ r ∈ rdList, LongRange r) {fuel : ℕ} (hfuel : rdList.length + points.length < fuel) :
    splitRangeByPointEntriesLoop fuel rdList points =
      .returned (splitRangeByPointEntries rdList points) := by
  have hsafe : SplitCursor.Safe ⟨points, rdList, []⟩ := hlong
  rw [splitRangeByPointEntriesLoop,
    Loop.run_returns (fun _ => SplitCursor.returns_step) hsafe hfuel]
  rfl

/-- On disjoint ranges the additions return the union, as long as no range ends at the greatest
`long`, and the removals the difference; the tests of the removal are complete. -/
theorem updateLoops_return {rdList list : List (ℤ × ℤ)} (hrd : Ordered rdList)
    (hlist : Ordered list) (hlong : ∀ r ∈ rdList ++ list, LongRange r) :
    ((∀ r ∈ rdList ++ list, r.2 < longMax) →
      ∃ rdListNew,
        (∀ fuel, 2 * (rdList.length + list.length) < fuel →
          addRangeDeleteLoop fuel rdList list = .returned rdListNew) ∧
        Ordered rdListNew ∧ coverage rdListNew = coverage rdList ∪ coverage list) ∧
      (∃ rdListNew,
        (∀ fuel, rdList.length + list.length < fuel →
          removeRangeDeleteLoop fuel rdList list = .returned rdListNew) ∧
        Ordered rdListNew ∧ coverage rdListNew = coverage rdList \ coverage list) ∧
      ∀ s : RemoveCursor, ¬ s.Unchecked := by
  refine ⟨fun hmax => ?_, ?_, RemoveCursor.not_unchecked⟩
  · obtain ⟨hcov, hord⟩ := uniteAll_spec hrd.startSorted hlist.startSorted hrd.valid hlist.valid
    refine ⟨_, fun fuel hfuel => ?_, hord, hcov⟩
    exact addRangeDeleteLoop_eq hrd.startSorted hlist.startSorted hlong hmax hfuel
  · obtain ⟨hcov, hord, _⟩ := subtract_spec hrd hlist
    exact ⟨_, fun fuel hfuel => removeRangeDeleteLoop_eq hrd hlist hlong hfuel, hord, hcov⟩

theorem updateLoops_return_sample :
    ∃ added removed,
      (∀ fuel, 8 < fuel →
        addRangeDeleteLoop fuel [(1, 3), (4, 9)] [(0, 0), (5, 12)] = .returned added) ∧
      (∀ fuel, 4 < fuel →
        removeRangeDeleteLoop fuel [(1, 3), (4, 9)] [(0, 0), (5, 12)] = .returned removed) ∧
      Ordered added ∧ Ordered removed := by
  have hord : Ordered [(1, 3), (4, 9)] ∧ Ordered [(0, 0), (5, 12)] :=
    ⟨⟨by decide, by decide⟩, by decide, by decide⟩
  obtain ⟨hadd, ⟨removed, hremove, hremoved, _⟩, _⟩ :=
    updateLoops_return hord.1 hord.2 (by decide)
  obtain ⟨added, hadd, hadded, _⟩ := hadd (by decide)
  exact ⟨added, removed, hadd, hremove, hadded, hremoved⟩

/-- The filter covers all keys from zero on, and the sum behind its end overflows when a second
list is added. -/
theorem addRangeDeleteLoop_overflows :
    Ordered [(0, longMax)] ∧ Ordered [(5, 6)] ∧
      (∀ r ∈ [(0, longMax)] ++ [(5, 6)], LongRange r) ∧
      ∀ fuel, 2 ≤ fuel → addRangeDeleteLoop fuel [(0, longMax)] [(5, 6)] = .exited := by
  refine ⟨⟨by decide, by decide⟩, ⟨by decide, by decide⟩, by decide, fun fuel hfuel => ?_⟩
  obtain ⟨n, rfl⟩ := Nat.exists_eq_add_of_le hfuel
  rw [Nat.add_comm]
  rfl

/-- The keys of ascending points are cut out of the ranges, and a second time there is nothing
left to cut out. -/
theorem splitRangeByPointEntriesLoop_spec {rdList : List (ℤ × ℤ)} {points : List PointEntry}
    (hrd : Ordered rdList) (hlong : ∀ r ∈ rdList, LongRange r) (hpoints : Ascending points) :
    ∃ rdListNew,
      (∀ fuel, rdList.length + points.length < fuel →
        splitRangeByPointEntriesLoop fuel rdList points = .returned rdListNew) ∧
      Ordered rdListNew ∧ coverage rdListNew = coverage rdList \ pointKeys points ∧
      ∀ fuel, rdListNew.length + points.length < fuel →
        splitRangeByPointEntriesLoop fuel rdListNew points = .returned rdListNew := by
  obtain ⟨hcov, hord⟩ := puncture_spec hrd (List.pairwise_map.mpr hpoints)
  have hkeys : {k | k ∈ points.map PointEntry.sortKey} = pointKeys points := by
    ext k
    exact List.mem_map
  rw [hkeys] at hcov
  refine ⟨_, fun fuel hfuel => splitRangeByPointEntriesLoop_eq hlong hfuel, hord, hcov,
    fun fuel hfuel => ?_⟩
  have hinside : ∀ k ∈ coverage (splitRangeByPointEntries rdList points),
      longMin ≤ k ∧ k ≤ longMax := by
    intro k hk
    obtain ⟨⟨r, hr, hlo, hhi⟩, _⟩ := (Set.ext_iff.mp hcov k).mp hk
    obtain ⟨h₁, _, h₂⟩ := hlong r hr
    exact ⟨h₁.trans hlo, hhi.trans h₂⟩
  rw [splitRangeByPointEntriesLoop_eq (fun r hr => ?_) hfuel]
  · refine congrArg _ (puncture_of_notMem fun k hk hmem => ?_)
    exact ((Set.ext_iff.mp hcov k).mp hmem).2 (List.mem_map.mp hk)
  · have hvalid := hord.valid r hr
    exact ⟨(hinside r.1 ⟨r, hr, le_rfl, hvalid⟩).1, hvalid, (hinside r.2 ⟨r, hr, hvalid, le_rfl⟩).2⟩

/-- Both ends of a range, neighbours inside of it and a whole range of one key. -/
theorem splitRangeByPointEntriesLoop_spec_sample :
    ∃ rdListNew,
      (∀ fuel, 8 < fuel →
        splitRangeByPointEntriesLoop fuel [(1, 9), (11, 11)]
          [⟨1, []⟩, ⟨4, []⟩, ⟨5, []⟩, ⟨9, []⟩, ⟨11, []⟩, ⟨20, []⟩] = .returned rdListNew) ∧
      Ordered rdListNew := by
  have hrd : Ordered [(1, 9), (11, 11)] := ⟨by decide, by decide⟩
  have hpoints : Ascending [⟨1, []⟩, ⟨4, []⟩, ⟨5, []⟩, ⟨9, []⟩, ⟨11, []⟩, ⟨20, []⟩] := by decide
  obtain ⟨rdListNew, hrun, hord, _⟩ := splitRangeByPointEntriesLoop_spec hrd (by decide)
    hpoints
  exact ⟨rdListNew, hrun, hord⟩

end PerlevelRangeDeleteFilter

end Spry.Emulation
