import Spry.SuRFPoints
import Spry.StringKey

/-!
# Lookups in tries with split points

A key that is not stored is decided by the parentheses of the next stored key: these are right
for every way in which cut keys meet, as long as ends that are starts keep both parentheses. A
key that hits a stored key is decided by the parentheses of that key alone, or left open.
-/

namespace Spry

open HalfOpen

namespace SuRF

variable {K : Type} [LinearOrder K] {env : SuRFEnv K} {pointKeys : List K}

section Query

variable {rs : List (K × K)} {ks : List (ParenKey K)} {q : K} (hcut : Monotone env.cut)
  (hrs : WeaklyOrdered rs) (h : Punctures env pointKeys rs ks)

include h in
theorem Punctures.ascending : ks.reverse.Pairwise (fun a b => a.key < b.key) :=
  List.pairwise_reverse.mpr h.descending

include h in
theorem Punctures.not_stored {found : ParenKey K}
    (hseek : seekEnd ks.reverse (env.cut q) = some found) (hne : found.key ≠ env.cut q) :
    ¬ ∃ p ∈ ks, p.key = env.cut q := by
  rintro ⟨p, hp, hkey⟩
  obtain ⟨_, hle, hleast⟩ := seekEnd_least h.ascending hseek
  exact hne (le_antisymm (hkey ▸ hleast p (List.mem_reverse.mpr hp) hkey.ge) hle)

include hcut hrs h

theorem Punctures.notMem_coverage_of_none (hseek : seekEnd ks.reverse (env.cut q) = none) :
    q ∉ coverage rs := by
  intro hq
  obtain ⟨r, hr, hlo, hhi⟩ := mem_coverage.mp hq
  have hstored : ∃ p ∈ ks, p.key = env.cut r.2 := by
    apply (h.keys _).mpr
    rcases (hcut (hrs.le r hr)).lt_or_eq with hlt | heq
    · exact ⟨r, hr, Or.inr ⟨hlt, Or.inl rfl⟩⟩
    · exact ⟨r, hr, Or.inl heq⟩
  obtain ⟨p, hp, hkey⟩ := hstored
  have hnot := List.find?_eq_none.mp hseek p (List.mem_reverse.mpr hp)
  exact hnot (by simpa [hkey] using hcut hhi.le)

section Miss

variable {found : ParenKey K} (hseek : seekEnd ks.reverse (env.cut q) = some found)
  (hne : found.key ≠ env.cut q)
include hseek hne

omit hrs in
theorem Punctures.mem_coverage_of_right (hright : found.right = true) :
    q ∈ coverage rs ∧ q ∉ pointKeys := by
  obtain ⟨hfound, hle, hleast⟩ := seekEnd_least h.ascending hseek
  have hmiss := h.not_stored hseek hne
  have hlt : env.cut q < found.key := lt_of_le_of_ne hle hne.symm
  obtain ⟨r, hr, hend⟩ := ((h.right found (List.mem_reverse.mp hfound)).mp hright).1
  have hstart : env.cut r.1 < env.cut q := by
    by_contra hge
    obtain ⟨p, hp, hkey⟩ := (h.keys (env.cut r.1)).mpr ⟨r, hr, Or.inl rfl⟩
    have := hleast p (List.mem_reverse.mpr hp) (hkey ▸ not_lt.mp hge)
    exact absurd hend.lt (not_lt.mpr (hkey ▸ this))
  have hstop : env.cut q < env.cut r.2 := hlt.trans_le hend.le
  refine ⟨mem_coverage.mpr ⟨r, hr, (hcut.reflect_lt hstart).le, hcut.reflect_lt hstop⟩, ?_⟩
  intro hq
  apply hmiss
  apply (h.keys _).mpr
  exact ⟨r, hr, Or.inr ⟨hstart.trans hstop, Or.inr ⟨List.mem_map_of_mem hq, hstart, hstop⟩⟩⟩

theorem Punctures.ends_of_mem_coverage (hq : q ∈ coverage rs) :
    ∃ r ∈ rs, Ends env pointKeys r found.key := by
  obtain ⟨hfound, hle, hleast⟩ := seekEnd_least h.ascending hseek
  have hmiss := h.not_stored hseek hne
  have hlt : env.cut q < found.key := lt_of_le_of_ne hle hne.symm
  obtain ⟨r, hr, hlo, hhi⟩ := mem_coverage.mp hq
  have hstart : env.cut r.1 < env.cut q := by
    refine lt_of_le_of_ne (hcut hlo) fun heq => hmiss ?_
    exact (h.keys _).mpr ⟨r, hr, Or.inl heq⟩
  have hend : Ends env pointKeys r (env.cut r.2) :=
    ⟨hstart.trans_le (hcut hhi.le), Or.inl rfl⟩
  have hfoundLe : found.key ≤ env.cut r.2 := by
    obtain ⟨p, hp, hkey⟩ := (h.keys _).mpr ⟨r, hr, Or.inr hend⟩
    exact hkey ▸ hleast p (List.mem_reverse.mpr hp) (hkey ▸ hcut hhi.le)
  obtain ⟨s, hs, heq | hs'⟩ := (h.keys found.key).mp ⟨found, List.mem_reverse.mp hfound, rfl⟩
  · -- the start of a later range, which is the end of this one
    refine ⟨r, hr, ?_⟩
    have hlate : env.cut r.2 ≤ env.cut s.1 := by
      rcases hrs.apart hr hs with rfl | hle | hle
      · exact absurd heq (hstart.trans hlt).ne
      · exact hcut hle
      · have hearly : env.cut s.1 ≤ env.cut r.1 := hcut ((hrs.le s hs).trans hle)
        exact absurd (hstart.trans hlt) (not_lt.mpr (heq ▸ hearly))
    exact le_antisymm hfoundLe (heq ▸ hlate) ▸ hend
  · exact ⟨s, hs, hs'⟩

end Miss

/-- With the bypass a verdict is wrong for no key: a deleted key is in a range and is no point
key, and a key that is alive for certain is in no range. -/
theorem Punctures.isEntryAlive_bypass (hallow : env.allowRangeBoundaryOverlapped = true) :
    (isEntryAlive ks.reverse (env.cut q) true = false → q ∈ coverage rs ∧ q ∉ pointKeys) ∧
      (isEntryAlive ks.reverse (env.cut q) true = true →
        flagKeyMayDeleted ks.reverse (env.cut q) true = false → q ∉ coverage rs) := by
  cases hseek : seekEnd ks.reverse (env.cut q) with
  | none =>
    have hout := h.notMem_coverage_of_none hcut hrs hseek
    exact ⟨by simp [isEntryAlive, hseek], fun _ _ => hout⟩
  | some found =>
    by_cases heq : found.key = env.cut q
    · rw [isEntryAlive_of_hit true hseek heq]
      simp [flagKeyMayDeleted, hseek, heq]
    · rw [isEntryAlive_of_miss true hseek heq]
      refine ⟨fun hdead => h.mem_coverage_of_right hcut hseek heq (by simpa using hdead), ?_⟩
      intro halive _ hq
      obtain ⟨hfound, _, _⟩ := seekEnd_least h.ascending hseek
      have hends := h.ends_of_mem_coverage hcut hrs hseek heq hq
      have hright := (h.right found (List.mem_reverse.mp hfound)).mpr ⟨hends, Or.inl hallow⟩
      simp [hright] at halive

omit hrs in
/-- Without the bypass, a key that is reported deleted is in a range and is no point key, or it
is cut to the same key as the start of a range. -/
theorem Punctures.isEntryAlive_sound (hallow : env.allowRangeBoundaryOverlapped = false)
    (hdead : isEntryAlive ks.reverse (env.cut q) false = false) :
    (q ∈ coverage rs ∧ q ∉ pointKeys) ∨
      ∃ r ∈ rs, env.cut r.1 = env.cut q ∧ ¬ Punctured env pointKeys r := by
  cases hseek : seekEnd ks.reverse (env.cut q) with
  | none => simp [isEntryAlive, hseek] at hdead
  | some found =>
    by_cases heq : found.key = env.cut q
    · obtain ⟨hfound, _, _⟩ := seekEnd_least h.ascending hseek
      rw [isEntryAlive_of_hit false hseek heq] at hdead
      obtain ⟨r, hr, hkey, hpunct⟩ :=
        h.left_of found (List.mem_reverse.mp hfound) (by simpa using hdead)
      exact Or.inr ⟨r, hr, hkey.trans heq, hpunct.resolve_left (by simp [hallow])⟩
    · rw [isEntryAlive_of_miss false hseek heq] at hdead
      exact Or.inl (h.mem_coverage_of_right hcut hseek heq (by simpa using hdead))

end Query

section Uncut

variable {rs : List (K × K)} {ks : List (ParenKey K)} {q : K} (hcut : Monotone env.cut)
  (h : Punctures env pointKeys rs ks) (hne : ∀ r ∈ rs, r.1 < r.2) (hgap : Gapped rs)
  (hrange : ∀ r ∈ rs, env.cut r.1 = r.1 ∧ env.cut r.2 = r.2)
  (hpoint : ∀ p ∈ pointKeys, env.cut p = p) (hq : env.cut q = q)

theorem punctured_iff {r : K × K} (hr : r.1 < r.2) (hends : env.cut r.1 = r.1 ∧ env.cut r.2 = r.2)
    (hpoint : ∀ p ∈ pointKeys, env.cut p = p) : Punctured env pointKeys r ↔ r.1 ∈ pointKeys := by
  constructor
  · intro hp
    obtain ⟨p, hp, _, heq⟩ := hp.point
    rw [hpoint p hp, hends.1] at heq
    exact heq ▸ hp
  · intro hp
    refine ⟨by rwa [hends.1, hends.2], ⟨r.1, hp, le_rfl, rfl⟩, fun p hp hlt heq => ?_⟩
    rw [hpoint p hp, hends.1] at heq
    exact hlt.ne heq

include h hne hgap hrange hpoint in
/-- A stored key that is not cut is deleted if a range starts there and no point key is there. -/
theorem Punctures.left_iff {found : ParenKey K} (hfound : found ∈ ks) (heq : found.key = q)
    (hallow : env.allowRangeBoundaryOverlapped = false) :
    found.left = true ↔ q ∈ coverage rs ∧ q ∉ pointKeys := by
  have hord : Ordered rs := hgap.ordered hne
  have hpunct : ∀ r ∈ rs, (Punctured env pointKeys r ↔ r.1 ∈ pointKeys) := fun r hr =>
    punctured_iff (hne r hr) (hrange r hr) hpoint
  constructor
  · intro hleft
    obtain ⟨r, hr, hkey, hnot⟩ := h.left_of found hfound hleft
    have hstart : r.1 = q := by rw [← (hrange r hr).1, hkey, heq]
    refine ⟨mem_coverage.mpr ⟨r, hr, hstart.le, hstart ▸ hne r hr⟩, ?_⟩
    rw [← hstart, ← hpunct r hr]
    exact hnot.resolve_left (by simp [hallow])
  · rintro ⟨hcov, hnot⟩
    obtain ⟨r, hr, hlo, hhi⟩ := mem_coverage.mp hcov
    obtain ⟨s, hs, hkey⟩ := (h.keys q).mp ⟨found, hfound, heq⟩
    have hstart : ∃ s ∈ rs, s.1 = q := by
      rcases hkey with hkey | ⟨hlt, hkey | ⟨hkey, _, _⟩⟩
      · exact ⟨s, hs, by rw [← (hrange s hs).1, hkey]⟩
      · -- an end inside a range would touch it
        rw [(hrange s hs).2] at hkey
        refine ⟨r, hr, hlo.antisymm ?_⟩
        by_contra hlt
        exact hord.not_end_inside hr hs (hkey ▸ not_le.mp hlt) (hkey ▸ hhi)
      · obtain ⟨p, hp, hpq⟩ := List.mem_map.mp hkey
        rw [hpoint p hp] at hpq
        exact absurd (hpq ▸ hp) hnot
    obtain ⟨t, ht, hst⟩ := hstart
    apply h.left found hfound
    · exact ⟨t, ht, by rw [(hrange t ht).1, hst, heq]⟩
    · intro t' ht' hkey'
      rw [hpunct t' ht', ← (hrange t' ht').1, hkey', heq]
      exact hnot

include hne hgap hrange in
theorem not_ends_start {r s : K × K} (hr : r ∈ rs) (hs : s ∈ rs) :
    ¬ Ends env pointKeys r (env.cut s.1) := by
  intro hend
  have hlt := hend.lt
  have hle := hend.le
  rw [(hrange s hs).1, (hrange r hr).1] at hlt
  rw [(hrange s hs).1, (hrange r hr).2] at hle
  rcases hgap.apart hr hs with rfl | hbefore | hafter
  · exact hlt.false
  · exact hbefore.not_ge hle
  · exact (hne s hs).not_gt (hafter.trans hlt)

include hcut h hne hgap hrange hpoint hq in
theorem Punctures.isEntryAlive_uncut (hallow : env.allowRangeBoundaryOverlapped = false) :
    isEntryAlive ks.reverse (env.cut q) false = true ↔ q ∉ coverage rs ∨ q ∈ pointKeys := by
  have hrs : WeaklyOrdered rs := (hgap.ordered hne).weaklyOrdered
  cases hseek : seekEnd ks.reverse (env.cut q) with
  | none => simp [isEntryAlive, hseek, h.notMem_coverage_of_none hcut hrs hseek]
  | some found =>
    obtain ⟨hfound, _, _⟩ := seekEnd_least h.ascending hseek
    have hfound := List.mem_reverse.mp hfound
    by_cases heq : found.key = env.cut q
    · have hleft := h.left_iff hne hgap hrange hpoint hfound (heq.trans hq) hallow
      rw [isEntryAlive_of_hit false hseek heq, Bool.false_or, Bool.not_eq_true',
        ← Bool.not_eq_true, hleft]
      tauto
    · rw [isEntryAlive_of_miss false hseek heq, Bool.not_eq_true', ← Bool.not_eq_true]
      constructor
      · intro hright
        apply Or.inl
        intro hcov
        obtain ⟨r, hr, hend⟩ := h.ends_of_mem_coverage hcut hrs hseek heq hcov
        apply hright
        apply (h.right found hfound).mpr
        exact ⟨⟨r, hr, hend⟩, Or.inr fun s hs hkey =>
          absurd (hkey.symm ▸ hend) (not_ends_start hne hgap hrange hr hs)⟩
      · intro hor hright
        obtain ⟨hcov, hnot⟩ := h.mem_coverage_of_right hcut hseek heq hright
        exact hor.elim (fun hout => hout hcov) hnot

end Uncut

theorem punctures_rangesWithPointKeysToSurf {ranges : List (K × K)} (hcut : Monotone env.cut)
    (hpoints : pointKeys.Pairwise (· ≤ ·)) (hle : ∀ r ∈ ranges, r.1 ≤ r.2) :
    ∃ ks, (rangesWithPointKeysToSurf env ranges pointKeys).1 = ks.reverse ∧
      Punctures env pointKeys (mergedRanges env.allowRangeBoundaryOverlapped ranges) ks :=
  ⟨_, rfl, (scanned_scanPointKeys hcut hpoints
    (weaklyOrdered_mergedRanges env.allowRangeBoundaryOverlapped hle)).punctures⟩

/-- The right bits are set at the ends of the merged ranges, and at the point keys inside of them,
and nowhere else. -/
def ExactRight (env : SuRFEnv K) (pointKeys : List K) (ranges : List (K × K)) (surf : SuRF K) :
    Prop :=
  ∀ p ∈ surf, p.right = true ↔
    ∃ r ∈ mergedRanges env.allowRangeBoundaryOverlapped ranges, Ends env pointKeys r p.key

theorem not_punctured_nil (r : K × K) : ¬ Punctured env [] r := by
  rintro ⟨_, ⟨p, hp, _⟩, _⟩
  cases hp

/-- A right bit is lost only where a range ends in the start of another one, and a point key makes
that start give way. -/
theorem exactRight_iff {ranges : List (K × K)} (hcut : Monotone env.cut)
    (hpoints : pointKeys.Pairwise (· ≤ ·)) (hle : ∀ r ∈ ranges, r.1 ≤ r.2) :
    ExactRight env pointKeys ranges (rangesWithPointKeysToSurf env ranges pointKeys).1 ↔
      env.allowRangeBoundaryOverlapped = true ∨
        ∀ r ∈ mergedRanges env.allowRangeBoundaryOverlapped ranges,
          ∀ s ∈ mergedRanges env.allowRangeBoundaryOverlapped ranges,
            Ends env pointKeys r (env.cut s.1) → ¬ Punctured env pointKeys s := by
  obtain ⟨ks, hks, h⟩ := punctures_rangesWithPointKeysToSurf hcut hpoints hle
  rw [hks]
  constructor
  · intro hexact
    by_cases hallow : env.allowRangeBoundaryOverlapped = true
    · exact Or.inl hallow
    · right
      intro r hr s hs hend
      obtain ⟨p, hp, hkey⟩ := (h.keys (env.cut s.1)).mpr ⟨s, hs, Or.inl rfl⟩
      have hright : p.right = true :=
        (hexact p (List.mem_reverse.mpr hp)).mpr ⟨r, hr, hkey ▸ hend⟩
      exact ((h.right p hp).mp hright).2.resolve_left hallow s hs hkey.symm
  · intro hor p hp
    rw [h.right p (List.mem_reverse.mp hp), and_iff_left_of_imp]
    rintro ⟨r, hr, hend⟩
    exact hor.imp_right fun hapart s hs heq => hapart r hr s hs (heq ▸ hend)

theorem Punctures.of_mem {rs : List (K × K)} {ks : List (ParenKey K)}
    (h : Punctures env pointKeys rs ks) {p : ParenKey K} (hp : p ∈ ks) :
    (∃ x, env.cut x = p.key) ∧ ∃ r ∈ rs, env.cut r.1 ≤ p.key := by
  obtain ⟨r, hr, heq | hend⟩ := (h.keys p.key).mp ⟨p, hp, rfl⟩
  · exact ⟨⟨r.1, heq⟩, r, hr, heq.le⟩
  · refine ⟨?_, r, hr, hend.lt.le⟩
    rcases hend with ⟨_, heq | ⟨hpoint, _, _⟩⟩
    · exact ⟨r.2, heq.symm⟩
    · obtain ⟨x, _, hx⟩ := List.mem_map.mp hpoint
      exact ⟨x, hx⟩

theorem Punctures.ne_nil {rs : List (K × K)} {ks : List (ParenKey K)}
    (h : Punctures env pointKeys rs ks) (hrs : rs ≠ []) : ks ≠ [] := by
  obtain ⟨r, hr⟩ := List.exists_mem_of_ne_nil rs hrs
  obtain ⟨p, hp, _⟩ := (h.keys (env.cut r.1)).mpr ⟨r, hr, Or.inl rfl⟩
  exact List.ne_nil_of_mem hp

end SuRF

namespace SuRFRDF

section Insert

variable {K : Type} [LinearOrder K]

theorem mem_processRangesWithPointKeys {last : Option (K × K)} {ranges : List (K × K)}
    {r : K × K} :
    r ∈ processRangesWithPointKeys last ranges ∨ last = some r ↔ r ∈ ranges ∨ last = some r := by
  induction ranges generalizing last with
  | nil => simp [processRangesWithPointKeys]
  | cons s rs ih =>
    rw [processRangesWithPointKeys]
    by_cases hlast : last = some s
    · rw [if_pos hlast, ih, hlast]
      grind
    · have hrec := @ih (some s)
      rw [if_neg hlast]
      grind

theorem mem_processRangesWithPointKeys_none {ranges : List (K × K)} {r : K × K} :
    r ∈ processRangesWithPointKeys none ranges ↔ r ∈ ranges := by
  simpa using @mem_processRangesWithPointKeys K _ none ranges r

theorem coverage_processRangesWithPointKeys (ranges : List (K × K)) :
    coverage (processRangesWithPointKeys none ranges) = coverage ranges := by
  ext k
  simp only [mem_coverage, mem_processRangesWithPointKeys_none]

theorem lookup_insertRangesWithPointKeysAtLevelOfFd (env : SuRFEnv K) (f : SuRFRDF K)
    (level fd : ℕ) (ranges : List (K × K)) (pointKeys : List K) :
    ((f.insertRangesWithPointKeysAtLevelOfFd env level fd ranges pointKeys).atLevel level).lookup
        fd =
      some (SuRF.rangesWithPointKeysToSurf env (processRangesWithPointKeys none ranges)
        pointKeys).1 := by
  have hlen : level < (f.levelFileSurfRdf ++
      List.replicate (level + 1 - f.levelFileSurfRdf.length) ∅).length := by
    simp
    omega
  unfold insertRangesWithPointKeysAtLevelOfFd atLevel
  rw [List.getD_eq_getElem?_getD, List.getElem?_set_self hlen]
  exact AList.lookup_insert _

end Insert

section Strings

variable {env : SuRFEnv Bytes} {len : ℕ} {f g : SuRFRDF Bytes} {level fd : ℕ}
  {ranges : List (Bytes × Bytes)} {pointKeys : List Bytes} {q : Bytes}

def stringEnv (bypass : Bool) (len : ℕ) : SuRFEnv Bytes := ⟨bypass, bypass, List.take len, id⟩

theorem exists_punctures (hcut : env.cut = List.take len)
    (hg : g = f.insertRangesWithPointKeysAtLevelOfFd env level fd ranges pointKeys)
    (hle : ∀ r ∈ ranges, r.1 ≤ r.2) (hpoints : pointKeys.Pairwise (· ≤ ·)) :
    ∃ ks, (g.atLevel level).lookup fd = some ks.reverse ∧
      SuRF.Punctures env pointKeys (SuRF.mergedRanges env.allowRangeBoundaryOverlapped
        (processRangesWithPointKeys none ranges)) ks := by
  have hmono : Monotone env.cut := hcut ▸ Bytes.monotone_take len
  have hprocessed : ∀ r ∈ processRangesWithPointKeys none ranges, r.1 ≤ r.2 := fun r hr =>
    hle r (mem_processRangesWithPointKeys_none.mp hr)
  obtain ⟨ks, hsurf, hks⟩ := SuRF.punctures_rangesWithPointKeysToSurf hmono hpoints hprocessed
  exact ⟨ks, by rw [hg, lookup_insertRangesWithPointKeysAtLevelOfFd, hsurf], hks⟩

/-- In bypass mode a key that is reported deleted is in a range and is no split key, and a key
that is reported alive, and not as possibly deleted, is in no range or is a split key. -/
theorem isEntryAliveAtLevelOfFd_bypass (hcut : env.cut = List.take len)
    (hallow : env.allowRangeBoundaryOverlapped = true) (hbypass : env.bypassIfSameKey = true)
    (hg : g = f.insertRangesWithPointKeysAtLevelOfFd env level fd ranges pointKeys)
    (hle : ∀ r ∈ ranges, r.1 ≤ r.2) (hpoints : pointKeys.Pairwise (· ≤ ·)) (q : Bytes) :
    (g.isEntryAliveAtLevelOfFd env level fd q = false → q ∈ coverage ranges ∧ q ∉ pointKeys) ∧
      (g.isEntryAliveAtLevelOfFd env level fd q = true →
        g.flagKeyMayDeletedAtLevelOfFd env level fd q = false →
          q ∉ coverage ranges ∨ q ∈ pointKeys) := by
  obtain ⟨ks, hlookup, hks⟩ := exists_punctures hcut hg hle hpoints
  have hmono : Monotone env.cut := hcut ▸ Bytes.monotone_take len
  have hrs := SuRF.weaklyOrdered_mergedRanges env.allowRangeBoundaryOverlapped
    fun r hr => hle r (mem_processRangesWithPointKeys_none.mp hr)
  obtain ⟨hdead, halive⟩ := hks.isEntryAlive_bypass (q := q) hmono hrs hallow
  rw [SuRF.coverage_mergedRanges, coverage_processRangesWithPointKeys] at hdead halive
  simp only [isEntryAliveAtLevelOfFd, flagKeyMayDeletedAtLevelOfFd, hlookup, hbypass]
  exact ⟨hdead, fun h₁ h₂ => Or.inl (halive h₁ h₂)⟩

def sampleRanges : List (Bytes × Bytes) := [([97, 53], [100])]

def sampleFilter (bypass : Bool) : SuRFRDF Bytes :=
  SuRFRDF.empty.insertRangesWithPointKeysAtLevelOfFd (stringEnv bypass 1) 1 7 sampleRanges [[98]]

theorem isEntryAliveAtLevelOfFd_bypass_sample :
    (sampleFilter true).isEntryAliveAtLevelOfFd (stringEnv true 1) 1 7 [99, 48] = false ∧
      ([99, 48] : Bytes) ∈ coverage sampleRanges := by
  have hdead :
      (sampleFilter true).isEntryAliveAtLevelOfFd (stringEnv true 1) 1 7 [99, 48] = false := by
    decide
  have hcut : (stringEnv true 1).cut = List.take 1 := rfl
  have hg : sampleFilter true = SuRFRDF.empty.insertRangesWithPointKeysAtLevelOfFd
    (stringEnv true 1) 1 7 sampleRanges [[98]] := rfl
  exact ⟨hdead, ((isEntryAliveAtLevelOfFd_bypass hcut rfl rfl hg (by decide) (by decide) _).1
    hdead).1⟩

/-- Keys of one length that are not cut: the verdict is exact. -/
theorem isEntryAliveAtLevelOfFd_uncut (hcut : env.cut = List.take len)
    (hallow : env.allowRangeBoundaryOverlapped = false) (hbypass : env.bypassIfSameKey = false)
    (hg : g = f.insertRangesWithPointKeysAtLevelOfFd env level fd ranges pointKeys)
    {n : ℕ} (hn : n ≤ len) (hne : ∀ r ∈ ranges, r.1 < r.2)
    (hlen : ∀ r ∈ ranges, r.1.length = n ∧ r.2.length = n)
    (hpoints : pointKeys.Pairwise (· ≤ ·)) (hpointLen : ∀ p ∈ pointKeys, p.length = n)
    (hq : q.length = n) :
    g.isEntryAliveAtLevelOfFd env level fd q = true ↔ q ∉ coverage ranges ∨ q ∈ pointKeys := by
  have hle : ∀ r ∈ ranges, r.1 ≤ r.2 := fun r hr => (hne r hr).le
  obtain ⟨ks, hlookup, hks⟩ := exists_punctures hcut hg hle hpoints
  have hmono : Monotone env.cut := hcut ▸ Bytes.monotone_take len
  have huncut : ∀ x : Bytes, x.length = n → env.cut x = x := fun x hx => by
    rw [hcut]
    exact List.take_of_length_le (hx ▸ hn)
  rw [hallow] at hks
  have hnonempty := SuRF.of_mem_mergedRanges false (fun a b : Bytes => a < b)
    (fun _ _ _ h => lt_max_of_lt_left h)
    fun r hr => hne r (mem_processRangesWithPointKeys_none.mp hr)
  have hends := SuRF.ends_of_mem_mergedRanges false (fun x : Bytes => env.cut x = x)
    fun r hr => (hlen r (mem_processRangesWithPointKeys_none.mp hr)).imp (huncut _) (huncut _)
  have hexact := hks.isEntryAlive_uncut hmono hnonempty (SuRF.gapped_mergedRanges _) hends
    (fun p hp => huncut p (hpointLen p hp)) (huncut q hq) hallow
  rw [SuRF.coverage_mergedRanges, coverage_processRangesWithPointKeys] at hexact
  simpa only [isEntryAliveAtLevelOfFd, hlookup, hbypass] using hexact

theorem isEntryAliveAtLevelOfFd_uncut_sample :
    (SuRFRDF.empty.insertRangesWithPointKeysAtLevelOfFd (stringEnv false 2) 1 7
      [([97], [100])] [[98]]).isEntryAliveAtLevelOfFd (stringEnv false 2) 1 7 [98] = true := by
  have hcut : (stringEnv false 2).cut = List.take 2 := rfl
  apply (isEntryAliveAtLevelOfFd_uncut (n := 1) hcut rfl rfl rfl _ _ _ _ _ _).mpr
  · decide
  · decide
  · decide
  · decide
  · decide
  · decide
  · decide

/-- Both builders store ascending keys. The right bits are exact, except that without shared
boundaries a point key at the start of a range clears the right bit of an end that is cut to the
same key. -/
theorem rightBits_exact_iff (hcut : env.cut = List.take len) (hne : ∀ r ∈ ranges, r.1 < r.2)
    (hpoints : pointKeys.Pairwise (· ≤ ·)) :
    ((SuRF.rangesToSurf env ranges).Pairwise (fun a b => a.key < b.key) ∧
      SuRF.ExactRight env [] ranges (SuRF.rangesToSurf env ranges)) ∧
    (SuRF.rangesWithPointKeysToSurf env ranges pointKeys).1.Pairwise (fun a b => a.key < b.key) ∧
    (SuRF.ExactRight env pointKeys ranges
        (SuRF.rangesWithPointKeysToSurf env ranges pointKeys).1 ↔
      env.allowRangeBoundaryOverlapped = true ∨
        ∀ r ∈ SuRF.mergedRanges env.allowRangeBoundaryOverlapped ranges,
          ∀ s ∈ SuRF.mergedRanges env.allowRangeBoundaryOverlapped ranges,
            SuRF.Ends env pointKeys r (env.cut s.1) → ¬ SuRF.Punctured env pointKeys s) := by
  have hmono : Monotone env.cut := hcut ▸ Bytes.monotone_take len
  have hle : ∀ r ∈ ranges, r.1 ≤ r.2 := fun r hr => (hne r hr).le
  have hascending : ∀ points : List Bytes, points.Pairwise (· ≤ ·) →
      (SuRF.rangesWithPointKeysToSurf env ranges points).1.Pairwise (fun a b => a.key < b.key) := by
    intro points hsorted
    obtain ⟨ks, hks, h⟩ := SuRF.punctures_rangesWithPointKeysToSurf hmono hsorted hle
    rw [hks]
    exact h.ascending
  have hplain : (SuRF.rangesWithPointKeysToSurf env ranges []).1 = SuRF.rangesToSurf env ranges :=
    congrArg Prod.fst (SuRF.rangesWithPointKeysToSurf_nil env ranges)
  refine ⟨⟨?_, ?_⟩, hascending pointKeys hpoints, SuRF.exactRight_iff hmono hpoints hle⟩
  · rw [← hplain]
    exact hascending [] List.Pairwise.nil
  · rw [← hplain]
    apply (SuRF.exactRight_iff hmono List.Pairwise.nil hle).mpr
    exact Or.inr fun _ _ s _ _ => SuRF.not_punctured_nil s

theorem rightBits_exact_iff_sample :
    SuRF.ExactRight (stringEnv true 1) [[98]] sampleRanges
      (SuRF.rangesWithPointKeysToSurf (stringEnv true 1) sampleRanges [[98]]).1 := by
  have hcut : (stringEnv true 1).cut = List.take 1 := rfl
  exact (rightBits_exact_iff hcut (by decide) (by decide)).2.2.mpr (Or.inl rfl)

/-- Keys cut to two bytes: `[aa0, ba1)` ends and `[ba5, ca0)` starts at the stored key `ba`. The
point key `ba7` clears both bits of it, and the deleted key `am` is reported alive. -/
theorem rightBits_cleared :
    (SuRF.rangesWithPointKeysToSurf (stringEnv false 2)
        [([97, 97, 48], [98, 97, 49]), ([98, 97, 53], [99, 97, 48])] [[98, 97, 55]]).1 =
      [⟨[97, 97], true, false⟩, ⟨[98, 97], false, false⟩, ⟨[99, 97], false, true⟩] ∧
    SuRF.isEntryAlive [⟨[97, 97], true, false⟩, ⟨[98, 97], false, false⟩,
      ⟨[99, 97], false, true⟩] ([97, 109] : Bytes) false = true ∧
    ([97, 109] : Bytes) ∈ coverage [(([97, 97, 48], [98, 97, 49]) : Bytes × Bytes)] :=
  ⟨by decide, by decide, by decide⟩

end Strings

end SuRFRDF

end Spry
