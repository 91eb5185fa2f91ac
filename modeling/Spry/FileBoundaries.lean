import Spry.Lsm
import Spry.StringKey

/-!
# The boundaries of a file

While a file is written, its metadata keeps running bounds of its point keys and of its range
tombstones. The bounds are encoded internal keys: a user key and a trailer of eight bytes. Point
keys are compared with them as raw bytes, and range tombstones as if the whole encoding were a user
key. Both agree with the order of the user keys as long as no user key is a proper prefix of
another one.
-/

namespace Spry

structure InternalKey where
  userKey : Bytes
  packed : Fin (2 ^ 64)
  deriving DecidableEq

namespace InternalKey

def encodeFixed64 (n : Fin (2 ^ 64)) : Bytes :=
  (List.range 8).map fun i => Fin.ofNat 256 (n.val / 256 ^ i)

def encode (k : InternalKey) : Bytes := k.userKey ++ encodeFixed64 k.packed

def extractUserKey (rep : Bytes) : Bytes := rep.take (rep.length - 8)

/-- `icmp.Compare(a, b) < 0`: ascending user keys, then descending sequence numbers and types. -/
def less (a b : InternalKey) : Bool :=
  a.userKey < b.userKey ∨ (a.userKey = b.userKey ∧ b.packed < a.packed)

/-- A stored encoding taken for a user key, with sequence number 0 and `kTypeValue`. -/
def ofStored (stored : Bytes) : InternalKey := ⟨stored, 1⟩

@[simp] theorem length_encodeFixed64 (n : Fin (2 ^ 64)) : (encodeFixed64 n).length = 8 := by
  rw [encodeFixed64, List.length_map, List.length_range]

theorem extractUserKey_encode (k : InternalKey) : extractUserKey k.encode = k.userKey := by
  simp [extractUserKey, encode]

theorem encode_ne_nil (k : InternalKey) : k.encode ≠ [] := by
  apply List.ne_nil_of_length_pos
  simp [encode]

end InternalKey

structure BlobIndex where
  isInlined : Bool
  hasTTL : Bool
  fileNumber : ℕ

/-- What the two updates of a file's metadata keep. An empty string stands for a bound that is not
known yet. -/
structure FileBoundaries where
  smallest : Option InternalKey := none
  largest : Option InternalKey := none
  smallestSeqno : ℕ := 2 ^ 56 - 1
  largestSeqno : ℕ := 0
  oldestBlobFileNumber : ℕ := 0
  smallestPointKeyYch : Bytes := []
  largestPointKeyYch : Bytes := []
  smallestRangetombstoneKeyYch : Bytes := []
  largestRangetombstoneKeyYch : Bytes := []

/-- The calls a file receives while it is written. -/
inductive BoundaryCall where
  | point (key : InternalKey) (value : Bytes) (seqno : ℕ) (valueType : ValueType)
  | range (start stop : InternalKey) (seqno : ℕ)

namespace FileBoundaries

def referredBlobFile (decodeBlobIndex : Bytes → Except String BlobIndex) (value : Bytes)
    (valueType : ValueType) : Except String (Option ℕ) := do
  if valueType = .kTypeBlobIndex then
    let blobIndex ← decodeBlobIndex value
    if !blobIndex.isInlined && !blobIndex.hasTTL then
      if blobIndex.fileNumber = 0 then throw "Invalid blob file number"
      else return some blobIndex.fileNumber
    else return none
  else return none

def updateBoundaries (decodeBlobIndex : Bytes → Except String BlobIndex) (f : FileBoundaries)
    (key : InternalKey) (value : Bytes) (seqno : ℕ) (valueType : ValueType) :
    Except String FileBoundaries := do
  let blobFile ← referredBlobFile decodeBlobIndex value valueType
  return {
    f with
    oldestBlobFileNumber :=
      match blobFile with
      | none => f.oldestBlobFileNumber
      | some number =>
        if f.oldestBlobFileNumber = 0 ∨ number < f.oldestBlobFileNumber then number
        else f.oldestBlobFileNumber
    smallest := f.smallest.or (some key)
    largest := some key
    smallestSeqno := min f.smallestSeqno seqno
    largestSeqno := max f.largestSeqno seqno
    smallestPointKeyYch :=
      if f.smallestPointKeyYch = [] ∨ key.encode < f.smallestPointKeyYch then key.encode
      else f.smallestPointKeyYch
    largestPointKeyYch :=
      if f.largestPointKeyYch = [] ∨ f.largestPointKeyYch < key.encode then key.encode
      else f.largestPointKeyYch }

def updateBoundariesForRange (f : FileBoundaries) (start stop : InternalKey) (seqno : ℕ) :
    FileBoundaries :=
  { f with
    smallest :=
      match f.smallest with
      | none => some start
      | some smallest => if start.less smallest then some start else some smallest
    largest :=
      match f.largest with
      | none => some stop
      | some largest => if largest.less stop then some stop else some largest
    smallestSeqno := min f.smallestSeqno seqno
    largestSeqno := max f.largestSeqno seqno
    smallestRangetombstoneKeyYch :=
      if f.smallestRangetombstoneKeyYch = [] ∨
          start.less (InternalKey.ofStored f.smallestRangetombstoneKeyYch) then start.encode
      else f.smallestRangetombstoneKeyYch
    largestRangetombstoneKeyYch :=
      if f.largestRangetombstoneKeyYch = [] ∨
          (InternalKey.ofStored f.largestRangetombstoneKeyYch).less stop then stop.encode
      else f.largestRangetombstoneKeyYch }

def applyCall (decodeBlobIndex : Bytes → Except String BlobIndex) (f : FileBoundaries) :
    BoundaryCall → FileBoundaries
  | .point key value seqno valueType =>
    match f.updateBoundaries decodeBlobIndex key value seqno valueType with
    | .ok g => g
    | .error _ => f
  | .range start stop seqno => f.updateBoundariesForRange start stop seqno

def applyCalls (decodeBlobIndex : Bytes → Except String BlobIndex) (f : FileBoundaries)
    (calls : List BoundaryCall) : FileBoundaries :=
  calls.foldl (applyCall decodeBlobIndex) f

end FileBoundaries

namespace BoundaryCall

def addedPoint (decodeBlobIndex : Bytes → Except String BlobIndex) :
    BoundaryCall → Option InternalKey
  | point key value _ valueType =>
    match FileBoundaries.referredBlobFile decodeBlobIndex value valueType with
    | .ok _ => some key
    | .error _ => none
  | range .. => none

def addedStart : BoundaryCall → Option InternalKey
  | point .. => none
  | range start _ _ => some start

def addedEnd : BoundaryCall → Option InternalKey
  | point .. => none
  | range _ stop _ => some stop

end BoundaryCall

/-! ### Bounds of encoded keys -/

def PrefixFree (keys : List InternalKey) : Prop :=
  ∀ a ∈ keys, ∀ b ∈ keys, a.userKey <+: b.userKey → a.userKey = b.userKey

theorem PrefixFree.of_append {keys rest : List InternalKey} (h : PrefixFree (keys ++ rest)) :
    PrefixFree keys :=
  fun a ha b hb => h a (List.mem_append_left rest ha) b (List.mem_append_left rest hb)

theorem append_lt_append_of_lt {a b : Bytes} (hlt : a < b) (hproper : ¬ a <+: b) (s t : Bytes) :
    a ++ s < b ++ t := by
  induction a generalizing b with
  | nil => exact absurd List.nil_prefix hproper
  | cons x a ih =>
    cases b with
    | nil => exact absurd hlt (List.not_lt_nil _)
    | cons y b =>
      rw [List.cons_append, List.cons_append, List.cons_lt_cons_iff]
      rcases List.cons_lt_cons_iff.mp hlt with hxy | ⟨rfl, hrest⟩
      · exact Or.inl hxy
      · refine Or.inr ⟨rfl, ih hrest fun h => hproper ?_⟩
        exact List.cons_prefix_cons.mpr ⟨rfl, h⟩

theorem PrefixFree.userKey_le {keys : List InternalKey} (h : PrefixFree keys) {a b : InternalKey}
    (ha : a ∈ keys) (hb : b ∈ keys) {s t : Bytes} (hle : a.userKey ++ s ≤ b.userKey ++ t) :
    a.userKey ≤ b.userKey := by
  by_contra hnot
  have hlt : b.userKey < a.userKey := not_le.mp hnot
  have hproper : ¬ b.userKey <+: a.userKey := fun hpre => hlt.ne (h b hb a ha hpre)
  exact (append_lt_append_of_lt hlt hproper t s).not_ge hle

/-- A stored bound: the encoding of a key that is related to all keys, or nothing if there are no
keys. -/
def Bounds (rel : Bytes → Bytes → Prop) (keys : List InternalKey) (stored : Bytes) : Prop :=
  (keys = [] ∧ stored = []) ∨
    ∃ k ∈ keys, stored = k.encode ∧ ∀ a ∈ keys, rel k.userKey a.userKey

theorem Bounds.snoc {rel : Bytes → Bytes → Prop} {keys : List InternalKey} {stored : Bytes}
    (h : Bounds rel keys stored) (hrefl : ∀ a, rel a a)
    (htrans : ∀ {a b c}, rel a b → rel b c → rel a c) (key : InternalKey)
    {replace : Prop} [Decidable replace]
    (hreplace : replace → ∀ k ∈ keys, stored = k.encode → rel key.userKey k.userKey)
    (hkeep : ¬ replace → ∀ k ∈ keys, stored = k.encode → rel k.userKey key.userKey) :
    Bounds rel (keys ++ [key]) (if stored = [] ∨ replace then key.encode else stored) := by
  right
  rcases h with ⟨rfl, rfl⟩ | ⟨k, hk, hstored, hbound⟩
  · rw [if_pos (Or.inl rfl)]
    refine ⟨key, by simp, rfl, fun a ha => ?_⟩
    rw [List.mem_singleton.mp ha]
    exact hrefl _
  · have hne : stored ≠ [] := hstored ▸ k.encode_ne_nil
    by_cases hnew : replace
    · rw [if_pos (Or.inr hnew)]
      refine ⟨key, by simp, rfl, fun a ha => ?_⟩
      rcases List.mem_append.mp ha with ha | ha
      · exact htrans (hreplace hnew k hk hstored) (hbound a ha)
      · rw [List.mem_singleton.mp ha]
        exact hrefl _
    · rw [if_neg (not_or.mpr ⟨hne, hnew⟩)]
      refine ⟨k, List.mem_append_left _ hk, hstored, fun a ha => ?_⟩
      rcases List.mem_append.mp ha with ha | ha
      · exact hbound a ha
      · rw [List.mem_singleton.mp ha]
        exact hkeep hnew k hk hstored

section Snoc

variable {keys : List InternalKey} {key : InternalKey} {stored : Bytes}
  (hfree : PrefixFree (keys ++ [key]))
include hfree

theorem Bounds.snoc_smallestPoint (h : Bounds (· ≤ ·) keys stored) :
    Bounds (· ≤ ·) (keys ++ [key])
      (if stored = [] ∨ key.encode < stored then key.encode else stored) := by
  apply h.snoc le_refl le_trans key
  · intro hless k hk hstored
    rw [hstored] at hless
    exact hfree.userKey_le (by simp) (List.mem_append_left _ hk) hless.le
  · intro hnot k hk hstored
    rw [hstored] at hnot
    exact hfree.userKey_le (List.mem_append_left _ hk) (by simp) (not_lt.mp hnot)

theorem Bounds.snoc_largestPoint (h : Bounds (· ≥ ·) keys stored) :
    Bounds (· ≥ ·) (keys ++ [key])
      (if stored = [] ∨ stored < key.encode then key.encode else stored) := by
  apply h.snoc (fun _ => le_rfl) (fun hab hbc => hbc.trans hab) key
  · intro hless k hk hstored
    rw [hstored] at hless
    exact hfree.userKey_le (List.mem_append_left _ hk) (by simp) hless.le
  · intro hnot k hk hstored
    rw [hstored] at hnot
    exact hfree.userKey_le (by simp) (List.mem_append_left _ hk) (not_lt.mp hnot)

theorem Bounds.snoc_smallestRange (h : Bounds (· ≤ ·) keys stored) :
    Bounds (· ≤ ·) (keys ++ [key])
      (if stored = [] ∨ key.less (InternalKey.ofStored stored) then key.encode else stored) := by
  apply h.snoc le_refl le_trans key
  · intro hless k hk hstored
    have hle : key.userKey ++ [] ≤ k.encode := by
      simp only [InternalKey.less, InternalKey.ofStored, hstored, decide_eq_true_eq] at hless
      rw [List.append_nil]
      exact hless.elim le_of_lt fun heq => heq.1.le
    exact hfree.userKey_le (by simp) (List.mem_append_left _ hk) hle
  · intro hnot k hk hstored
    have hle : k.encode ≤ key.userKey ++ [] := by
      simp only [InternalKey.less, InternalKey.ofStored, hstored, decide_eq_true_eq, not_or] at hnot
      rw [List.append_nil]
      exact not_lt.mp hnot.1
    exact hfree.userKey_le (List.mem_append_left _ hk) (by simp) hle

theorem Bounds.snoc_largestRange (h : Bounds (· ≥ ·) keys stored) :
    Bounds (· ≥ ·) (keys ++ [key])
      (if stored = [] ∨ (InternalKey.ofStored stored).less key then key.encode else stored) := by
  apply h.snoc (fun _ => le_rfl) (fun hab hbc => hbc.trans hab) key
  · intro hless k hk hstored
    have hle : k.encode ≤ key.userKey ++ [] := by
      simp only [InternalKey.less, InternalKey.ofStored, hstored, decide_eq_true_eq] at hless
      rw [List.append_nil]
      exact hless.elim le_of_lt fun heq => heq.1.le
    exact hfree.userKey_le (List.mem_append_left _ hk) (by simp) hle
  · intro hnot k hk hstored
    have hle : key.userKey ++ [] ≤ k.encode := by
      simp only [InternalKey.less, InternalKey.ofStored, hstored, decide_eq_true_eq, not_or] at hnot
      rw [List.append_nil]
      exact not_lt.mp hnot.1
    exact hfree.userKey_le (by simp) (List.mem_append_left _ hk) hle

end Snoc

/-! ### Runs of calls -/

structure Bounded (points starts ends : List InternalKey) (f : FileBoundaries) : Prop where
  smallestPoint : Bounds (· ≤ ·) points f.smallestPointKeyYch
  largestPoint : Bounds (· ≥ ·) points f.largestPointKeyYch
  smallestRange : Bounds (· ≤ ·) starts f.smallestRangetombstoneKeyYch
  largestRange : Bounds (· ≥ ·) ends f.largestRangetombstoneKeyYch

section Step

variable {decodeBlobIndex : Bytes → Except String BlobIndex} {points starts ends : List InternalKey}
  {f : FileBoundaries} {key : InternalKey} {value : Bytes} {valueType : ValueType} (seqno : ℕ)

theorem updateBoundaries_of_error {e : String}
    (hblob : FileBoundaries.referredBlobFile decodeBlobIndex value valueType = .error e) :
    f.updateBoundaries decodeBlobIndex key value seqno valueType = .error e := by
  rw [FileBoundaries.updateBoundaries, hblob]
  rfl

theorem Bounded.updateBoundaries (h : Bounded points starts ends f) {blobFile : Option ℕ}
    (hblob : FileBoundaries.referredBlobFile decodeBlobIndex value valueType = .ok blobFile)
    (hfree : PrefixFree (points ++ [key])) :
    ∃ g, f.updateBoundaries decodeBlobIndex key value seqno valueType = .ok g ∧
      Bounded (points ++ [key]) starts ends g := by
  rw [FileBoundaries.updateBoundaries, hblob]
  refine ⟨_, rfl, ?_⟩
  exact ⟨h.smallestPoint.snoc_smallestPoint hfree, h.largestPoint.snoc_largestPoint hfree,
    h.smallestRange, h.largestRange⟩

theorem Bounded.updateBoundariesForRange (h : Bounded points starts ends f)
    {start stop : InternalKey} (hstarts : PrefixFree (starts ++ [start]))
    (hends : PrefixFree (ends ++ [stop])) :
    Bounded points (starts ++ [start]) (ends ++ [stop])
      (f.updateBoundariesForRange start stop seqno) :=
  ⟨h.smallestPoint, h.largestPoint, h.smallestRange.snoc_smallestRange hstarts,
    h.largestRange.snoc_largestRange hends⟩

end Step

section Run

variable {decodeBlobIndex : Bytes → Except String BlobIndex}

theorem filterMap_snoc {α β : Type} (f : α → Option β) (l : List α) (a : α) :
    (l ++ [a]).filterMap f = l.filterMap f ++ (f a).toList := by
  rw [List.filterMap_append, List.filterMap_cons, List.filterMap_nil]
  cases f a with
  | none => rfl
  | some b => rfl

theorem Bounded.applyCall {points starts ends : List InternalKey} {f : FileBoundaries}
    (h : Bounded points starts ends f) (call : BoundaryCall)
    (hpoints : PrefixFree (points ++ (call.addedPoint decodeBlobIndex).toList))
    (hstarts : PrefixFree (starts ++ call.addedStart.toList))
    (hends : PrefixFree (ends ++ call.addedEnd.toList)) :
    Bounded (points ++ (call.addedPoint decodeBlobIndex).toList)
      (starts ++ call.addedStart.toList) (ends ++ call.addedEnd.toList)
      (f.applyCall decodeBlobIndex call) := by
  cases call with
  | range start stop seqno =>
    have hpoint : (BoundaryCall.range start stop seqno).addedPoint decodeBlobIndex = none := rfl
    rw [hpoint, Option.toList_none, List.append_nil]
    exact h.updateBoundariesForRange seqno hstarts hends
  | point key value seqno valueType =>
    simp only [BoundaryCall.addedStart, BoundaryCall.addedEnd, Option.toList_none,
      List.append_nil, BoundaryCall.addedPoint] at hpoints ⊢
    cases hblob : FileBoundaries.referredBlobFile decodeBlobIndex value valueType with
    | error e =>
      rw [FileBoundaries.applyCall, updateBoundaries_of_error seqno hblob]
      simpa using h
    | ok blobFile =>
      rw [hblob] at hpoints
      obtain ⟨g, hg, hbounded⟩ := h.updateBoundaries seqno hblob hpoints
      rw [FileBoundaries.applyCall, hg]
      exact hbounded

theorem bounded_applyCalls {calls : List BoundaryCall}
    (hpoints : PrefixFree (calls.filterMap (·.addedPoint decodeBlobIndex)))
    (hstarts : PrefixFree (calls.filterMap (·.addedStart)))
    (hends : PrefixFree (calls.filterMap (·.addedEnd))) :
    Bounded (calls.filterMap (·.addedPoint decodeBlobIndex)) (calls.filterMap (·.addedStart))
      (calls.filterMap (·.addedEnd)) (({} : FileBoundaries).applyCalls decodeBlobIndex calls) := by
  induction calls using List.reverseRecOn with
  | nil => exact ⟨Or.inl ⟨rfl, rfl⟩, Or.inl ⟨rfl, rfl⟩, Or.inl ⟨rfl, rfl⟩, Or.inl ⟨rfl, rfl⟩⟩
  | append_singleton calls call ih =>
    simp only [filterMap_snoc] at hpoints hstarts hends ⊢
    rw [FileBoundaries.applyCalls, List.foldl_append]
    exact (ih hpoints.of_append hstarts.of_append hends.of_append).applyCall call hpoints hstarts
      hends

def userKeys (keys : List InternalKey) : Set Bytes := {u | ∃ k ∈ keys, k.userKey = u}

theorem Bounds.isLeast {keys : List InternalKey} {stored : Bytes}
    (h : Bounds (· ≤ ·) keys stored) (hne : keys ≠ []) :
    IsLeast (userKeys keys) (InternalKey.extractUserKey stored) := by
  obtain ⟨k, hk, rfl, hbound⟩ := h.resolve_left fun hnil => hne hnil.1
  rw [InternalKey.extractUserKey_encode]
  refine ⟨⟨k, hk, rfl⟩, ?_⟩
  rintro u ⟨a, ha, rfl⟩
  exact hbound a ha

theorem Bounds.isGreatest {keys : List InternalKey} {stored : Bytes}
    (h : Bounds (· ≥ ·) keys stored) (hne : keys ≠ []) :
    IsGreatest (userKeys keys) (InternalKey.extractUserKey stored) := by
  obtain ⟨k, hk, rfl, hbound⟩ := h.resolve_left fun hnil => hne hnil.1
  rw [InternalKey.extractUserKey_encode]
  refine ⟨⟨k, hk, rfl⟩, ?_⟩
  rintro u ⟨a, ha, rfl⟩
  exact hbound a ha

/-- Without proper prefixes among the keys, the stored bounds have the least and greatest user
keys of what was added. -/
theorem boundaries_of_prefixFree {calls : List BoundaryCall}
    (hpoints : PrefixFree (calls.filterMap (·.addedPoint decodeBlobIndex)))
    (hstarts : PrefixFree (calls.filterMap (·.addedStart)))
    (hends : PrefixFree (calls.filterMap (·.addedEnd))) :
    (calls.filterMap (·.addedPoint decodeBlobIndex) ≠ [] →
      IsLeast (userKeys (calls.filterMap (·.addedPoint decodeBlobIndex)))
          (InternalKey.extractUserKey
            (({} : FileBoundaries).applyCalls decodeBlobIndex calls).smallestPointKeyYch) ∧
        IsGreatest (userKeys (calls.filterMap (·.addedPoint decodeBlobIndex)))
          (InternalKey.extractUserKey
            (({} : FileBoundaries).applyCalls decodeBlobIndex calls).largestPointKeyYch)) ∧
    (calls.filterMap (·.addedStart) ≠ [] →
      IsLeast (userKeys (calls.filterMap (·.addedStart)))
        (InternalKey.extractUserKey
          (({} : FileBoundaries).applyCalls decodeBlobIndex calls).smallestRangetombstoneKeyYch)) ∧
    (calls.filterMap (·.addedEnd) ≠ [] →
      IsGreatest (userKeys (calls.filterMap (·.addedEnd)))
        (InternalKey.extractUserKey (({} : FileBoundaries).applyCalls decodeBlobIndex
          calls).largestRangetombstoneKeyYch)) := by
  have h := bounded_applyCalls hpoints hstarts hends
  refine ⟨fun hne => ⟨?_, ?_⟩, fun hne => ?_, fun hne => ?_⟩
  · exact h.smallestPoint.isLeast hne
  · exact h.largestPoint.isGreatest hne
  · exact h.smallestRange.isLeast hne
  · exact h.largestRange.isGreatest hne

end Run

/-- A point with sequence number 1 and `kTypeValue`. -/
def pointKey (userKey : Bytes) : InternalKey := ⟨userKey, 257⟩

def startKey (userKey : Bytes) : InternalKey := ⟨userKey, 271⟩

/-- The end of a range tombstone: the greatest sequence number and `kTypeRangeDeletion`. -/
def stopKey (userKey : Bytes) : InternalKey := ⟨userKey, 18446744073709551375⟩

def noBlobs (_ : Bytes) : Except String BlobIndex := .error "no blobs"

def sampleCalls : List BoundaryCall :=
  [.point (pointKey [97]) [] 1 .kTypeValue, .range (startKey [99]) (stopKey [100]) 1,
    .point (pointKey [98]) [] 1 .kTypeValue]

theorem boundaries_of_prefixFree_sample :
    IsLeast (userKeys [pointKey [97], pointKey [98]]) (InternalKey.extractUserKey
      (({} : FileBoundaries).applyCalls noBlobs sampleCalls).smallestPointKeyYch) := by
  have hpoints : PrefixFree (sampleCalls.filterMap (·.addedPoint noBlobs)) := by
    unfold PrefixFree
    decide
  have hstarts : PrefixFree (sampleCalls.filterMap (·.addedStart)) := by
    unfold PrefixFree
    decide
  have hends : PrefixFree (sampleCalls.filterMap (·.addedEnd)) := by
    unfold PrefixFree
    decide
  exact ((boundaries_of_prefixFree hpoints hstarts hends).1 (by decide)).1

/-- The key `a` is a prefix of the key `a` with a zero byte behind it. -/
def prefixCalls : List BoundaryCall :=
  [.point (pointKey [97]) [] 1 .kTypeValue, .point (pointKey [97, 0]) [] 1 .kTypeValue,
    .range (startKey [97]) (stopKey [98]) 1, .range (startKey [97, 0]) (stopKey [98, 0]) 1]

/-- The points come in the order of internal keys, and all four bounds are wrong. -/
theorem boundaries_of_prefixes :
    (pointKey [97]).less (pointKey [97, 0]) = true ∧
      InternalKey.extractUserKey
        (({} : FileBoundaries).applyCalls noBlobs prefixCalls).smallestPointKeyYch = [97, 0] ∧
      InternalKey.extractUserKey
        (({} : FileBoundaries).applyCalls noBlobs prefixCalls).largestPointKeyYch = [97] ∧
      InternalKey.extractUserKey
        (({} : FileBoundaries).applyCalls noBlobs prefixCalls).smallestRangetombstoneKeyYch =
          [97, 0] ∧
      InternalKey.extractUserKey
        (({} : FileBoundaries).applyCalls noBlobs prefixCalls).largestRangetombstoneKeyYch =
          [98] := by
  refine ⟨?_, ?_, ?_, ?_, ?_⟩
  all_goals decide

end Spry
