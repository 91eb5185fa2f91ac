import Spry.Emulation.SSTFile

/-!
# Dealing entries out to tiles and pages

`PopulateFile_RDF` deals the entries of a list out to tiles and pages whose numbers come from
three roundings: the tiles of the file, the pages of a tile and the entries of a page. Nothing
gets out of order, and nothing is lost exactly if every tile has room for its share and the
shares reach to the end of the list.
-/

namespace Spry.Emulation

variable {α : Type} {es : List α}

theorem flatten_populatePages (n perPage : ℕ) (es : List α) :
    (populatePages n perPage es).flatten = es.take (n * perPage) := by
  induction n generalizing perPage es with
  | zero => simp [populatePages]
  | succ n ih =>
    rw [populatePages, List.flatten_cons, ih]
    rcases le_total perPage es.length with hle | hle
    · rw [min_eq_left hle, ← List.take_add, Nat.add_one_mul, Nat.add_comm]
    · have hlong : es.length ≤ (n + 1) * perPage := by
        rw [Nat.add_one_mul]
        omega
      simp [min_eq_right hle, List.take_of_length_le hlong]

theorem populateTiles_sublist (pages : ℕ → ℕ) (perPage count i perTile : ℕ) (es : List α) :
    (populateTiles pages perPage count i perTile es).flatten.flatten.Sublist es := by
  induction count generalizing i perTile es with
  | zero => simp [populateTiles]
  | succ n ih =>
    rw [populateTiles, List.flatten_cons, List.flatten_append, flatten_populatePages]
    conv_rhs => rw [← List.take_append_drop (min perTile es.length) es]
    exact (List.take_sublist _ _).append (ih _ _ _)

theorem flatten_populateTiles_zero (pages : ℕ → ℕ) (count i perTile : ℕ) (es : List α) :
    (populateTiles pages 0 count i perTile es).flatten.flatten = [] := by
  induction count generalizing i perTile es with
  | zero => rfl
  | succ n ih =>
    rw [populateTiles, List.flatten_cons, List.flatten_append, flatten_populatePages, ih]
    simp

/-- Dealing out `n` entries, `perTile` to a tile, every tile has room for its share and the shares
reach to the last entry. -/
structure TilesFit (pages : ℕ → ℕ) (perPage count perTile n : ℕ) : Prop where
  enough : n ≤ count * perTile
  room : ∀ i < count, min perTile (n - i * perTile) ≤ pages i * perPage

theorem tilesFit_zero_iff {pages : ℕ → ℕ} {perPage perTile n : ℕ} :
    TilesFit pages perPage 0 perTile n ↔ n = 0 := by
  constructor
  · intro h
    have := h.enough
    omega
  · rintro rfl
    exact ⟨Nat.zero_le _, by simp⟩

theorem tilesFit_succ_iff {pages : ℕ → ℕ} {perPage count perTile n : ℕ} :
    TilesFit pages perPage (count + 1) perTile n ↔
      min perTile n ≤ pages 0 * perPage ∧
        TilesFit (fun i => pages (i + 1)) perPage count (min perTile n) (n - min perTile n) := by
  have hshare : ∀ i, n - (i + 1) * perTile = n - perTile - i * perTile := fun i => by
    rw [Nat.add_one_mul]
    omega
  have hroom : (∀ i < count + 1, min perTile (n - i * perTile) ≤ pages i * perPage) ↔
      min perTile n ≤ pages 0 * perPage ∧
        ∀ i < count, min perTile (n - perTile - i * perTile) ≤ pages (i + 1) * perPage := by
    rw [Nat.forall_lt_succ_left]
    simp only [Nat.zero_mul, Nat.sub_zero, hshare]
  rcases le_total perTile n with hle | hle
  · rw [min_eq_left hle] at hroom ⊢
    constructor
    · rintro ⟨henough, hall⟩
      rw [Nat.add_one_mul] at henough
      exact ⟨(hroom.mp hall).1, by omega, (hroom.mp hall).2⟩
    · rintro ⟨hfirst, henough, hall⟩
      refine ⟨?_, hroom.mpr ⟨hfirst, hall⟩⟩
      rw [Nat.add_one_mul]
      omega
  · -- the first tile takes everything, the others get nothing
    rw [min_eq_right hle] at hroom ⊢
    have hnothing : n - perTile = 0 := by omega
    constructor
    · rintro ⟨_, hall⟩
      exact ⟨(hroom.mp hall).1, by simp, by simp⟩
    · rintro ⟨hfirst, _⟩
      refine ⟨?_, hroom.mpr ⟨hfirst, by simp [hnothing]⟩⟩
      rw [Nat.add_one_mul]
      omega

/-- The tiles from the `i`-th on hold the whole list exactly if it fits. -/
theorem flatten_populateTiles_eq_iff {pages : ℕ → ℕ} {perPage count i perTile : ℕ} :
    (populateTiles pages perPage count i perTile es).flatten.flatten = es ↔
      TilesFit (fun j => pages (i + j)) perPage count perTile es.length := by
  induction count generalizing i perTile es with
  | zero => simp [populateTiles, tilesFit_zero_iff, eq_comm]
  | succ n ih =>
    have hsub := populateTiles_sublist pages perPage n (i + 1) (min perTile es.length)
      (es.drop (min perTile es.length))
    have hnext : (fun j => pages (i + (j + 1))) = fun j => pages (i + 1 + j) := by
      funext j
      rw [Nat.add_right_comm, Nat.add_assoc]
    rw [tilesFit_succ_iff, hnext, ← List.length_drop, ← ih, populateTiles, List.flatten_cons,
      List.flatten_append, flatten_populatePages, List.take_take]
    simp only [Nat.add_zero]
    constructor
    · intro heq
      have hlength := congrArg List.length heq
      have hle := hsub.length_le
      rw [List.length_append, List.length_take] at hlength
      rw [List.length_drop] at hle
      have hfirst : min perTile es.length ≤ pages i * perPage := by omega
      refine ⟨hfirst, hsub.eq_of_length ?_⟩
      rw [List.length_drop]
      omega
    · rintro ⟨hfirst, heq⟩
      rw [heq, min_eq_right hfirst, List.take_append_drop]

theorem flatten_populateTiles_cons {e : α} {pages : ℕ → ℕ} {perPage count i perTile : ℕ}
    (hcount : 0 < count) (hpages : 0 < pages i) (hpage : 0 < perPage) (htile : 0 < perTile) :
    ∃ stored, (populateTiles pages perPage count i perTile (e :: es)).flatten.flatten =
      e :: stored := by
  obtain ⟨n, rfl⟩ := Nat.exists_eq_succ_of_ne_zero hcount.ne'
  have hfirst : 0 < min (pages i * perPage) (min perTile (e :: es).length) :=
    lt_min (Nat.mul_pos hpages hpage) (lt_min htile (by simp))
  obtain ⟨k, hk⟩ := Nat.exists_eq_succ_of_ne_zero hfirst.ne'
  rw [populateTiles, List.flatten_cons, List.flatten_append, flatten_populatePages,
    List.take_take, hk, List.take_succ_cons, List.cons_append]
  exact ⟨_, rfl⟩

section Room

variable {env : EmuEnv} {level size perPage n : ℕ}

/-- The file has room for `n` entries of `size` bytes, `perPage` to a page: the tiles that their
bytes need take all of them, and the pages of a full tile and of the last tile have room for
their shares. -/
structure HasRoom (env : EmuEnv) (level size perPage n : ℕ) : Prop where
  enough : n ≤ deleteTileCount env (n * size) * (env.deleteTileSize / size)
  full : 1 < deleteTileCount env (n * size) →
    env.deleteTileSize / size ≤ env.getDeleteTileSize level * perPage
  last : n - (deleteTileCount env (n * size) - 1) * (env.deleteTileSize / size) ≤
    pagesOfTile env level 1 0 * perPage

theorem pagesOfTile_last {count i : ℕ} (h : i + 1 = count) :
    pagesOfTile env level count i = pagesOfTile env level 1 0 := by
  simp [pagesOfTile, h]

theorem pagesOfTile_of_ne {count i : ℕ} (h : i + 1 ≠ count) :
    pagesOfTile env level count i = env.getDeleteTileSize level := by
  simp [pagesOfTile, h]

theorem pagesOfTile_pos {count i : ℕ} (h : 0 < env.getDeleteTileSize level) :
    0 < pagesOfTile env level count i := by
  rw [pagesOfTile]
  split_ifs with hdvd
  · exact h
  · exact Nat.pos_of_ne_zero hdvd
  · exact h

theorem deleteTileCount_pos {bytes : ℕ} (htile : 0 < env.deleteTileSize) (h : 0 < bytes) :
    0 < deleteTileCount env bytes :=
  Nat.div_pos (by omega) htile

theorem shares_lt {count : ℕ} (hcount : deleteTileCount env (n * size) = count + 1) :
    count * (env.deleteTileSize / size) < n := by
  have hpos : 0 < env.deleteTileSize := by
    rw [Nat.pos_iff_ne_zero]
    intro hzero
    rw [deleteTileCount, hzero, Nat.div_zero] at hcount
    omega
  have hbytes : count * env.deleteTileSize < n * size := by
    have hle := Nat.div_mul_le_self (n * size + env.deleteTileSize - 1) env.deleteTileSize
    rw [← deleteTileCount, hcount, Nat.add_one_mul] at hle
    omega
  have hshares : count * (env.deleteTileSize / size) * size ≤ count * env.deleteTileSize := by
    rw [Nat.mul_assoc]
    exact Nat.mul_le_mul_left count (Nat.div_mul_le_self _ _)
  exact Nat.lt_of_mul_lt_mul_right (hshares.trans_lt hbytes)

theorem tilesFit_iff_hasRoom :
    TilesFit (pagesOfTile env level (deleteTileCount env (n * size))) perPage
      (deleteTileCount env (n * size)) (env.deleteTileSize / size) n ↔
        HasRoom env level size perPage n := by
  rcases hcount : deleteTileCount env (n * size) with _ | count
  · rw [tilesFit_zero_iff]
    constructor
    · rintro rfl
      exact ⟨Nat.zero_le _, by omega, by simp⟩
    · intro h
      have := h.enough
      rw [hcount] at this
      omega
  have hlt := shares_lt hcount
  constructor
  · rintro ⟨henough, hroom⟩
    refine ⟨hcount ▸ henough, fun hfull => ?_, ?_⟩
    · -- the first tile is full, as it is not the last
      have hone : env.deleteTileSize / size ≤ count * (env.deleteTileSize / size) :=
        Nat.le_mul_of_pos_left _ (by omega)
      have hfirst := hroom 0 (by omega)
      rw [Nat.zero_mul, Nat.sub_zero, min_eq_left (by omega),
        pagesOfTile_of_ne (by omega)] at hfirst
      exact hfirst
    · have hlast := hroom count (by omega)
      rw [Nat.add_one_mul] at henough
      rwa [min_eq_right (by omega), pagesOfTile_last rfl, ← Nat.add_sub_cancel count 1,
        ← hcount] at hlast
  · rintro ⟨henough, hfull, hlast⟩
    rw [hcount] at henough hfull hlast
    refine ⟨henough, fun i hi => ?_⟩
    by_cases hi' : i = count
    · subst hi'
      rw [pagesOfTile_last rfl]
      exact (min_le_right _ _).trans hlast
    · rw [pagesOfTile_of_ne (by omega)]
      exact (min_le_left _ _).trans (hfull (by omega))

theorem hasRoom_of_sizes (hsize : 0 < size)
    (htiles : env.bufferSizeInPages % env.getDeleteTileSize level = 0)
    (hpos : 0 < env.deleteTileSize)
    (htile : env.deleteTileSize = env.getDeleteTileSize level * (perPage * size)) :
    HasRoom env level size perPage n := by
  have hper : env.deleteTileSize / size = env.getDeleteTileSize level * perPage := by
    rw [htile, ← Nat.mul_assoc, Nat.mul_div_cancel _ hsize]
  have hpages : pagesOfTile env level 1 0 = env.getDeleteTileSize level := if_pos htiles
  have hbytes : n * size ≤ deleteTileCount env (n * size) * env.deleteTileSize := by
    have hdiv := Nat.lt_div_mul_add (a := n * size + env.deleteTileSize - 1) hpos
    rw [← deleteTileCount] at hdiv
    omega
  have henough : n ≤ deleteTileCount env (n * size) * (env.deleteTileSize / size) := by
    refine Nat.le_of_mul_le_mul_right ?_ hsize
    calc n * size ≤ deleteTileCount env (n * size) * env.deleteTileSize := hbytes
      _ = deleteTileCount env (n * size) * (env.deleteTileSize / size) * size := by
        rw [hper, htile]
        simp only [Nat.mul_assoc]
  refine ⟨henough, fun _ => hper.le, ?_⟩
  rw [hpages, ← hper]
  rcases hcount : deleteTileCount env (n * size) with _ | count
  · rw [hcount] at henough
    omega
  · rw [hcount, Nat.add_one_mul] at henough
    rw [Nat.add_sub_cancel]
    omega

/-- `PopulateFile_RDF` stores the whole list exactly if the file has room for its points and for
its ranges. -/
theorem entries_populateFile_eq_iff {l : EntryList} :
    (populateFile env level l).entries = l ↔
      HasRoom env level env.perKvSize env.pointentriesPerPage l.points.length ∧
        HasRoom env level env.perRangeDeleteSize (env.pageSize / env.perRangeDeleteSize)
          l.ranges.length := by
  obtain ⟨ps, rs⟩ := l
  rw [SSTFile.entries, EntryList.mk.injEq]
  simp only [populateFile, flatten_populateTiles_eq_iff, Nat.zero_add]
  exact and_congr tilesFit_iff_hasRoom tilesFit_iff_hasRoom

theorem points_populateFile_sublist (env : EmuEnv) (level : ℕ) (l : EntryList) :
    (populateFile env level l).entries.points.Sublist l.points :=
  populateTiles_sublist _ _ _ _ _ _

theorem ranges_populateFile_sublist (env : EmuEnv) (level : ℕ) (l : EntryList) :
    (populateFile env level l).entries.ranges.Sublist l.ranges :=
  populateTiles_sublist _ _ _ _ _ _

/-- A configuration where the sizes fit: pages hold whole entries, tiles hold whole pages and the
buffer holds whole tiles. -/
theorem storesAll_of_sizes (perRangePage : ℕ) (hkv : 0 < env.perKvSize)
    (hrange : 0 < env.perRangeDeleteSize) (hpos : 0 < env.deleteTileSize)
    (htiles : ∀ level, env.bufferSizeInPages % env.getDeleteTileSize level = 0)
    (htile : ∀ level, env.deleteTileSize = env.getDeleteTileSize level * env.pageSize)
    (hpage : env.pageSize = env.pointentriesPerPage * env.perKvSize)
    (hrangePage : env.pageSize = perRangePage * env.perRangeDeleteSize) : env.StoresAll := by
  intro level l _
  have hperPage : env.pageSize / env.perRangeDeleteSize = perRangePage := by
    rw [hrangePage, Nat.mul_div_cancel _ hrange]
  rw [entries_populateFile_eq_iff, hperPage]
  exact ⟨hasRoom_of_sizes hkv (htiles level) hpos (by rw [htile level, hpage]),
    hasRoom_of_sizes hrange (htiles level) hpos (by rw [htile level, hrangePage])⟩

end Room

end Spry.Emulation
