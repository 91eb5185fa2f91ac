import Spry.Emulation.EntryList

/-!
# Files, delete tiles and pages of the emulator

A file holds its point entries in tiles of pages and its range entries in tiles of their own.
The bounds kept at a page, a tile or a file are the ones the metadata update leaves after the
entries have been added one by one, so they are computed from the entries here. Tiles and pages
of range entries have bounds that nothing reads.
-/

namespace Spry.Emulation

/-- The update of the bounds of a page or a file; `-1` stands for no bound. -/
def noteBounds (b : ℤ × ℤ) (lo hi : ℤ) : ℤ × ℤ :=
  (if b.1 < 0 ∨ lo < b.1 then lo else b.1, if b.2 < 0 ∨ b.2 < hi then hi else b.2)

def noteTileBounds (b : ℤ × ℤ) (k : ℤ) : ℤ × ℤ :=
  (if b.1 < 0 ∨ (k < b.1 ∧ 0 < k) then k else b.1,
    if b.2 < 0 ∨ (b.2 < k ∧ 0 < k) then k else b.2)

def pointBounds (ps : List PointEntry) : ℤ × ℤ :=
  ps.foldl (fun b p => noteBounds b p.sortKey p.sortKey) (-1, -1)

def tileBounds (ps : List PointEntry) : ℤ × ℤ :=
  ps.foldl (fun b p => noteTileBounds b p.sortKey) (-1, -1)

def rangeBounds (rs : List (ℤ × ℤ)) : ℤ × ℤ :=
  rs.foldl (fun b r => noteBounds b r.1 r.2) (-1, -1)

structure SSTFile where
  pointDeleteTiles : List (List (List PointEntry))
  rangeDeleteTiles : List (List (List (ℤ × ℤ)))
  deriving DecidableEq, Repr

namespace SSTFile

def entries (f : SSTFile) : EntryList :=
  ⟨f.pointDeleteTiles.flatten.flatten, f.rangeDeleteTiles.flatten.flatten⟩

def getMinSortKey (f : SSTFile) : ℤ := (pointBounds f.entries.points).1

def getMaxSortKey (f : SSTFile) : ℤ := (pointBounds f.entries.points).2

def getMinRangeKey (f : SSTFile) : ℤ := (rangeBounds f.entries.ranges).1

def getMaxRangeKey (f : SSTFile) : ℤ := (rangeBounds f.entries.ranges).2

def getSSTMaxKey (f : SSTFile) : ℤ := toInt (max f.getMaxSortKey f.getMaxRangeKey)

def getSSTMinKey (f : SSTFile) : ℤ :=
  toInt <|
    if f.getMinRangeKey < 0 then f.getMinSortKey
    else if f.getMinSortKey < 0 then f.getMinRangeKey
    else min f.getMinSortKey f.getMinRangeKey

end SSTFile

section Populate

variable {α : Type}

/-- `pageCount` pages take at most `perPage` entries each; the number is lowered for good when
fewer are left. -/
def populatePages : (pageCount perPage : ℕ) → List α → List (List α)
  | 0, _, _ => []
  | n + 1, perPage, es =>
    es.take (min perPage es.length) ::
      populatePages n (min perPage es.length) (es.drop (min perPage es.length))

/-- The tiles from the `i`-th on; `pages` gives the page count of a tile. -/
def populateTiles (pages : ℕ → ℕ) (perPage : ℕ) :
    (count i perTile : ℕ) → List α → List (List (List α))
  | 0, _, _, _ => []
  | n + 1, i, perTile, es =>
    populatePages (pages i) perPage (es.take (min perTile es.length)) ::
      populateTiles pages perPage n (i + 1) (min perTile es.length)
        (es.drop (min perTile es.length))

variable (env : EmuEnv) (level : ℕ)

def pagesOfTile (count i : ℕ) : ℕ :=
  if env.bufferSizeInPages % env.getDeleteTileSize level = 0 then env.getDeleteTileSize level
  else if i + 1 = count then env.bufferSizeInPages % env.getDeleteTileSize level
  else env.getDeleteTileSize level

def deleteTileCount (size : ℕ) : ℕ := (size + env.deleteTileSize - 1) / env.deleteTileSize

/-- `createNewSSTFile_RDF` followed by `PopulateFile_RDF`. -/
def populateFile (l : EntryList) : SSTFile where
  pointDeleteTiles :=
    let count := deleteTileCount env (l.pointSizeInByte env)
    populateTiles (pagesOfTile env level count) env.pointentriesPerPage count 0
      (env.deleteTileSize / env.perKvSize) l.points
  rangeDeleteTiles :=
    let count := deleteTileCount env (l.rangeSizeInByte env)
    populateTiles (pagesOfTile env level count) (env.pageSize / env.perRangeDeleteSize) count 0
      (env.deleteTileSize / env.perRangeDeleteSize) l.ranges

end Populate

/-- `PopulateFile_RDF` stores every entry of a list that fits a file. -/
def EmuEnv.StoresAll (env : EmuEnv) : Prop :=
  ∀ level (l : EntryList), l.pointSizeInByte env + l.rangeSizeInByte env ≤ env.fileSize →
    (populateFile env level l).entries = l

def overlappedEntries (min max : ℤ) : List SSTFile → EntryList
  | [] => EntryList.clear
  | f :: fs =>
    if f.getSSTMaxKey < min then overlappedEntries min max fs
    else if max < f.getSSTMinKey then EntryList.clear
    else
      ⟨f.entries.points ++ (overlappedEntries min max fs).points,
        f.entries.ranges ++ (overlappedEntries min max fs).ranges⟩

def EntryList.getMinmaxRangeOverlappedEntriesFromFiles (l : EntryList) (files : List SSTFile) :
    Option EntryList :=
  if l.empty then some EntryList.clear
  else if ascendingPoints l.points ∧ ascending l.ranges ∧
      l.ranges.IsChain (fun a b => a.2 ≤ b.1) ∧ l.getMinKey ≤ l.getMaxKey then
    some (overlappedEntries l.getMinKey l.getMaxKey files)
  else none

section Search

variable (key : ℤ)

/-- The loop over the files of a level, the tiles of a file or the pages of a tile: it ends at
the first part that starts behind the key and skips the ones that end before it. -/
def scan {α : Type} (bounds : α → ℤ × ℤ) (search : α → Option Bytes) : List α → Option Bytes
  | [] => none
  | c :: cs =>
    if key < (bounds c).1 then none
    else if (bounds c).2 < key then scan bounds search cs
    else (search c).elim (scan bounds search cs) some

def lookup (ps : List PointEntry) : Option Bytes :=
  (ps.find? fun p => p.sortKey = key).map PointEntry.value

def searchPages (pages : List (List PointEntry)) : Option Bytes :=
  scan key pointBounds (lookup key) pages

def searchTiles (tiles : List (List (List PointEntry))) : Option Bytes :=
  scan key (fun tile => tileBounds tile.flatten) (searchPages key) tiles

def searchFiles (files : List SSTFile) : Option Bytes :=
  scan key (fun f => (f.getMinSortKey, f.getMaxSortKey))
    (fun f => searchTiles key f.pointDeleteTiles) files

end Search

end Spry.Emulation
