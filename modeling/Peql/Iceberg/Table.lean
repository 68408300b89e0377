import Mathlib.Data.Multiset.AddSub
import Mathlib.Algebra.BigOperators.Group.Multiset.Basic
import Peql.Facts

/-!
# Iceberg tables

A table's metadata as a commit sees it: its snapshots in commit order, each with the manifests its list names, and which
one is current. Manifests are immutable, so a list holds them whole. Two things are the crate's and the catalog's, not
peQL's: an append produces a snapshot listing its base's manifests and one of its own (`fastAppend`), and the catalog
moves the table only while its uuid and its current snapshot are those the commit was made over (`updateTable`).
-/

namespace Peql

/-- A data file as a table records it, and the rows it holds. -/
structure TableFile where
  path : String
  records : Nat
  bytes : Nat
  rows : Multiset Row

inductive ManifestContent
  | data | deletes
deriving DecidableEq

/-- A manifest's entry: a file added or carried on by it (`alive`), or one it marks deleted. -/
structure ManifestEntry where
  alive : Bool
  content : ManifestContent
  file : TableFile

/-- A manifest as a manifest list names it, with the counts the list may hold, and what the manifest itself holds. -/
structure ManifestFile where
  path : String
  content : ManifestContent
  addedSnapshotId : Int
  addedFiles : Option Nat
  existingFiles : Option Nat
  addedRows : Option Nat
  existingRows : Option Nat
  entries : List ManifestEntry

/-- What a snapshot's data files add up to, as its summary counts them. -/
structure Totals where
  records : Nat
  files : Nat
  bytes : Nat
deriving DecidableEq

namespace Totals

def zero : Totals := ⟨0, 0, 0⟩

def add (a b : Totals) : Totals := ⟨a.records + b.records, a.files + b.files, a.bytes + b.bytes⟩

end Totals

/-- What a peQL write says of itself in its snapshot's summary. -/
structure Summary where
  contract : String
  contractHash : String
  compilationHash : String
  writeId : String
  write : Written

structure Snapshot where
  id : Int
  parent : Option Int
  manifests : List ManifestFile
  /-- Absent from a snapshot peQL did not write. -/
  summary : Option Summary
  operation : String
  /-- The summary's `total-` counts. -/
  totals : Option Totals
  schema : List ColumnDef

/-- A table as the catalog loads it. -/
structure Metadata where
  identifier : String
  uuid : String
  formatVersion : Nat
  schema : List ColumnDef
  /-- In commit order. -/
  snapshots : List Snapshot
  current : Option Int

/-! ## Rows -/

namespace ManifestFile

/-- The rows of the files the manifest holds alive. -/
def rows (m : ManifestFile) : Multiset Row :=
  ((m.entries.filter ManifestEntry.alive).map fun e => e.file.rows).sum

end ManifestFile

/-- The rows of the data manifests of a list. -/
def dataRows (ms : List ManifestFile) : Multiset Row :=
  ((ms.filter fun m => m.content = .data).map ManifestFile.rows).sum

/-- The rows the delete manifests of a list delete. -/
def deletedRows (ms : List ManifestFile) : Multiset Row :=
  ((ms.filter fun m => m.content = .deletes).map ManifestFile.rows).sum

/-- The rows a manifest list holds. -/
def listedRows (ms : List ManifestFile) : Multiset Row := dataRows ms - deletedRows ms

namespace Snapshot

def rows (s : Snapshot) : Multiset Row := listedRows s.manifests

end Snapshot

namespace Metadata

def snapshotById (md : Metadata) (id : Int) : Option Snapshot := md.snapshots.find? fun s => s.id = id

def currentSnapshot (md : Metadata) : Option Snapshot := md.current.bind md.snapshotById

/-- The manifests of the current snapshot; none when there is no snapshot. -/
def currentManifests (md : Metadata) : List ManifestFile :=
  match md.currentSnapshot with
  | some s => s.manifests
  | none => []

/-- The table with one more snapshot, which is its current one. -/
def push (md : Metadata) (s : Snapshot) : Metadata :=
  { md with snapshots := md.snapshots ++ [s], current := some s.id }

/-- The rows of the current snapshot. -/
def rows (md : Metadata) : Multiset Row := listedRows md.currentManifests

end Metadata

/-! ## The crate and the catalog -/

/-- The rows of some files. -/
def fileRows (files : List TableFile) : Multiset Row := (files.map TableFile.rows).sum

def fileTotals (files : List TableFile) : Totals :=
  ⟨(files.map TableFile.records).sum, files.length, (files.map TableFile.bytes).sum⟩

/-- The manifest an append writes for its files. -/
def addedManifest (path : String) (snapshotId : Int) (files : List TableFile) : ManifestFile where
  path := path
  content := .data
  addedSnapshotId := snapshotId
  addedFiles := some files.length
  existingFiles := some 0
  addedRows := some (fileTotals files).records
  existingRows := some 0
  entries := files.map fun f => ⟨true, .data, f⟩

/-- The crate's `fast_append` over `base`: a snapshot that lists the base's current manifests and one of its own. -/
def fastAppend (base : Metadata) (id : Int) (manifestPath : String) (files : List TableFile)
    (summary : Summary) : Snapshot where
  id := id
  parent := base.current
  manifests := base.currentManifests ++ [addedManifest manifestPath id files]
  summary := some summary
  operation := "append"
  totals := some (((base.currentSnapshot.bind Snapshot.totals).getD .zero).add (fileTotals files))
  schema := base.schema

/-- `Catalog::update_table`, with the requirements of a commit made over `base`: the snapshot is added and made current
only while the table is the same table, at the same snapshot. -/
def updateTable (table base : Metadata) (snapshot : Snapshot) : Option Metadata :=
  if table.uuid = base.uuid ∧ table.current = base.current then some (table.push snapshot) else none

/-! ## Lists of manifests -/

theorem dataRows_append (a b : List ManifestFile) : dataRows (a ++ b) = dataRows a + dataRows b := by
  simp [dataRows]

theorem deletedRows_append (a b : List ManifestFile) : deletedRows (a ++ b) = deletedRows a + deletedRows b := by
  simp [deletedRows]

theorem deletedRows_of_data {ms : List ManifestFile} (h : ∀ m ∈ ms, m.content = .data) : deletedRows ms = 0 := by
  have hnil : ms.filter (fun m => m.content = .deletes) = [] := by
    rw [List.filter_eq_nil_iff]
    intro m hm
    simp [h m hm]
  simp [deletedRows, hnil]

/-- More data, and the rows deleted before still among the rows there were. -/
theorem listedRows_append_data {a b : List ManifestFile} (ha : deletedRows a ≤ dataRows a)
    (hb : ∀ m ∈ b, m.content = .data) : listedRows (a ++ b) = listedRows a + dataRows b := by
  unfold listedRows
  rw [dataRows_append, deletedRows_append, deletedRows_of_data hb, add_zero]
  exact tsub_add_eq_add_tsub ha |>.symm

theorem addedManifest_rows (path : String) (id : Int) (files : List TableFile) :
    dataRows [addedManifest path id files] = fileRows files := by
  have hall : (files.map fun f => (⟨true, .data, f⟩ : ManifestEntry)).filter ManifestEntry.alive =
      files.map fun f => ⟨true, .data, f⟩ := by
    rw [List.filter_eq_self]
    intro e he
    obtain ⟨f, _, rfl⟩ := List.mem_map.1 he
    rfl
  simp [dataRows, addedManifest, ManifestFile.rows, fileRows, hall, List.map_map, Function.comp_def]

end Peql
