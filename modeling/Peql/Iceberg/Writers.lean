import Peql.Iceberg.Commit
import Peql.Lib.Runs

/-!
# Writers of one table

Any number of writes of any engines to one table, each between its calls of the catalog in a phase of its own. A step is
one call: a load (`load`), a commit the catalog takes or refuses, a schema change, a commit of another Iceberg writer.
The log records, in commit order, what was committed.
-/

namespace Peql

/-- What a write's snapshot does to the table's files. -/
inductive WriteKind
  | append | overwrite
  /-- Replaces the files of this snapshot with its own, which hold the same rows. -/
  | rewrite (of : Int)
deriving DecidableEq

def WriteKind.written : WriteKind → Written
  | append => .append
  | overwrite => .overwrite
  | rewrite _ => .rewrite

/-- A write in progress: what it is, the snapshot current when it began, the contract it writes under, the files it has
written. -/
structure IcebergWrite where
  id : String
  kind : WriteKind
  base : Option Int
  contract : String
  contractHash : String
  compilationHash : String
  files : List TableFile

namespace IcebergWrite

def summary (w : IcebergWrite) : Summary := ⟨w.contract, w.contractHash, w.compilationHash, w.id, w.kind.written⟩

/-- The rows of a table after the write, from the rows before it. -/
def effect (w : IcebergWrite) (rows : Multiset Row) : Multiset Row :=
  match w.kind with
  | .append => rows + fileRows w.files
  | .overwrite => fileRows w.files
  | .rewrite _ => rows

/-- The write begins on `table`. A rewrite's files hold the rows of the snapshot it rewrites. -/
structure Begins (w : IcebergWrite) (table : Metadata) : Prop where
  base : w.base = table.current
  copies : ∀ of, w.kind = .rewrite of → ∃ s ∈ table.snapshots, s.id = of ∧ fileRows w.files = s.rows

end IcebergWrite

/-- Where a write is. -/
inductive Phase
  /-- The files are written. -/
  | written
  /-- A rewrite knows the manifests of its snapshot. -/
  | opened (rewritten : Rewritten)
  /-- A rewrite is to make an attempt. -/
  | attempt (rewritten : Rewritten)
  /-- An overwrite or a rewrite has made its base. -/
  | forged (base : Metadata) (rewritten : Option Rewritten)
  /-- The crate has loaded `base` and commits the snapshot it makes over it. -/
  | producing (base : Metadata) (rewritten : Option Rewritten)
  | committed (snapshot : Int)
  | failed (error : PeqlError)

namespace Phase

/-- The write has returned. -/
def done : Phase → Bool
  | committed _ | failed _ => true
  | _ => false

end Phase

/-- The phase an outcome leads to. -/
def settle {α : Type} (next : α → Phase) : Except PeqlError α → Phase
  | .ok a => next a
  | .error e => .failed e

/-- `IcebergWrite::commit` from one call of the catalog to the next: the write loads `table`. The crate loads an
append's base as it is, and the base of the others through the pinned catalog: a rewrite whose base is no longer the
table's makes another attempt, an overwrite is refused. -/
def load (w : IcebergWrite) (table : Metadata) : Phase → Option Phase
  | .written =>
    match w.kind with
    | .append => some (.producing table none)
    | .overwrite => some (settle (fun base => .forged base none) (overwriteBase w.base table))
    | .rewrite of => some (settle .opened (rewriteBegin table of))
  | .opened r => some (settle .attempt (rewriteRead r table))
  | .attempt r => some (settle (fun (r, base) => .forged base (some r)) (rewriteBase r table))
  | .forged base none =>
    match pinned w.kind.written.text base table with
    | .ok base => some (.producing base none)
    | .error why => some (.failed (pinnedRefused w.kind.written.text base why))
  | .forged base (some r) =>
    match pinned w.kind.written.text base table with
    | .ok base => some (.producing base (some r))
    | .error _ => some (.attempt r)
  | .producing .. | .committed _ | .failed _ => none

/-- After a commit the catalog refused: the crate loads an append's base again, a rewrite makes another attempt, an
overwrite is refused. -/
def afterConflict (w : IcebergWrite) (base : Metadata) (rewritten : Option Rewritten) (why : String) : Phase :=
  match w.kind, rewritten with
  | .append, _ => .written
  | _, some r => .attempt r
  | _, none => .failed (pinnedRefused w.kind.written.text base why)

/-- A commit, in the log. -/
inductive Commit
  | peql (writer : Nat) (write : IcebergWrite) (snapshot : Int)
  /-- By another Iceberg writer, which left these rows. -/
  | other (rows : Multiset Row) (snapshot : Int)

namespace Commit

def snapshot : Commit → Int
  | peql _ _ id => id
  | other _ id => id

def writer : Commit → Option Nat
  | peql n _ _ => some n
  | other _ _ => none

/-- The rows after the commit, from the rows before it. -/
def effect (rows : Multiset Row) : Commit → Multiset Row
  | peql _ w _ => w.effect rows
  | other rows' _ => rows'

/-- The snapshot an overwrite began from. -/
def overwrote : Commit → Option (Option Int)
  | peql _ w _ => if w.kind = .overwrite then some w.base else none
  | other _ _ => none

end Commit

/-- A snapshot another Iceberg writer commits over `table`: manifests are immutable, so one it lists that is not the
current snapshot's own is new, with its own path. Removing a file replaces its manifest or adds a delete manifest. -/
structure OtherSnapshot (table : Metadata) (s : Snapshot) : Prop where
  parent : s.parent = table.current
  freshId : ∀ t ∈ table.snapshots, t.id ≠ s.id
  pathsNodup : (s.manifests.map ManifestFile.path).Nodup
  manifests : ∀ m ∈ s.manifests, m ∈ table.currentManifests ∨ ∀ t ∈ table.snapshots, ∀ m' ∈ t.manifests,
    m'.path ≠ m.path
  deletes : deletedRows s.manifests ≤ dataRows s.manifests

structure Writer where
  write : IcebergWrite
  phase : Phase

/-- A table, the writes begun on it, and what was committed since the start. -/
structure World where
  table : Metadata
  writers : Lookup Nat Writer
  log : List Commit

namespace World

/-- Write `n` is in phase `p`. -/
def put (s : World) (n : Nat) (w : IcebergWrite) (p : Phase) : World :=
  { s with writers := s.writers.insert n ⟨w, p⟩ }

theorem put_self (s : World) (n : Nat) (w : IcebergWrite) (p : Phase) : (s.put n w p).writers n = some ⟨w, p⟩ :=
  Lookup.insert_self _ _ _

theorem put_of_ne (s : World) {n m : Nat} (w : IcebergWrite) (p : Phase) (h : m ≠ n) :
    (s.put n w p).writers m = s.writers m :=
  Lookup.insert_of_ne _ _ h

/-- The table is at `table` by the commit of write `n`, snapshot `id`. -/
def commit (s : World) (n : Nat) (w : IcebergWrite) (id : Int) (table : Metadata) : World :=
  { s.put n w (.committed id) with table := table, log := s.log ++ [.peql n w id] }

/-- The table is at `table` by another writer's commit of `snap`. -/
def commitOther (s : World) (snap : Snapshot) (table : Metadata) : World :=
  { s with table := table, log := s.log ++ [.other snap.rows snap.id] }

end World

inductive Action
  | begins (n : Nat) | loads (n : Nat) | commits (n : Nat) | conflicts (n : Nat) | fails (n : Nat)
  | evolves | others

/-- One call of the catalog, or a write that begins or gives up. -/
inductive Step : World → Action → World → Prop
  | begins {s : World} {n : Nat} {w : IcebergWrite} (fresh : s.writers n = none) (hw : w.Begins s.table) :
      Step s (.begins n) (s.put n w .written)
  | loads {s : World} {n : Nat} {w : IcebergWrite} {p p' : Phase} (holds : s.writers n = some ⟨w, p⟩)
      (hp : load w s.table p = some p') :
      Step s (.loads n) (s.put n w p')
  | commits {s : World} {n : Nat} {w : IcebergWrite} {base table : Metadata} {r : Option Rewritten} {id : Int}
      {path : String} (holds : s.writers n = some ⟨w, .producing base r⟩)
      (freshId : ∀ t ∈ s.table.snapshots, t.id ≠ id)
      (freshPath : ∀ t ∈ s.table.snapshots, ∀ m ∈ t.manifests, m.path ≠ path)
      (taken : updateTable s.table base (fastAppend base id path w.files w.summary) = some table) :
      Step s (.commits n) (s.commit n w id table)
  | conflicts {s : World} {n : Nat} {w : IcebergWrite} {base : Metadata} {r : Option Rewritten} {id : Int}
      {path : String} (why : String) (holds : s.writers n = some ⟨w, .producing base r⟩)
      (refused : updateTable s.table base (fastAppend base id path w.files w.summary) = none) :
      Step s (.conflicts n) (s.put n w (afterConflict w base r why))
  | fails {s : World} {n : Nat} {w : IcebergWrite} {p : Phase} (e : PeqlError) (holds : s.writers n = some ⟨w, p⟩)
      (going : p.done = false) : Step s (.fails n) (s.put n w (.failed e))
  | evolves {s : World} (schema : List ColumnDef) : Step s .evolves
      { s with table := { s.table with schema := schema } }
  | others {s : World} {snap : Snapshot} (hs : OtherSnapshot s.table snap) :
      Step s .others (s.commitOther snap (s.table.push snap))

end Peql
