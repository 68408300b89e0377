import Peql.Engine.State

/-!
# Manifests, as a call reads and makes them

`Engine::refresh` validates the whole of a contract's data and records what it finds; `Engine::iceberg_facts` takes a
snapshot's facts from the nearest snapshot back that has them and the writes since, recording each on the way;
`Engine::ensure_manifest` and `ensure_manifest_as_of` see that a contract's data has a manifest before it is resolved,
and `Engine::manifest` gives the one the engine has.
-/

namespace Peql

/-! ## Columns and rows -/

/-- The columns of a contract's data before flags and derived columns: its row's, and those enrichment adds. -/
def scanColumns (cc : CompiledContract) : List String :=
  cc.rowSchema.map ColumnDef.name ++ cc.enrich.map DerivedColumn.column

/-- The columns a view reads: those peQL writes, or the raw row columns. -/
def fileColumns (cc : CompiledContract) (stored : Bool) : List String :=
  if stored then scanColumns cc ++ cc.flags.map Flag.column ++ cc.derived.map ColumnDef.name
  else cc.rowSchema.map ColumnDef.name

/-- A row as a provider of these columns reads it. -/
def rowOf (columns : List String) (r : Row) : Row := columns.map fun c => (c, r.get c)

/-- The rows a contract's provider reads from some files. -/
def providedRows (cc : CompiledContract) (stored : Bool) (files : List StoredFile) : Multiset Row :=
  (storedRows files).map (rowOf (fileColumns cc stored))

/-- The rows of a table bound in place of files. -/
def batchRows (batches : List Batch) : Multiset Row := ↑(batches.flatMap Batch.rows)

/-- A file's entry under a contract: the statuses are of the contract's flags. -/
def StoredFile.entryFor (f : StoredFile) (cc : CompiledContract) : FileEntry :=
  { f.entry with flags := fun c => if c ∈ cc.flags.map Flag.column then f.entry.flags c else none }

/-- The verdict of a validation of the whole data, with the hash of its files and the snapshot it is. -/
structure DataVerdict where
  verdict : Verdict
  dataHash : String
  snapshotId : Option Int

/-! ## What is recorded -/

/-- `ObjectLocation::load_manifest`. -/
def Dir.loadObject {φ : Type} (d : Dir φ) (contract : String) : Except PeqlError (Option Manifest) :=
  match d.recorded contract with
  | .absent | .otherFormat => .ok none
  | .corrupt cause => .error (.invalid s!"manifest of `{contract}` ({manifestFile contract}): {cause}")
  | .facts m => .ok (some m)

/-- What is loaded is recorded. -/
theorem Dir.loadObject_facts {φ : Type} {d : Dir φ} {contract : String} {m : Manifest}
    (h : d.loadObject contract = .ok (some m)) : d.recorded contract = .facts m := by
  unfold Dir.loadObject at h
  cases hr : d.recorded contract <;> rw [hr] at h <;> cases h
  rfl

namespace IcebergTable

/-- `load_facts`. -/
def loadFacts (t : IcebergTable) (table : String) (snapshot : Int) (contract : String) :
    Except PeqlError (Option Manifest) :=
  match t.facts snapshot (manifestFile contract) with
  | .absent | .otherFormat => .ok none
  | .corrupt cause =>
    .error (.invalid s!"facts of `{contract}` for snapshot {snapshot} of {table} ({manifestFile contract}): {cause}")
  | .facts m =>
    if m.snapshotId = some snapshot then .ok (some m)
    else .error
      (.invalid (s!"the facts of `{contract}` filed under snapshot {snapshot} of {table} describe snapshot " ++
      (match m.snapshotId with | some s => s!"Some({s})" | none => "None")))

/-- `load_write_facts`. -/
def loadWriteFacts (t : IcebergTable) (table : String) (snapshot : TableSnapshot) (contract : String) :
    Except PeqlError (Option WriteFacts) :=
  match snapshot.writeId with
  | none => .ok none
  | some write =>
    match t.writeFacts write (manifestFile contract) with
    | .absent | .otherFormat => .ok none
    | .corrupt cause =>
      .error (.invalid s!"facts of `{contract}` for write {write} of {table} ({manifestFile contract}): {cause}")
    | .facts f => .ok (some f)

end IcebergTable

namespace TableMetadata

/-- `files`. -/
def files (t : TableMetadata) (table : String) (snapshot : Int) : Except PeqlError (List StoredFile) :=
  match t.snapshotById snapshot with
  | some s => .ok s.files
  | none => .error (.invalid s!"{table} has no snapshot {snapshot}")

/-- `IcebergLocation::provider`: the rows of a snapshot, with the columns a contract reads. -/
def provider (t : TableMetadata) (table : String) (cc : CompiledContract) (stored : Bool) (snapshot : Int) :
    Except PeqlError (Multiset Row) :=
  match t.snapshotById snapshot with
  | none => .error (.iceberg s!"snapshot {snapshot} not found")
  | some s =>
    match (fileColumns cc stored).find? fun c => c ∉ s.columns with
    | some c =>
      .error (.invalid s!"`{cc.name}` reads column `{c}`, which snapshot {snapshot} of {table} does not have")
    | none => .ok (providedRows cc stored s.files)

end TableMetadata

/-- A table, when the catalog has it. -/
def loadTable (table : String) : Ask (Option TableMetadata) :=
  Ask.storage fun s => .ok ((s.tables table).map IcebergTable.metadata)

/-- The data files in a directory, or under a prefix. -/
def listFiles (l : Location) : Ask (List StoredFile) := Ask.storage fun s => .ok (s.dirs l).files

/-- A read of a manifest file beside local files. -/
def loadLocal (l : Location) (contract : String) : Ask (Option Manifest) := do
  Ask.touchRead contract fun s => (s.dirs l).recorded contract
  Ask.storage fun s => (s.dirs l).load contract

def loadObject (l : Location) (contract : String) : Ask (Option Manifest) := do
  Ask.touchRead contract fun s => (s.dirs l).recorded contract
  Ask.storage fun s => (s.dirs l).loadObject contract

/-- A manifest is written beside the files. -/
def saveManifest (l : Location) (m : Manifest) : Ask Unit := do
  Ask.touch (.manifestRecorded m.contract)
  Ask.store fun s => s.setDir l ((s.dirs l).save m)

/-- What is recorded beside a table of one snapshot, as it is now. -/
def loadFacts (table : String) (snapshot : Int) (contract : String) : Ask (Option Manifest) := do
  Ask.touchRead contract fun s => s.factsAt table snapshot contract
  Ask.storage fun s =>
    match s.tables table with
    | some t => t.loadFacts table snapshot contract
    | none => .ok none

def loadWriteFacts (table : String) (snapshot : TableSnapshot) (contract : String) : Ask (Option WriteFacts) := do
  match snapshot.writeId with
  | none => pure ()
  | some write => Ask.touchRead contract fun s => s.writeFactsAt table write contract
  Ask.storage fun s =>
    match s.tables table with
    | some t => t.loadWriteFacts table snapshot contract
    | none => .ok none

/-- What is read of a table, if it is there. -/
def readTable {α : Type} (read : IcebergTable → Except PeqlError (Option α)) :
    Option IcebergTable → Except PeqlError (Option α)
  | some t => read t
  | none => .ok none

/-- `save_facts`. -/
def saveFacts (table : String) (m : Manifest) : Ask Unit := do
  match m.snapshotId with
  | none => throw (.invalid s!"the facts of `{m.contract}` name no snapshot")
  | some snapshot =>
    Ask.touch (.manifestRecorded m.contract)
    Ask.store fun s => s.saveFacts table snapshot m

section Calls

variable (R : Runtime)

/-! ## The facts of a snapshot -/

/-- A write to be combined: its snapshot, the snapshot's time, and the write's facts. -/
abbrev Pending := Int × Int × WriteFacts

/-- Back from snapshot `at_` to the nearest with recorded facts, or to an overwrite: those facts, and the writes since,
the first one first. `none` when a snapshot on the way was not written by peQL under the contract, or is gone. -/
def factsBack (table : String) (t : TableMetadata) (name : String) :
    Nat → Option Int → List Pending → Ask (Option (Option Manifest × List Pending))
  | _, none, writes => pure (some (none, writes))
  | 0, some _, _ => pure none
  | steps + 1, some s, writes =>
    match t.snapshotById s with
    | none => pure none
    | some snapshot => do
      match ← loadFacts table s name with
      | some m => pure (some (some m, writes))
      | none =>
        match ← loadWriteFacts table snapshot name with
        | none => pure none
        | some write =>
          match snapshot.time with
          | none => throw (.invalid s!"snapshot {s} of {table} has no time")
          | some time =>
            if write.written = .overwrite then pure (some (none, (s, time, write) :: writes))
            else factsBack table t name steps snapshot.parent ((s, time, write) :: writes)

/-- The writes combined one after another, the facts after each recorded. -/
def factsForward (table : String) (c : Compilation) : List Pending → Option Manifest → Ask (Option Manifest)
  | [], known => pure known
  | (s, time, write) :: rest, known => do
    match ← Effects.ofExcept (afterWrite R.sha256 R.parsers c known write time (some s)) with
    | none => pure none
    | some m => do
      saveFacts table m
      factsForward table c rest (some m)

/-- `iceberg_facts`: a snapshot has at most as many before it as its table has. -/
def icebergFacts (table : String) (t : TableMetadata) (snapshot : Int) (reg : Registered) : Ask (Option Manifest) := do
  match ← factsBack table t reg.name t.snapshots.length (some snapshot) [] with
  | none => pure none
  | some (known, writes) => factsForward R table reg.compilation writes known

/-! ## A validation of the whole data -/

/-- `iceberg_snapshot`: a contract's table, and the snapshot `at_` names or the current one. -/
def icebergSnapshot (table name : String) (at_ : Option Int) : Ask (TableMetadata × Int) := do
  match ← loadTable table with
  | none => throw (.notWritten name)
  | some t =>
    match at_ with
    | some s =>
      if (t.snapshotById s).isNone then throw (.invalid s!"{table} has no snapshot {s}") else pure (t, s)
    | none =>
      match t.current with
      | some s => pure (t, s)
      | none => throw (.notWritten name)

/-- A contract's validation of some rows. -/
def validateRows (c : Compilation) (rows : Multiset Row) : Ask Verdict := do
  Ask.touch (.rowsValidated c.contract.name)
  Effects.ofExcept (R.validate c rows)

/-- `whole`, over files: a validation of the data, with the entries of its files. -/
def whole (name : String) (c : Compilation) (l : Location) (at_ : Option Int) :
    Ask (DataVerdict × List FileEntry) := do
  match l with
  | .iceberg table =>
    let (t, snapshot) ← icebergSnapshot table name at_
    let rows ← Effects.ofExcept (t.provider table c.contract false snapshot)
    let verdict ← validateRows R c rows
    let files ← Effects.ofExcept (t.files table snapshot)
    let entries := files.map fun f => f.entryFor c.contract
    return (⟨verdict, dataHash R.sha256 entries, some snapshot⟩, entries)
  | .localDir _ | .object _ =>
    if at_.isSome then throw (noSnapshots name)
    else do
      let files ← listFiles l
      let verdict ← validateRows R c (providedRows c.contract false files)
      let entries := files.map fun f => f.entryFor c.contract
      return (⟨verdict, dataHash R.sha256 entries, none⟩, entries)

/-- Where a manifest of the whole data is recorded. -/
def record (name : String) (l : Location) (m : Manifest) : Ask Unit := do
  match l with
  | .localDir _ => saveManifest l m
  | .object _ => do
    saveManifest l m
    Ask.remember fun e => { e with objectManifests := e.objectManifests.insert name m }
  | .iceberg table => do
    let (t, snapshot) ← icebergSnapshot table name m.snapshotId
    saveFacts table m
    if t.current = some snapshot then
      Ask.remember fun e => { e with icebergManifests := e.icebergManifests.insert name m }

/-- `refresh`: validate a contract over the whole of its data, of snapshot `at_` or the current one, and record its
facts. -/
def refresh (name : String) (at_ : Option Int) : Ask (DataVerdict × Manifest) := do
  let writtenAt ← Ask.now
  let reg ← Ask.engine fun e => e.get name
  match ← Ask.engine fun e => e.bound reg with
  | .table _ => throw (.invalid s!"`{name}` has no files")
  | .files l => do
    let (verdict, files) ← whole R name reg.compilation l at_
    let decidedAt ← Ask.now
    let m := wholeManifest R.sha256 reg.compilation verdict.verdict files writtenAt decidedAt verdict.snapshotId
    record name l m
    return (verdict, m)

/-- A validation of a table bound in place of files; what it finds is kept, with nowhere to write it. -/
def validateTable (name : String) (c : Compilation) (batches : List Batch) : Ask DataVerdict := do
  let verdict ← validateRows R c (batchRows batches)
  let hash := R.sha256 (R.ipcBytes batches)
  let writtenAt ← Ask.now
  let m := wholeManifest R.sha256 c verdict [] writtenAt writtenAt none
  Ask.remember fun e => { e with tableManifests := e.tableManifests.insert name { m with dataHash := hash } }
  return ⟨verdict, hash, none⟩

/-- `validate`. -/
def validate (name : String) : Ask DataVerdict := do
  let reg ← Ask.engine fun e => e.get name
  match ← Ask.engine fun e => e.bound reg with
  | .files _ => do
    let (verdict, _) ← refresh R name none
    return verdict
  | .table batches => validateTable R name reg.compilation batches

/-! ## The manifest a read is decided by -/

/-- `manifest`: what the engine has of a contract's data. -/
def manifest (name : String) : Ask (Option Manifest) := do
  let reg ← Ask.engine fun e => e.get name
  match ← Ask.engine fun e => e.bound reg with
  | .files (.localDir root) => loadLocal (.localDir root) name
  | .table _ => do
    Ask.touch (.manifestRead name)
    Ask.engine fun e => .ok (e.tableManifests name)
  | .files (.object _) => do
    Ask.touch (.manifestRead name)
    Ask.engine fun e => .ok (e.objectManifests name)
  | .files (.iceberg _) => do
    Ask.touch (.manifestRead name)
    Ask.engine fun e => .ok (e.icebergManifests name)

/-- `manifest_as_of`: what is known of one snapshot of a contract's table. -/
def manifestAsOf (name : String) (snapshot : Int) : Ask (Option Manifest) := do
  let reg ← Ask.engine fun e => e.get name
  match ← Ask.engine fun e => e.bound reg with
  | .files (.iceberg table) => do
    match ← loadTable table with
    | none => throw (.notWritten name)
    | some t =>
      if (t.snapshotById snapshot).isNone then throw (.invalid s!"{table} has no snapshot {snapshot}")
      else icebergFacts R table t snapshot reg
  | _ => throw (noSnapshots name)

/-- `ensure_manifest`: a contract's data has a manifest, if it has data. -/
def ensureManifest (name : String) : Ask Unit := do
  let reg ← Ask.engine fun e => e.get name
  match ← Ask.engine fun e => e.bound reg with
  | .table _ => pure ()
  | .files (.localDir root) => do
    let known ← loadLocal (.localDir root) name
    let files ← listFiles (.localDir root)
    if known.isSome || files.isEmpty then pure ()
    else do
      let _ ← refresh R name none
  | .files (.object url) => do
    match ← loadObject (.object url) name with
    | some m => Ask.remember fun e => { e with objectManifests := e.objectManifests.insert name m }
    | none => do
      let files ← listFiles (.object url)
      if files.isEmpty then pure ()
      else do
        let _ ← refresh R name none
  | .files (.iceberg table) => do
    match (← loadTable table).bind fun t => t.current.map fun s => (t, s) with
    | none => Ask.remember fun e => { e with icebergManifests := e.icebergManifests.erase name }
    | some (t, snapshot) => do
      match ← icebergFacts R table t snapshot reg with
      | some m => Ask.remember fun e => { e with icebergManifests := e.icebergManifests.insert name m }
      | none => do
        let _ ← refresh R name (some snapshot)

/-- `ensure_manifest_as_of`. -/
def ensureManifestAsOf (name : String) (snapshot : Int) : Ask Manifest := do
  match ← manifestAsOf R name snapshot with
  | some m => pure m
  | none => do
    let (_, m) ← refresh R name (some snapshot)
    return m

end Calls

end Peql
