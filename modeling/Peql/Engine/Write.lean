import Peql.Engine.Kept
import Peql.Iceberg.Finish
import Peql.Publish.Write
import Peql.Violation.Split

/-!
# Writes of an engine, over any binding

`Engine::begin` fixes the contract and the place a write is of; `Engine::write_part` computes the columns the contract
stores for each row it is given; `Engine::finish_write` validates the rows written under every contract bound to the
place, publishes the files and records what each contract then knows; `Engine::compact` rewrites a table's files under a
contract, row by row as they are stored. What DataFusion's writer makes of the rows (which files) and what the catalog
answers to the commit are given.
-/

namespace Peql

inductive WriteMode
  | append | overwrite
deriving DecidableEq

/-- A write to an Iceberg table: its id, the snapshot current when it began, and the one it rewrites. -/
structure IcebergBegun where
  id : String
  base : Option Int
  rewrites : Option Int

/-- A write begun under a contract, with the files its parts have written. -/
structure Begun where
  reg : Registered
  location : Location
  written : Written
  onViolation : OnWriteViolation
  rows : Nat
  rowsExcluded : Nat
  /-- The rows set aside, by rule. -/
  excluded : List (String × Nat)
  files : List StoredFile
  /-- The files a rewrite replaces, by path. -/
  removed : List String
  iceberg : Option IcebergBegun

namespace TableMetadata

/-- The data files of a snapshot; none where there is no snapshot. -/
def filesAt (t : TableMetadata) : Option Int → List StoredFile
  | none => []
  | some id =>
    match t.snapshotById id with
    | some s => s.files
    | none => []

/-- `evolve`: the columns a contract writes are added, and none is removed. -/
def evolve (t : TableMetadata) (want : List String) : TableMetadata :=
  { t with columns := t.columns ++ want.filter fun c => c ∉ t.columns }

end TableMetadata

namespace Storage

/-- A table, where there is one, is changed. -/
def changeTable (s : Storage) (table : String) (f : IcebergTable → IcebergTable) : Storage :=
  match s.tables table with
  | some t => s.setTable table (f t)
  | none => s

/-- The data files of a directory or a prefix are those given; the manifests beside them stay. -/
def setFiles (s : Storage) (l : Location) (files : List StoredFile) : Storage :=
  s.setDir l { s.dirs l with files := files }

end Storage

/-! ## What a part writes -/

/-- The columns a write stores. -/
def writtenColumns (c : Compilation) : List String :=
  scanColumns c.contract ++ c.write.flags.map Flag.column ++ c.write.derived.map DerivedColumn.column

/-- The plan of `write_part`: enrich, then flags and derived columns over what enrichment gives. -/
def writePlan (E : Enrichment) (c : Compilation) : Plan :=
  .projection (writtenColumns c)
    ((scanColumns c.contract).map Expr.column ++ c.write.flags.map Flag.expr ++ c.write.derived.map DerivedColumn.expr)
    (E.enrichPlan (.scan "incoming" "incoming") c.contract)

/-- The rows of a plan, or the first of the errors it can raise. -/
def rowsOrError (r : Reported String (List Row)) : Except PeqlError (List Row) :=
  match r.errs with
  | [] => .ok r.val
  | e :: _ => .error (.dataFusion e)

namespace Begun

variable (R : Runtime) (w : Begun)

/-- The rows a part stores, of those it computed. -/
def keptRows (rows : List Row) : List Row :=
  match w.onViolation with
  | .exclude => rows.filter (passes w.reg.compilation.write.flags)
  | .refuse | .warn => rows

/-- `write_part`, of the rows given, with the files they were written to. -/
def writePart (rows : List Row) (files : List StoredFile) : Except PeqlError Begun := do
  let computed ← rowsOrError ((writePlan R.enrichment w.reg.compilation).run ⟨R.kernel, fun _ _ => rows⟩ [])
  let kept := w.keptRows computed
  return { w with
    rows := w.rows + kept.length
    rowsExcluded := w.rowsExcluded + (computed.length - kept.length)
    excluded := match w.onViolation with
      | .exclude => (splitCounts w.reg.compilation.write.flags computed).foldl
          (fun out c => addCount c.1 c.2 out) w.excluded
      | .refuse | .warn => w.excluded
    files := w.files ++ files }

/-- A write goes on under its contract, in its place, with more files. -/
theorem writePart_same {R : Runtime} {w b : Begun} {rows : List Row} {files : List StoredFile}
    (h : w.writePart R rows files = .ok b) :
    b.reg = w.reg ∧ b.location = w.location ∧ b.files = w.files ++ files := by
  unfold writePart at h
  simp only [bind_eq_ok] at h
  obtain ⟨computed, -, h⟩ := h
  cases h
  exact ⟨rfl, rfl, rfl⟩

/-- The contracts a write's facts are recorded of: its own first, then every other bound to its place. -/
def bound (e : Engine) : List Registered :=
  w.reg :: e.store.list.filter fun other =>
    other.name ≠ w.reg.name && match e.bound other with
      | .ok (.files l) => l = w.location
      | _ => false

/-- The data files after the write, of those before it. -/
def filesOver (before : List StoredFile) : List StoredFile :=
  match w.written with
  | .append => before ++ w.files
  | .overwrite => w.files
  | .rewrite => before.filter (fun f => f.path ∉ w.removed) ++ w.files

/-- The snapshot the write commits over a table, with the id and the time its commit gave it. -/
def snapshotOver (t : TableMetadata) (id : Int) (time : Option Int) : TableSnapshot where
  id := id
  parent := t.current
  time := time
  writeId := w.iceberg.map IcebergBegun.id
  columns := t.columns
  files := w.filesOver (t.filesAt t.current)

/-- A commit goes through over a table only when an overwrite finds the snapshot it began from, and a rewrite every file
it replaces. -/
def CommitsOver (t : TableMetadata) : Prop :=
  match w.written with
  | .append => True
  | .overwrite => t.current = w.iceberg.bind IcebergBegun.base
  | .rewrite => ∀ p ∈ w.removed, p ∈ (t.filesAt t.current).map fun f => f.path

end Begun

/-! ## Beginning a write -/

section Calls

variable (R : Runtime)

/-- `IcebergLocation::begin_write`: the table, created when the catalog has none, with the columns the contract
writes. -/
def beginTable (table : String) (cc : CompiledContract) : Ask TableMetadata := do
  match ← loadTable table with
  | none => do
    let t : TableMetadata := ⟨[], none, fileColumns cc true⟩
    Ask.store fun s => s.setTable table ⟨t, fun _ _ => .absent, fun _ _ => .absent⟩
    return t
  | some t => do
    let t := t.evolve (fileColumns cc true)
    Ask.store fun s => s.changeTable table fun found => { found with metadata := t }
    return t

/-- `begin`; with `rewrite`, a write that replaces the files of that snapshot, named by their paths. -/
def beginWrite (name : String) (mode : WriteMode) (rewrite : Option (Int × List String))
    (onViolation : OnWriteViolation)
    (id : String) : Ask Begun := do
  match ← Ask.engine fun e => .ok (e.frozen.lookup name) with
  | some snapshot => throw (.invalid s!"`{name}` is read as of snapshot {snapshot}; nothing is written under it")
  | none => do
    let reg ← Ask.engine fun e => e.get name
    match ← Ask.engine fun e => e.bound reg with
    | .table _ => throw (.invalid s!"`{name}` is bound to a table; only file bindings are written")
    | .files l => do
      let written : Written := match rewrite, mode with
        | some _, _ => .rewrite
        | none, .overwrite => .overwrite
        | none, .append => .append
      let removed := (rewrite.map Prod.snd).getD []
      match l with
      | .iceberg table => do
        let t ← beginTable table reg.compilation.contract
        return ⟨reg, l, written, onViolation, 0, 0, [], [], removed, some ⟨id, t.current, rewrite.map Prod.fst⟩⟩
      | .localDir _ | .object _ =>
        if rewrite.isSome then
          throw (.invalid
            s!"`{name}` is not bound to an Iceberg table; only an Iceberg table's snapshot is rewritten")
        else return ⟨reg, l, written, onViolation, 0, 0, [], [], removed, none⟩

/-- `compact`, up to the rows it writes again; `none` when there is nothing to compact. -/
def beginCompact (name : String) (smallFileBytes minSmallFiles : Nat) (id : String) : Ask (Option Begun) := do
  let reg ← Ask.engine fun e => e.get name
  match ← Ask.engine fun e => e.bound reg with
  | .files (.iceberg table) => do
    let (t, snapshot) ← icebergSnapshot table name none
    let files ← Effects.ofExcept (t.files table snapshot)
    let small := files.countP fun f => f.entry.bytes < smallFileBytes
    if small < max minSmallFiles 2 then return none
    else do
      let w ← beginWrite name .overwrite (some (snapshot, files.map fun f => f.path)) .warn id
      return some w
  | _ => throw (.invalid s!"`{name}` is not bound to an Iceberg table; only an Iceberg table is compacted")

/-! ## Finishing one -/

namespace Begun

variable (w : Begun)

/-- `write_facts`: the facts of the rows written, under a contract. -/
def writeFacts (c : Compilation) (writtenAt : Int) : Ask (Verdict × WriteFacts) := do
  let verdict ← validateRows R c (providedRows c.contract false w.files)
  let entries := w.files.map fun f => f.entryFor c.contract
  return (ofRows c verdict, ⟨w.written, writeManifest R.sha256 c verdict entries writtenAt, w.removed⟩)

/-- What the write's own contract's rules refuse, when it is to be refused. -/
def refused (verdict : Verdict) : Except PeqlError Unit :=
  let broken := broken w.reg.compilation.contract.flags verdict.failures
  if w.onViolation = .refuse && !broken.isEmpty then .error (.violated w.reg.name broken) else .ok ()

/-- The facts of the rows written, under each of some contracts. -/
def factsUnder (writtenAt : Int) : List Registered → Ask (List (Registered × WriteFacts))
  | [] => pure []
  | reg :: rest => do
    let (_, facts) ← w.writeFacts R reg.compilation writtenAt
    let others ← factsUnder writtenAt rest
    return (reg, facts) :: others

/-- What was known of the data of a directory or a prefix before the write: nothing of what an overwrite deletes. -/
def knownBefore (reg : Registered) : Ask Before := do
  match w.written with
  | .overwrite => pure (some none)
  | .append | .rewrite => do
    let known ← match w.location with
      | .object _ => loadObject w.location reg.name
      | .localDir _ | .iceberg _ => loadLocal w.location reg.name
    match known with
    | some m => pure (some (some m))
    | none => do
      let files ← listFiles w.location
      pure (if files.isEmpty then some none else none)

def knownBefores : List (Registered × WriteFacts) → Ask (List ((Registered × WriteFacts) × Before))
  | [] => pure []
  | b :: rest => do
    let before ← w.knownBefore b.1
    let others ← knownBefores rest
    return (b, before) :: others

/-- A contract's manifest after the write, recorded or removed; the engine remembers those of object stores. -/
def recordAfter (name : String) : Option Manifest → Ask Unit
  | some m => do
    saveManifest w.location m
    match w.location with
    | .object _ => Ask.remember fun e => { e with objectManifests := e.objectManifests.insert name m }
    | .localDir _ | .iceberg _ => pure ()
  | none => do
    Ask.store fun s => s.setDir w.location ((s.dirs w.location).remove name)
    match w.location with
    | .object _ => Ask.remember fun e => { e with objectManifests := e.objectManifests.erase name }
    | .localDir _ | .iceberg _ => pure ()

/-- Each contract's manifest after the write is recorded; the writer's is what the report is of. -/
def recordAll (writtenAt : Int) : List ((Registered × WriteFacts) × Before) → Option Manifest → Ask (Option Manifest)
  | [], own => pure own
  | ((reg, facts), before) :: rest, own => do
    let after ← Effects.ofExcept (factsAfter R reg facts writtenAt before)
    w.recordAfter reg.name after
    recordAll writtenAt rest (if reg.name = w.reg.name then after else own)

/-- `publish_write`, under a directory or a prefix. -/
def publishFiles (bound : List (Registered × WriteFacts)) (writtenAt : Int) : Ask (Option Manifest) := do
  let known ← w.knownBefores bound
  Ask.store fun s => s.setFiles w.location (w.filesOver (s.dirs w.location).files)
  w.recordAll R writtenAt known none

/-- The facts of each contract, for the write's id, recorded before the commit. -/
def saveAllWriteFacts (table id : String) : List (Registered × WriteFacts) → Ask Unit
  | [] => pure ()
  | (_, facts) :: rest => do
    Ask.store fun s => s.changeTable table fun t => t.saveWriteFacts id facts
    saveAllWriteFacts table id rest

/-- Each contract's facts of the snapshot committed; where they cannot be computed they stay unrecorded. -/
def keepFacts (table : String) (t : TableMetadata) (snapshot : Int) :
    List (Registered × WriteFacts) → Option Manifest → Ask (Option Manifest)
  | [], own => pure own
  | (reg, _) :: rest, own => do
    let found ← Effects.attempt (icebergFacts R table t snapshot reg)
    let after := found.toOption.join
    match after with
    | some m =>
      if t.current = some snapshot then
        Ask.remember fun e => { e with icebergManifests := e.icebergManifests.insert reg.name m }
      else pure ()
    | none => Ask.remember fun e => { e with icebergManifests := e.icebergManifests.erase reg.name }
    keepFacts table t snapshot rest (if reg.name = w.reg.name then after else own)

/-- `publish_write`, of a table; `commit` is the catalog's answer over the table: the snapshot's id and time. -/
def publishTable (table : String) (commit : TableMetadata → Except PeqlError (Int × Option Int))
    (bound : List (Registered × WriteFacts)) : Ask (SnapshotCommit × Option Manifest) := do
  match w.iceberg with
  | none => throw (.invalid s!"{table} was not begun as a write")
  | some begun => do
    match ← loadTable table with
    | none => throw (.invalid s!"{table} was dropped")
    | some t => do
      saveAllWriteFacts table begun.id bound
      let (id, time) ← Effects.ofExcept (commit t)
      let snapshot := w.snapshotOver t id time
      Ask.store fun s => s.changeTable table fun found => { found with metadata := found.metadata.push snapshot }
      let own ← w.keepFacts R table (t.push snapshot) id bound none
      return (⟨id, t.current⟩, own)

/-- `finish_write`. -/
def finishWrite (commit : TableMetadata → Except PeqlError (Int × Option Int)) :
    Ask (WriteReport × Option SnapshotCommit) := do
  let bound ← Ask.engine fun e => .ok (w.bound e)
  let writtenAt ← Ask.now
  let (verdict, own) ← w.writeFacts R w.reg.compilation writtenAt
  Effects.ofExcept (w.refused verdict)
  let others ← w.factsUnder R writtenAt bound.tail
  let bound := (w.reg, own) :: others
  let (snapshot, table) ← match w.location with
    | .iceberg table => do
      let (commit, own) ← w.publishTable R table commit bound
      pure (some commit, own)
    | .localDir _ | .object _ => do
      let own ← w.publishFiles R bound writtenAt
      pure (none, own)
  let files := own.facts.files
  return ({
    rowsWritten := w.rows
    onViolation := w.onViolation
    violations := match w.onViolation with
      | .exclude => w.excluded
      | .warn | .refuse => broken w.reg.compilation.contract.flags verdict.failures
    rowsExcluded := w.rowsExcluded
    files := files
    verdict := ⟨verdict, own.facts.dataHash, snapshot.map SnapshotCommit.snapshotId⟩
    table := table.map fun m => m.tableStats (w.reg.compilation.contract.rowSchema.map ColumnDef.name) }, snapshot)

end Begun

end Calls

end Peql
