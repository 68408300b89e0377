import Peql.Files.Calls
import Peql.Publish.Upload

/-!
# Publishing a write

`Engine::finish_write` and `Engine::publish_write` over a directory or an object-store prefix: every contract bound to
the data validates the rows written; an overwrite deletes the files there were; the write's files are moved among the
data one by one; and each contract's manifest becomes what it was combined with the write's facts, or is removed when
what it was is not known. Any of these operations can fail, and nothing is then undone.
-/

namespace Peql

open Effects

/-- What `object_store`'s `Path::join` encodes of a part: `%` is among it. -/
class ObjectPaths where
  reserved : Char → Bool
  percent : reserved '%' = true

variable [ObjectPaths]

/-- A write whose parts are written: under which contract and where, and its files, by their paths in its staging
directory and in their order. -/
structure Writing where
  reg : Registered
  place : Address
  written : Written
  onViolation : OnWriteViolation
  rows : Nat
  rowsExcluded : Nat
  /-- The rows set aside, by rule. -/
  excluded : List (String × Nat)
  staged : List (List String × StoredFile)

/-- What a finished write reports. -/
structure WriteReport where
  rowsWritten : Nat
  onViolation : OnWriteViolation
  violations : List (String × Nat)
  rowsExcluded : Nat
  files : List FileEntry
  verdict : DataVerdict
  table : Option TableStats

/-- The operations of a write that can fail, by what they are on. -/
inductive PublishStep
  | loads (contract : String)
  | lists (contract : String)
  | listsOld
  | deletes (a : Address)
  | moves (a : Address)
  | records (contract : String)
deriving DecidableEq

/-- The files and manifests, and the manifests an engine remembers of object stores. -/
structure Disk where
  tree : Tree
  objectManifests : Lookup String Manifest

/-- A write under way. -/
abbrev Publish := EStateM PeqlError Disk

section Write

variable (R : Runtime) (fails : PublishStep → Option PeqlError)

/-- An operation that changes what is stored, unless it fails. -/
def does (step : PublishStep) (f : Disk → Disk) : Publish Unit :=
  match fails step with
  | some e => throw e
  | none => modify f

/-- What an operation reads, unless it fails. -/
def looks {α : Type} (step : PublishStep) (r : Except PeqlError α) : Except PeqlError α :=
  match fails step with
  | some e => .error e
  | none => r

/-- An operation for each of some things, in turn, until one fails. -/
def each {α : Type} (step : α → PublishStep) (f : α → Disk → Disk) : List α → Publish Unit
  | [] => pure ()
  | a :: as => do
    does fails (step a) (f a)
    each step f as

/-- What a contract knows after a write: nothing, when what was known before it is not known. -/
def factsAfter (reg : Registered) (facts : WriteFacts) (writtenAt : Int) : Before → Except PeqlError (Option Manifest)
  | some before => afterWrite R.sha256 R.parsers reg.compilation before facts writtenAt none
  | none => .ok none

namespace Writing

variable (w : Writing)

/-- The contracts a write's facts are recorded of: its own first, then every other whose files are in the same place. -/
def bound (store : Contents) (location : CompiledContract → Option Address) : List Registered :=
  w.reg :: store.list.filter fun other =>
    other.name ≠ w.reg.name && location other.compilation.contract = some w.place

/-- Where a staged file goes: `ObjectLocation::upload` encodes its path once more. -/
def dest (path : List String) : Address :=
  match w.place.backend with
  | .localFiles => w.place.join path
  | .object _ => { w.place with path := uploadPath ObjectPaths.reserved w.place.path (relativePath path) }

/-- The entries of the write's files under a contract. -/
def entries (cc : CompiledContract) : List FileEntry :=
  w.staged.map fun f => (f.2.named (relativePath f.1)).entryFor cc

/-- `write_facts`: the facts of the rows written, under a contract. -/
def writeFacts (c : Compilation) (writtenAt : Int) : Except PeqlError (Verdict × WriteFacts) := do
  let verdict ← R.validate c (providedRows c.contract false (w.staged.map Prod.snd))
  return (ofRows c verdict,
    ⟨w.written, writeManifest R.sha256 c verdict (w.entries c.contract) writtenAt, []⟩)

/-- What was known of the data before the write: nothing of what an overwrite deletes. -/
def before (t : Tree) (reg : Registered) : Except PeqlError Before :=
  match w.written with
  | .overwrite => .ok (some none)
  | _ => do
    let known ← looks fails (.loads reg.name) (match w.place.backend with
      | .localFiles => (t.dirAt w.place).load reg.name
      | .object _ => (t.dirAt w.place).loadObject reg.name)
    match known with
    | some m => .ok (some (some m))
    | none => do
      let files ← looks fails (.lists reg.name) (.ok (t.listFiles w.place))
      return if files.isEmpty then some none else none

/-- The files an overwrite deletes. -/
def oldFiles (t : Tree) : Except PeqlError (List Address) :=
  match w.written with
  | .overwrite => do
    let files ← looks fails .listsOld (.ok (t.listFiles w.place))
    return files.map Prod.fst
  | _ => .ok []

/-- A contract's manifest recorded, or removed; the engine remembers those of object stores. -/
def recordOf (name : String) (after : Option Manifest) (d : Disk) : Disk where
  tree := d.tree.record w.place name after
  objectManifests := match w.place.backend, after with
    | .localFiles, _ => d.objectManifests
    | .object _, some m => d.objectManifests.insert name m
    | .object _, none => d.objectManifests.erase name

/-- Each contract's manifest after the write is recorded; the writer's is what the report is of. -/
def recordAll (writtenAt : Int) : List ((Registered × WriteFacts) × Before) → Option Manifest →
    Publish (Option Manifest)
  | [], own => pure own
  | ((reg, facts), before) :: rest, own => do
    let after ← Effects.ofExcept (factsAfter R reg facts writtenAt before)
    does fails (.records reg.name) (w.recordOf reg.name after)
    recordAll writtenAt rest (if reg.name = w.reg.name then after else own)

/-- `publish_write`. -/
def publishWrite (bound : List (Registered × WriteFacts)) (writtenAt : Int) : Publish (Option Manifest) := do
  let d ← MonadState.get
  let before ← Effects.ofExcept (bound.mapM fun b => w.before fails d.tree b.1)
  let old ← Effects.ofExcept (w.oldFiles fails d.tree)
  each fails .deletes (fun a d => { d with tree := d.tree.delete a }) old
  each fails (fun f => .moves (w.dest f.1)) (fun f d => { d with tree := d.tree.put (w.dest f.1, f.2) }) w.staged
  w.recordAll R fails writtenAt (bound.zip before) none

/-- What the write's own contract's rules refuse, when it is to be refused. -/
def refused (verdict : Verdict) : Except PeqlError Unit :=
  let broken := broken w.reg.compilation.contract.flags verdict.failures
  if w.onViolation = .refuse && !broken.isEmpty then .error (.violated w.reg.name broken) else .ok ()

/-- The verdict of the write's own contract and the facts of every contract bound to the data, unless its rules are
broken by what is to be refused. -/
def prepare (bound : List Registered) (writtenAt : Int) :
    Except PeqlError (Verdict × List (Registered × WriteFacts)) := do
  let (verdict, own) ← w.writeFacts R w.reg.compilation writtenAt
  w.refused verdict
  let others ← bound.tail.mapM fun reg => do
    let (_, facts) ← w.writeFacts R reg.compilation writtenAt
    return (reg, facts)
  return (verdict, (w.reg, own) :: others)

/-- `finish_write`. -/
def finishWrite (store : Contents) (location : CompiledContract → Option Address) (writtenAt : Int) :
    Publish WriteReport := do
  let (verdict, bound) ← Effects.ofExcept (w.prepare R (w.bound store location) writtenAt)
  let table ← w.publishWrite R fails bound writtenAt
  let own := w.entries w.reg.compilation.contract
  return {
    rowsWritten := w.rows
    onViolation := w.onViolation
    violations := match w.onViolation with
      | .exclude => w.excluded
      | .warn | .refuse => broken w.reg.compilation.contract.flags verdict.failures
    rowsExcluded := w.rowsExcluded
    files := own
    verdict := ⟨verdict, dataHash R.sha256 own, none⟩
    table := table.map fun m => m.tableStats (w.reg.compilation.contract.rowSchema.map ColumnDef.name) }

end Writing

end Write

end Peql
