import Peql.Budget
import Peql.Cache
import Peql.Facts.Combine
import Peql.Files.Dir
import Peql.Gate.View
import Peql.Lib.Effects
import Peql.Store
import Peql.Vector

/-!
# An engine, and the data it reads

What one engine keeps (its store of contracts, its binding resolver, the manifests it remembers, its budgets, cache and
audit log), and the storage engines share: directories and object-store prefixes with the manifests beside their files,
and Iceberg tables with the facts recorded for their snapshots and writes. What peQL takes from parcel and DataFusion is
a parameter (`Runtime`). A call reads and writes both (`Ask`); beside them it leaves a trace of what it did with
manifests and rows, which nothing reads.
-/

namespace Peql

/-! ## What is asked -/

structure Caller where
  id : String
  tenant : String
  purpose : String
  /-- The roles, clearance and other values of the caller's context. -/
  context : List (String × Value)
deriving DecidableEq

/-- A table reference of a statement: `table`, `schema.table` or `catalog.schema.table`. -/
structure TableRef where
  qualifier : Option String
  table : String
deriving DecidableEq

namespace TableRef

/-- The reference as it was written. -/
def display (t : TableRef) : String :=
  match t.qualifier with
  | some q => q ++ "." ++ t.table
  | none => t.table

end TableRef

/-- A shape of a contract that applies to a caller. -/
structure ShapeRule where
  id : String
  rule : String
deriving DecidableEq

/-- A query with its shapes applied: what it charges, and what it suppresses. -/
structure Shaped where
  plan : Plan
  charges : List (String × ℚ)
  suppressK : Option Nat
  hasAggregate : Bool

/-- What the scans of a query read. -/
structure ScanStats where
  rowsScanned : Nat
  rowsReleased : Nat
  scannedBytes : Nat
  bytesRead : Nat
  filesPruned : Nat
  rowGroupsPruned : Nat
deriving DecidableEq

def ScanStats.none : ScanStats := ⟨0, 0, 0, 0, 0, 0⟩

/-- What peQL takes from parcel and DataFusion. -/
structure Runtime where
  sha256 : String → String
  parsers : Parsers
  kernel : Kernel
  enrichment : Enrichment
  /-- A contract's validation plan over some rows. -/
  validate : Compilation → Multiset Row → Except PeqlError Verdict
  verifyPins : List (String × String) → Except PeqlError Unit
  /-- The first decide rule that refuses a caller. -/
  refusal : CompiledContract → Caller → Except PeqlError (Option String)
  /-- A guarantee over a caller and the data's statistics, write time and contract hash. -/
  evalBool : GuaranteeRule → Compilation → Caller → Lookup String Json → Int → String → Except String Bool
  activeShapes : CompiledContract → Caller → Except PeqlError (List ShapeRule)
  /-- The values of a contract's parameters for a caller, in the parameters' order. -/
  paramValues : CompiledContract → Caller → Except PeqlError (List (String × Value))
  debugValue : Value → String
  /-- The characters `Debug` writes as they are. -/
  printable : Char → Bool
  checkSql : String → Except PeqlError Unit
  sqlParser : SqlParser
  floats : Floats
  /-- The tables a statement refers to, each once. -/
  references : String → Except PeqlError (List TableRef)
  /-- The element type and the dimension of a list type of fixed size, by its name. -/
  fixedSizeList : String → Option (String × Int)
  /-- The plan of a statement over registered views and functions. -/
  logicalPlan : String → List (TableRef × Plan) → List VectorUdf → Except PeqlError Plan
  checkPlan : Plan → Except PeqlError Unit
  optimize : Plan → Except PeqlError Plan
  applyShapes : Plan → Plan → List ShapeRule → Except PeqlError Shaped
  physicalPlan : Plan → Except PeqlError Exec
  planSchema : Plan → List ColumnDef
  execSchema : Exec → List ColumnDef
  /-- A physical plan's answer over the rows its scans read, suppressed when it has fewer rows than the threshold given,
  and what the scans counted. -/
  collect : Exec → Option Nat → List (String × Multiset Row) → Except PeqlError (List Batch × ScanStats)
  memory : Batch → Nat
  ipcBytes : List Batch → String

/-- The statement with its vector searches written as subqueries, and the searches. -/
def Runtime.expand (R : Runtime) (sql : String) : Except PeqlError (String × List Search) :=
  Peql.expand R.sqlParser R.floats sql

/-- A search's function over the exposed columns of its table. -/
def Runtime.searchUdf (R : Runtime) (s : Search) (schema : List ColumnDef) : Except PeqlError VectorUdf :=
  s.udf R.fixedSizeList schema

/-! ## What is answered -/

/-- What the resolver decided for one contract and one caller. -/
structure Resolution where
  contract : String
  version : Nat
  contractHash : String
  compilationHash : String
  decisions : List String
  annotations : List String
  shapes : List String
  flagsMaterialised : Bool
  snapshotId : Option Int
  /-- Rows of the data that break a row rule, by rule. -/
  excluded : List (String × Nat)
deriving DecidableEq

structure Attestation where
  querySha256 : String
  resultSha256 : String
  at_ : Int
deriving DecidableEq

/-- Who asked, as the engine was told. -/
structure Asker where
  id : String
  tenant : String
  purpose : String
deriving DecidableEq

/-- Everything a caller learns about a query besides the rows. -/
structure Envelope where
  caller : Asker
  contracts : List Resolution
  rows : Nat
  suppressK : Option Nat
  charges : List (String × ℚ)
  budgets : Lookup String ℚ
  scan : ScanStats
  attestation : Attestation
  auditId : String
  cached : Bool

inductive Outcome
  | answered | planned
  | refused (reason : String)
  | failed (reason : String)
deriving DecidableEq

structure AuditRecord where
  id : String
  at_ : Int
  callerId : String
  tenant : String
  purpose : String
  sqlSha256 : String
  contracts : List String
  outcome : Outcome
  rows : Nat
  charges : List (String × ℚ)

/-! ## What is stored -/

/-- Where a contract's files are, one way to spell each place. -/
inductive Location
  | localDir (root : String)
  | object (url : String)
  | iceberg (table : String)
deriving DecidableEq

/-- A data file, and the compilation a write computed its columns under, which nothing reads. -/
structure StoredFile extends DataFile (fun _ => True) where
  under : Option String

/-- The rows of some stored files, as stored. -/
def storedRows (files : List StoredFile) : Multiset Row := rowsOf (files.map StoredFile.toDataFile)

/-- A snapshot of an Iceberg table: its time and columns, the write that made it when peQL did, and its data files. -/
structure TableSnapshot where
  id : Int
  parent : Option Int
  time : Option Int
  writeId : Option String
  columns : List String
  files : List StoredFile

/-- A table as its catalog loads it. -/
structure TableMetadata where
  /-- In commit order. -/
  snapshots : List TableSnapshot
  current : Option Int
  columns : List String

namespace TableMetadata

def snapshotById (t : TableMetadata) (id : Int) : Option TableSnapshot := t.snapshots.find? fun s => s.id = id

/-- A snapshot is committed, and is the current one. -/
def push (t : TableMetadata) (s : TableSnapshot) : TableMetadata :=
  { t with snapshots := t.snapshots ++ [s], current := some s.id }

end TableMetadata

/-- A table, and the facts recorded under its location for its snapshots and its writes. -/
structure IcebergTable where
  metadata : TableMetadata
  facts : Int → String → Recorded Manifest
  writeFacts : String → String → Recorded WriteFacts

namespace IcebergTable

/-- `save_facts`: under the snapshot and the contract the facts name. -/
def saveFacts (t : IcebergTable) (snapshot : Int) (m : Manifest) : IcebergTable :=
  let here := Function.update (t.facts snapshot) (manifestFile m.contract) (.facts m)
  { t with facts := Function.update t.facts snapshot here }

/-- `save_write_facts`. -/
def saveWriteFacts (t : IcebergTable) (write : String) (f : WriteFacts) : IcebergTable :=
  let here := Function.update (t.writeFacts write) (manifestFile f.facts.contract) (.facts f)
  { t with writeFacts := Function.update t.writeFacts write here }

end IcebergTable

/-- The storage engines share. -/
structure Storage where
  dirs : Location → Dir StoredFile
  tables : String → Option IcebergTable

namespace Storage

def setDir (s : Storage) (l : Location) (d : Dir StoredFile) : Storage := { s with dirs := Function.update s.dirs l d }

def setTable (s : Storage) (table : String) (t : IcebergTable) : Storage :=
  { s with tables := Function.update s.tables table (some t) }

/-- What is recorded under a contract's name for a snapshot of a table, and for a write of it. -/
def factsAt (s : Storage) (table : String) (snapshot : Int) (contract : String) : Recorded Manifest :=
  match s.tables table with
  | some t => t.facts snapshot (manifestFile contract)
  | none => .absent

def writeFactsAt (s : Storage) (table write contract : String) : Recorded WriteFacts :=
  match s.tables table with
  | some t => t.writeFacts write (manifestFile contract)
  | none => .absent

end Storage

namespace Storage

/-- Facts of a snapshot, written under its table's location. -/
def saveFacts (s : Storage) (table : String) (snapshot : Int) (m : Manifest) : Storage :=
  match s.tables table with
  | some t => s.setTable table (t.saveFacts snapshot m)
  | none => s

theorem saveFacts_tables (s : Storage) (table : String) (snapshot : Int) (m : Manifest) (table' : String) :
    (s.saveFacts table snapshot m).tables table' =
      if table' = table then (s.tables table).map fun t => t.saveFacts snapshot m else s.tables table' := by
  unfold saveFacts
  by_cases ht : table' = table
  · subst ht
    cases hs : s.tables table' with
    | none => simp [hs]
    | some t => simp [Storage.setTable]
  · cases hs : s.tables table with
    | none => simp [ht]
    | some t => simp [Storage.setTable, ht]

theorem saveFacts_dirs (s : Storage) (table : String) (snapshot : Int) (m : Manifest) :
    (s.saveFacts table snapshot m).dirs = s.dirs := by
  unfold saveFacts
  cases s.tables table <;> rfl

end Storage

/-! ## An engine -/

/-- Which snapshot of its table each contract named is read as of, in the order of the names. -/
abbrev AsOf := List (String × Int)

structure Engine where
  store : Contents
  /-- The binding resolver: where a contract's files are, when it reaches them. -/
  location : CompiledContract → Option Location
  /-- Tables bound in place of a contract's files. -/
  tables : Lookup String (List Batch)
  tableManifests : Lookup String Manifest
  /-- Manifests of contracts whose files are in an object store, as last read or written. -/
  objectManifests : Lookup String Manifest
  /-- The facts of contracts bound to Iceberg tables for their table's current snapshot. -/
  icebergManifests : Lookup String Manifest
  useStored : Bool
  /-- The contracts read as of a snapshot whatever the read names. -/
  frozen : AsOf
  budgets : Book
  /-- The error the ledger's next save meets, if any. -/
  budgetFault : Option String
  cache : Option QueryCache
  audit : List AuditRecord
  /-- The error the audit log meets, if any. -/
  auditFault : Option PeqlError
  signer : Option (Envelope → Except String String)

/-- What a call did with a contract's data. -/
inductive Touch
  | manifestRead (contract : String)
  | manifestRecorded (contract : String)
  | rowsValidated (contract : String)
deriving DecidableEq

/-- An engine over the storage, at a time. -/
structure Node where
  engine : Engine
  storage : Storage
  now : Int
  touched : List Touch

/-- A call of an engine. -/
abbrev Ask := EStateM PeqlError Node

/-- Where a contract's data comes from: its binding's files, or a table bound in their place. -/
inductive Bound
  | files (location : Location)
  | table (batches : List Batch)

def Bound.isFiles : Bound → Bool
  | .files _ => true
  | .table _ => false

/-- The refusal for a contract whose binding the engine's resolver does not reach. -/
def unresolved (cc : CompiledContract) : PeqlError :=
  .invalid (match cc.source with
    | .iceberg table =>
        s!"`{cc.name}` is bound to the Iceberg table `{table}` (`binding: \x7biceberg: {table}\x7d`), " ++
        "and this engine has no Iceberg catalog"
    | .parquet path =>
        s!"`{cc.name}` is bound to `binding: \x7bparquet: {path}\x7d`, which this engine's bindings do " ++
        "not reach")

/-- What a call that names a snapshot meets for a contract whose data has none. -/
def noSnapshots (name : String) : PeqlError :=
  .invalid s!"`{name}` is not bound to a table with snapshots; only an Iceberg binding is read as of one"

namespace Engine

/-- The current version of a contract, with no visibility check. -/
def get (e : Engine) (name : String) : Except PeqlError Registered :=
  match e.store.current name with
  | some r => .ok r
  | none => .error (.unknownContract name)

/-- Whether a caller may see a contract: its owner's tenant, or a tenant it is published to. -/
def sees (e : Engine) (r : Registered) (name : String) (caller : Caller) : Bool :=
  match r.owner with
  | none => true
  | some owner =>
    owner = caller.tenant || (e.store.audiences name).contains publicAudience ||
      (e.store.audiences name).contains caller.tenant

/-- A contract as a caller may see it: invisible and absent are the same error. -/
def visible (e : Engine) (name : String) (caller : Caller) : Except PeqlError Registered :=
  match e.store.current name with
  | some r => if e.sees r name caller then .ok r else .error (.unknownContract name)
  | none => .error (.unknownContract name)

def bound (e : Engine) (r : Registered) : Except PeqlError Bound :=
  match e.tables r.name with
  | some batches => .ok (.table batches)
  | none =>
    match e.location r.compilation.contract with
    | some l => .ok (.files l)
    | none => .error (unresolved r.compilation.contract)

end Engine

namespace Ask

/-- What the engine answers from what it keeps. -/
def engine {α : Type} (f : Engine → Except PeqlError α) : Ask α := do
  let n ← MonadState.get
  Effects.ofExcept (f n.engine)

def touch (t : Touch) : Ask Unit := modify fun n => { n with touched := n.touched ++ [t] }

/-- A read of what is recorded, which leaves its trace when something is. -/
def touchRead {α : Type} (contract : String) (recorded : Storage → Recorded α) : Ask Unit := modify fun n =>
  if (recorded n.storage).isAbsent then n else { n with touched := n.touched ++ [.manifestRead contract] }

def remember (f : Engine → Engine) : Ask Unit := modify fun n => { n with engine := f n.engine }

/-- What is read of the storage, as it is now. -/
def storage {α : Type} (f : Storage → Except PeqlError α) : Ask α := do
  let n ← MonadState.get
  Effects.ofExcept (f n.storage)

def store (f : Storage → Storage) : Ask Unit := modify fun n => { n with storage := f n.storage }

def now : Ask Int := do
  let n ← MonadState.get
  return n.now

theorem engine_apply {α : Type} (f : Engine → Except PeqlError α) (n : Node) :
    Ask.engine f n = match f n.engine with
      | .ok a => .ok a n
      | .error e => .error e n := by
  show Effects.ofExcept (f n.engine) n = _
  cases f n.engine <;> rfl

theorem storage_apply {α : Type} (f : Storage → Except PeqlError α) (n : Node) :
    Ask.storage f n = match f n.storage with
      | .ok a => .ok a n
      | .error e => .error e n := by
  show Effects.ofExcept (f n.storage) n = _
  cases f n.storage <;> rfl

theorem engine_eq_ok {α : Type} {f : Engine → Except PeqlError α} {n m : Node} {a : α} :
    Ask.engine f n = .ok a m ↔ f n.engine = .ok a ∧ m = n := Effects.ofExcept_eq_ok (r := f n.engine)

theorem engine_bind_ok {α β : Type} {f : Engine → Except PeqlError α} {k : α → Ask β} {n m : Node} {b : β} :
    (Ask.engine f >>= k) n = .ok b m ↔ ∃ a, f n.engine = .ok a ∧ k a n = .ok b m :=
  Effects.ofExcept_bind_ok (r := f n.engine)

theorem storage_bind_ok {α β : Type} {f : Storage → Except PeqlError α} {k : α → Ask β} {n m : Node} {b : β} :
    (Ask.storage f >>= k) n = .ok b m ↔ ∃ a, f n.storage = .ok a ∧ k a n = .ok b m :=
  Effects.ofExcept_bind_ok (r := f n.storage)

end Ask

end Peql
