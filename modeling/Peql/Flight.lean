import Peql.Engine.Resolve
import Peql.Engine.Write

/-!
# peQL as a Flight SQL service

A statement travels as its SQL: the ticket of `GetFlightInfo`, and the handle of a prepared statement, are the
statement's text, checked for the caller when they are given out and again when they are redeemed. A request names its
caller in a header, unless the service is one caller's. What decodes a header or a message is a parameter (`Wire`), and
so is what a request meets outside peQL (`Around`).
-/

namespace Peql

/-- `from_str` of what a read does with rows that break a rule. -/
def OnReadViolation.parse : String → Except PeqlError OnReadViolation
  | "exclude" => .ok .exclude
  | "refuse" => .ok .refuse
  | other => .error (.invalid s!"`{other}` is not a read's on_violation: exclude or refuse")

/-- `from_str` of what a write does with rows that break a rule. -/
def OnWriteViolation.parse : String → Except PeqlError OnWriteViolation
  | "refuse" => .ok .refuse
  | "exclude" => .ok .exclude
  | "warn" => .ok .warn
  | other => .error (.invalid s!"`{other}` is not a write's on_violation: refuse, exclude or warn")

/-- Whether a caller may write under a contract: it sees it, and is its owner's or it has none. -/
def Engine.MayWrite (e : Engine) (name : String) (caller : Caller) : Prop :=
  ∃ reg, e.visible name caller = .ok reg ∧ ∀ owner, reg.owner = some owner → owner = caller.tenant

namespace Flight

/-- The gRPC codes the service answers with. -/
inductive Code
  | invalidArgument | notFound | alreadyExists | permissionDenied | resourceExhausted | failedPrecondition | aborted
  | internal | unavailable | unauthenticated
deriving DecidableEq

structure Status where
  code : Code
  message : String
deriving DecidableEq

/-- What the service uses of its libraries. -/
structure Wire where
  /-- Whether an error of DataFusion is of planning, of SQL or of a schema, by its text. -/
  planning : String → Bool
  headerText : ByteArray → Except String String
  base64 : ByteArray → Except String ByteArray
  callerJson : ByteArray → Except String Caller
  /-- An Arrow schema as an IPC message. -/
  schemaMessage : List ColumnDef → Except String ByteArray

/-- A peQL error as a gRPC status; the message is the error's own words. -/
def status (W : Wire) (e : PeqlError) : Status :=
  match e with
  | .unknownContract _ => ⟨.notFound, e.display⟩
  | .denied _ _ | .refused _ | .guaranteeFailed _ _ | .notServable _ _ | .violated _ _ | .ungated _ =>
    ⟨.permissionDenied, e.display⟩
  | .budgetExhausted _ => ⟨.resourceExhausted, e.display⟩
  | .notWritten _ => ⟨.failedPrecondition, e.display⟩
  | .compile _ | .invalid _ => ⟨.invalidArgument, e.display⟩
  | .signing _ => ⟨.unavailable, e.display⟩
  | .dataFusion m => ⟨if W.planning m then .invalidArgument else .internal, e.display⟩
  | .conflict _ => ⟨.aborted, e.display⟩
  | .io _ | .iceberg _ => ⟨.internal, e.display⟩

/-! ## What a request holds -/

/-- The headers of a request that the service reads, as their bytes. -/
structure Metadata where
  /-- `x-peql-caller`. -/
  caller : Option ByteArray
  /-- `x-peql-on-violation`. -/
  onViolation : Option ByteArray

/-- Who a service answers for. -/
inductive Callers
  | header
  | fixed (caller : Caller)

/-- What a ticket holds: the SQL of a statement, or the handle of a prepared one. -/
inductive Ticket
  | statement (handle : ByteArray)
  | prepared (handle : ByteArray)

inductive TableExistsOption
  | unspecified | fail | append | replace

/-- `CommandStatementIngest`, with the batches the request streams as they are decoded. -/
structure CommandStatementIngest where
  catalog : Option String
  schema : Option String
  table : String
  tableDefinitionOptions : Option TableExistsOption
  options : Lookup String String
  batches : Except Status (List Row)

inductive Request
  | infoStatement (query : String)
  | infoPrepared (handle : ByteArray)
  | get (ticket : Ticket)
  | createPrepared (query : String)
  | closePrepared
  | ingest (command : CommandStatementIngest)

inductive Response
  | info (schema : ByteArray) (ticket : Ticket)
  /-- The answer as it is streamed, the envelope and its signature first. -/
  | data (r : QueryResult)
  | prepared (handle datasetSchema parameterSchema : ByteArray)
  | closed
  | written (rows : Int)

/-- What a request meets outside peQL: the id its audit record is given, the error its spool file meets, the files its
rows are written to, its write's id and what a catalog answers to its commit. -/
structure Around where
  auditId : String
  fault : Option PeqlError
  files : List StoredFile
  writeId : String
  commit : TableMetadata → Except PeqlError (Int × Option Int)

/-- A request, with the time it is served at and what it meets. -/
structure Call where
  now : Int
  around : Around
  metadata : Metadata
  request : Request

/-! ## Serving it -/

section Serving

variable (R : Runtime) (W : Wire) (callers : Callers)

/-- `on_violation`. -/
def onViolationOf (m : Metadata) : Except Status OnReadViolation :=
  match m.onViolation with
  | none => .ok .exclude
  | some v =>
    match W.headerText v with
    | .error e => .error ⟨.invalidArgument, "`x-peql-on-violation`: " ++ e⟩
    | .ok text => (OnReadViolation.parse text).mapError (status W)

/-- `FlightSql::caller`. -/
def callerOf (m : Metadata) : Except Status Caller :=
  match callers with
  | .fixed c => .ok c
  | .header =>
    match m.caller with
    | none => .error ⟨.unauthenticated, "no `x-peql-caller` header: every request names its caller"⟩
    | some value =>
      match W.base64 value with
      | .error e => .error ⟨.unauthenticated, "`x-peql-caller` is not base64: " ++ e⟩
      | .ok bytes =>
        (W.callerJson bytes).mapError fun e => ⟨.unauthenticated, "`x-peql-caller` is not a caller: " ++ e⟩

/-- A call of the engine whose error is answered as a status. -/
abbrev Serve := EStateM Status Node

/-- A schema encoded for the client. -/
def schemaMessage (schema : List ColumnDef) : Except Status ByteArray :=
  (W.schemaMessage schema).mapError fun e => ⟨.internal, e⟩

/-- `info`: the SQL is checked for the caller and the answer described. -/
def info (a : Around) (m : Metadata) (sql : String) (ticket : Ticket) : Serve Response := do
  let caller ← Effects.ofExcept (callerOf W callers m)
  let onViolation ← Effects.ofExcept (onViolationOf W m)
  let checked ← Effects.mapError (status W) (check R a.auditId sql caller onViolation)
  let schema ← Effects.ofExcept (schemaMessage W checked.schema)
  return .info schema ticket

/-- Bytes as SQL. -/
def sqlOf (what : String) (bytes : ByteArray) : Except Status String :=
  match String.fromUTF8? bytes with
  | some sql => .ok sql
  | none => .error ⟨.invalidArgument, "the " ++ what ++ " is not UTF-8 SQL"⟩

/-- `answer`: the SQL is run for the caller. -/
def answerSql (a : Around) (m : Metadata) (bytes : ByteArray) : Serve Response := do
  let caller ← Effects.ofExcept (callerOf W callers m)
  let sql ← Effects.ofExcept (sqlOf "ticket" bytes)
  let onViolation ← Effects.ofExcept (onViolationOf W m)
  let res ← Effects.mapError (status W) (querySpooled R a.auditId sql caller onViolation a.fault)
  return .data res

/-- `do_action_create_prepared_statement`. -/
def createPrepared (a : Around) (m : Metadata) (query : String) : Serve Response := do
  let caller ← Effects.ofExcept (callerOf W callers m)
  let onViolation ← Effects.ofExcept (onViolationOf W m)
  let checked ← Effects.mapError (status W) (check R a.auditId query caller onViolation)
  let datasetSchema ← Effects.ofExcept (schemaMessage W checked.schema)
  let parameterSchema ← Effects.ofExcept (schemaMessage W [])
  return .prepared query.toUTF8 datasetSchema parameterSchema

/-- What an ingest does with the rows there are, which is not to fail: the contract exists before its data. -/
def ingestMode (name : String) : Option TableExistsOption → Except Status WriteMode
  | some .replace => .ok .overwrite
  | some .append | some .unspecified | none => .ok .append
  | some .fail =>
    .error ⟨.alreadyExists, s!"`{name}` is a contract, which exists before its data: ingest with append or replace"⟩

/-- What an ingest does with its rows that break a rule; it has nowhere to hand them back. -/
def ingestOnViolation (options : Lookup String String) : Except Status OnWriteViolation := do
  let onViolation ← match options "on_violation" with
    | none => .ok .refuse
    | some v => (OnWriteViolation.parse v).mapError (status W)
  if onViolation = .exclude then
    .error ⟨.invalidArgument, "`on_violation: exclude` sets rows aside for the writer, and an ingest has nowhere to " ++
      "hand them back: ingest with refuse or warn"⟩
  else .ok onViolation

/-- `Engine::write`: a write begun, written in one part and finished. -/
def writeWhole (a : Around) (name : String) (rows : List Row) (mode : WriteMode) (onViolation : OnWriteViolation) :
    Ask WriteReport := do
  let w ← beginWrite name mode none onViolation a.writeId
  let w ← Effects.ofExcept (w.writePart R rows a.files)
  let (report, _) ← w.finishWrite R a.commit
  return report

/-- `do_put_statement_ingest`, up to its rows: whose it is, and what it does with them. -/
def admission (m : Metadata) (command : CommandStatementIngest) : Serve (Caller × WriteMode × OnWriteViolation) := do
  let caller ← Effects.ofExcept (callerOf W callers m)
  if command.catalog.isSome || command.schema.isSome then
    throw ⟨.notFound, s!"only contracts exist: `{command.table}` takes no catalog or schema"⟩
  else do
    Effects.mapError (status W) (authorizeWrite command.table caller)
    let mode ← Effects.ofExcept (ingestMode command.table command.tableDefinitionOptions)
    let onViolation ← Effects.ofExcept (ingestOnViolation W command.options)
    return (caller, mode, onViolation)

/-- `do_put_statement_ingest`: the owner's write, under the contract's write plan. -/
def ingest (a : Around) (m : Metadata) (command : CommandStatementIngest) : Serve Response := do
  let (_, mode, onViolation) ← admission W callers m command
  let rows ← Effects.ofExcept command.batches
  let report ← Effects.mapError (status W) (writeWhole R a command.table rows mode onViolation)
  return .written ((report.rowsWritten : Int).bmod (2 ^ 64))

/-- A request, served. -/
def serve (a : Around) (m : Metadata) : Request → Serve Response
  | .infoStatement query => info R W callers a m query (.statement query.toUTF8)
  | .infoPrepared handle => do
    let sql ← Effects.ofExcept (sqlOf "statement handle" handle)
    info R W callers a m sql (.prepared handle)
  | .get (.statement handle) | .get (.prepared handle) => answerSql R W callers a m handle
  | .createPrepared query => createPrepared R W callers a m query
  | .closePrepared => return .closed
  | .ingest command => ingest R W callers a m command

end Serving

end Flight

end Peql
