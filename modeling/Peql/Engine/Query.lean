import Peql.Engine.Resolve
import Peql.Facts.Fold
import Peql.Lib.Debug

/-!
# Queries

`Engine::prepare` resolves every contract a statement names, in the order of its references, and plans the statement
over their views with the caller's shapes; `Engine::planned` makes its physical plan, refused unless gated, and charges
the budgets it spends; `Engine::run` answers, from the cache when it can. Each public call records its outcome in the
audit log, and returns what the log refuses in place of its own result.
-/

namespace Peql

/-- A query planned, before it is charged. -/
structure Prepared where
  cacheKey : CacheKey
  plan : Plan
  resolutions : List Resolution
  charges : List (String × ℚ)
  suppressK : Option Nat
  hasAggregate : Bool
  /-- The rows the scan of each contract reads. -/
  reads : List (String × Multiset Row)

/-- A query planned for one execution, and charged. -/
structure Planned where
  plan : Exec
  /-- The threshold of the whole-result suppression the plan ends in. -/
  suppressRows : Option Nat
  contracts : List Resolution
  suppressK : Option Nat
  charges : List (String × ℚ)
  budgets : Lookup String ℚ
  reads : List (String × Multiset Row)

structure QueryResult where
  schema : List ColumnDef
  batches : List Batch
  envelope : Envelope
  signature : Option String

/-- What a query would return, and which contracts would govern it. -/
structure Checked where
  schema : List ColumnDef
  contracts : List Resolution

/-- What `prepare` has of the references it has resolved. -/
structure Resolved where
  resolutions : List Resolution
  active : List ShapeRule
  fingerprints : List (String × String)
  views : List (TableRef × Plan)
  reads : List (String × Multiset Row)

def Resolved.none : Resolved := ⟨[], [], [], [], []⟩

/-- Epsilons added up per budget, in the order of the budgets. -/
def addCharge (budget : String) (epsilon : ℚ) : List (String × ℚ) → List (String × ℚ)
  | [] => [(budget, epsilon)]
  | (b, e) :: rest =>
    if b = budget then (b, e + epsilon) :: rest
    else if budget < b then (budget, epsilon) :: (b, e) :: rest
    else (b, e) :: addCharge budget epsilon rest

def chargesOf (charges : List (String × ℚ)) : List (String × ℚ) :=
  charges.foldl (fun out c => addCharge c.1 c.2 out) []

/-- `name@version#compilation_hash` for each contract, as the audit log names them. -/
def contractIds (contracts : List Resolution) : List String :=
  contracts.map fun c => s!"{c.contract}@{c.version}#{c.compilationHash}"

def Asker.of (caller : Caller) : Asker := ⟨caller.id, caller.tenant, caller.purpose⟩

def Batch.count (batches : List Batch) : Nat := (batches.map fun b => b.rows.length).sum

/-- The audit log's word for an error. -/
def Outcome.ofError (e : PeqlError) : Outcome := if e.isRefusal then .refused e.display else .failed e.display

/-- Names in a list, and a snapshot that may be none, as a fingerprint holds them. -/
def debugStrings (printable : Char → Bool) (xs : List String) : String :=
  String.ofList (Debug.vec (Debug.string printable) xs)

def debugSnapshot : Option Int → String
  | some s => s!"Some({s})"
  | none => "None"

section Calls

variable (R : Runtime)

/-- `Attestation::of`. -/
def attestationOf (sql : String) (batches : List Batch) (at_ : Int) : Attestation :=
  ⟨R.sha256 sql, R.sha256 (R.ipcBytes batches), at_⟩

/-- Parameter values under their names, as a fingerprint holds them. -/
def debugParams (params : List (String × Value)) : String :=
  String.ofList (Debug.vec (Debug.pair (Debug.string R.printable) (Debug.string R.printable))
    (params.map fun p => (p.1, R.debugValue p.2)))

/-- `params_fingerprint`: a contract's parameter values for a caller, in order. -/
def paramsFingerprint (cc : CompiledContract) (caller : Caller) : Except PeqlError String := do
  let params ← R.paramValues cc caller
  return debugParams R params

/-- The manifest of a reference is there, and the reference is resolved by it: at its table's current snapshot, or at
the one the read or the engine names. -/
def resolveAt (name : String) (caller : Caller) (onViolation : OnReadViolation) (snapshot : Option Int) :
    Ask (Resolution × Manifest) := do
  match snapshot with
  | none => do
    ensureManifest R name
    resolve R name caller onViolation
  | some s => do
    let pinned ← ensureManifestAsOf R name s
    resolveWith R name caller onViolation (pure (some pinned))

/-- One reference of a statement, resolved and registered. -/
def resolveReference (caller : Caller) (asOf : AsOf) (onViolation : OnReadViolation) (t : TableRef) (done : Resolved) :
    Ask Resolved := do
  let name := t.table
  if done.resolutions.any fun r => r.contract = name then return done
  else if t.qualifier.isSome then throw (.unknownContract t.display)
  else do
    let _ ← Ask.engine fun e => e.visible name caller
    let frozen ← Ask.engine fun e => .ok (e.frozen.lookup name)
    let (resolution, m) ← resolveAt R name caller onViolation ((asOf.lookup name).or frozen)
    let (view, rows) ← contractViewFor R name caller resolution
    let reg ← Ask.engine fun e => e.get name
    let shapes ← Effects.ofExcept (R.activeShapes reg.compilation.contract caller)
    let params ← Effects.ofExcept (paramsFingerprint R reg.compilation.contract caller)
    let fingerprint :=
      s!"{resolution.compilationHash}|{params}|{debugStrings R.printable resolution.shapes}|{m.dataHash}|" ++
      s!"{m.writtenAt}|{debugSnapshot m.snapshotId}"
    return {
      resolutions := done.resolutions ++ [resolution]
      active := done.active ++ shapes
      fingerprints := done.fingerprints ++ [(name, fingerprint)]
      views := done.views ++ [(t, view)]
      reads := done.reads ++ [(name, rows)] }

/-- A statement's references, one after another. -/
def resolveReferences (caller : Caller) (asOf : AsOf) (onViolation : OnReadViolation) :
    List TableRef → Resolved → Ask Resolved
  | [], done => pure done
  | t :: ts, done => do
    let done ← resolveReference R caller asOf onViolation t done
    resolveReferences caller asOf onViolation ts done

/-- The functions of a statement's vector searches, each over a contract the statement was resolved for. -/
def searchFunctions (caller : Caller) (resolutions : List Resolution) : List Search → Ask (List VectorUdf)
  | [] => pure []
  | s :: rest => do
    if resolutions.any fun r => r.contract = s.table then do
      let schema ← describeFor R s.table caller
      let udf ← Effects.ofExcept (R.searchUdf s schema)
      let udfs ← searchFunctions caller resolutions rest
      return udf :: udfs
    else throw (.unknownContract s.table)

/-- A snapshot named for a contract the statement does not read. -/
def unread (asOf : AsOf) (resolutions : List Resolution) : Except PeqlError Unit :=
  match asOf.find? fun named => !resolutions.any fun r => r.contract = named.1 with
  | some named =>
    .error (.invalid s!"the read names a snapshot of `{named.1}`, which the query does not read")
  | none => .ok ()

/-- `prepare`: resolve every contract the statement names, and plan it over their views with shapes applied. -/
def prepare (sql : String) (caller : Caller) (asOf : AsOf) (onViolation : OnReadViolation) : Ask Prepared := do
  Effects.ofExcept (R.checkSql sql)
  let (expanded, searches) ← Effects.ofExcept (R.expand sql)
  let refs ← Effects.ofExcept (R.references expanded)
  let done ← resolveReferences R caller asOf onViolation refs .none
  Effects.ofExcept (unread asOf done.resolutions)
  let udfs ← searchFunctions R caller done.resolutions searches
  let plan ← Effects.ofExcept (R.logicalPlan expanded done.views udfs)
  Effects.ofExcept (R.checkPlan plan)
  let optimized ← Effects.ofExcept (R.optimize plan)
  let shaped ← Effects.ofExcept (R.applyShapes plan optimized done.active)
  return {
    cacheKey := CacheKey.new R.sha256 sql done.fingerprints
    plan := shaped.plan
    resolutions := done.resolutions
    charges := shaped.charges
    suppressK := shaped.suppressK
    hasAggregate := shaped.hasAggregate
    reads := done.reads }

/-- `physical`: the physical plan, refused unless every scan is under its contract's gate. -/
def physical (p : Prepared) : Except PeqlError (Exec × Option Nat) := do
  let plan ← R.physicalPlan p.plan
  match p.suppressK, p.hasAggregate with
  | some k, false => do
    ensureGated (.node [plan])
    return (.node [plan], some k)
  | _, _ => do
    ensureGated plan
    return (plan, none)

/-- What the ledger answers to a query's charges; a query that charges nothing does not ask it. -/
def charge (caller : Caller) (charges : List (String × ℚ)) : Ask (Lookup String ℚ) := do
  if charges.isEmpty then return Lookup.empty
  else do
    let n ← MonadState.get
    let (left, book) := n.engine.budgets.chargeAll s!"{caller.tenant}/{caller.id}" charges n.engine.budgetFault
    Ask.remember fun e => { e with budgets := book }
    Effects.ofExcept left

/-- `planned`: the physical plan, and its budgets charged, all or none. -/
def planned (p : Prepared) (caller : Caller) : Ask Planned := do
  let (plan, suppressRows) ← Effects.ofExcept (physical R p)
  let budgets ← charge caller p.charges
  return ⟨plan, suppressRows, p.resolutions, p.suppressK, chargesOf p.charges, budgets, p.reads⟩

/-- `sign`. -/
def sign (envelope : Envelope) : Ask (Option String) :=
  Ask.engine fun e =>
    match e.signer with
    | some s =>
      match s envelope with
      | .ok signature => .ok (some signature)
      | .error cause => .error (.signing cause)
    | none => .ok none

/-- What the cache answers. -/
def cached (key : CacheKey) : Ask (Option (List Batch)) := do
  let n ← MonadState.get
  match n.engine.cache with
  | none => pure none
  | some cache => do
    let (found, cache) := cache.get n.now key
    Ask.remember fun e => { e with cache := some cache }
    pure found

def cachePut (key : CacheKey) (batches : List Batch) : Ask Unit := do
  let n ← MonadState.get
  Ask.remember fun e =>
    { e with cache := e.cache.map fun c => c.put n.now key batches (batches.map R.memory).sum }

/-- A prepared query answered from the cache. -/
def answerCached (sql : String) (caller : Caller) (auditId : String) (p : Prepared) (batches : List Batch) :
    Ask QueryResult := do
  let at_ ← Ask.now
  let envelope : Envelope := {
    caller := .of caller
    contracts := p.resolutions
    rows := Batch.count batches
    suppressK := p.suppressK
    charges := []
    budgets := Lookup.empty
    scan := .none
    attestation := attestationOf R sql batches at_
    auditId := auditId
    cached := true }
  let signature ← sign envelope
  let schema := match batches.head? with
    | some b => b.schema
    | none => R.planSchema p.plan
  return ⟨schema, batches, envelope, signature⟩

/-- A prepared query executed: planned, charged and collected. -/
def answer (sql : String) (caller : Caller) (auditId : String) (p : Prepared) : Ask QueryResult := do
  let planned ← planned R p caller
  let (batches, scan) ← Effects.ofExcept (R.collect planned.plan planned.suppressRows planned.reads)
  cachePut R p.cacheKey batches
  let at_ ← Ask.now
  let envelope : Envelope := {
    caller := .of caller
    contracts := planned.contracts
    rows := Batch.count batches
    suppressK := planned.suppressK
    charges := planned.charges
    budgets := planned.budgets
    scan := scan
    attestation := attestationOf R sql batches at_
    auditId := auditId
    cached := false }
  let signature ← sign envelope
  return ⟨R.execSchema planned.plan, batches, envelope, signature⟩

/-- `run`. -/
def run (sql : String) (caller : Caller) (auditId : String) (asOf : AsOf) (onViolation : OnReadViolation) :
    Ask QueryResult := do
  let p ← prepare R sql caller asOf onViolation
  match ← cached p.cacheKey with
  | some batches => answerCached R sql caller auditId p batches
  | none => answer R sql caller auditId p

/-- `spool`: a query executed into a file of its own, for a server that sends it from there; `fault` is the error the
file meets, if any. -/
def spool (sql : String) (caller : Caller) (auditId : String) (onViolation : OnReadViolation)
    (fault : Option PeqlError) :
    Ask QueryResult := do
  let p ← prepare R sql caller [] onViolation
  let planned ← planned R p caller
  let (batches, scan) ← Effects.ofExcept (R.collect planned.plan planned.suppressRows planned.reads)
  Effects.ofExcept (match fault with | some e => .error e | none => .ok ())
  let at_ ← Ask.now
  let envelope : Envelope := {
    caller := .of caller
    contracts := planned.contracts
    rows := Batch.count batches
    suppressK := planned.suppressK
    charges := planned.charges
    budgets := planned.budgets
    scan := scan
    attestation := attestationOf R sql batches at_
    auditId := auditId
    cached := false }
  let signature ← sign envelope
  return ⟨R.execSchema planned.plan, batches, envelope, signature⟩

/-! ## Audited calls -/

/-- `audit`: a record of a call. -/
def audit (auditId sql : String) (caller : Caller) (outcome : Outcome) (rows : Nat) (charges : List (String × ℚ))
    (contracts : List String) : Ask Unit := do
  let n ← MonadState.get
  match n.engine.auditFault with
  | some e => throw e
  | none =>
    let r : AuditRecord :=
      ⟨auditId, n.now, caller.id, caller.tenant, caller.purpose, R.sha256 sql, contracts, outcome, rows, charges⟩
    Ask.remember fun e => { e with audit := e.audit ++ [r] }

/-- A record, as the log is given it. -/
def auditRecord (auditId sql : String) (caller : Caller) (outcome : Outcome) (rows : Nat) (charges : List (String × ℚ))
    (contracts : List String) (at_ : Int) : AuditRecord :=
  ⟨auditId, at_, caller.id, caller.tenant, caller.purpose, R.sha256 sql, contracts, outcome, rows, charges⟩

theorem audit_recorded {n : Node} (h : n.engine.auditFault = none) (auditId sql : String) (caller : Caller)
    (outcome : Outcome) (rows : Nat) (charges : List (String × ℚ)) (contracts : List String) :
    audit R auditId sql caller outcome rows charges contracts n =
      Ask.remember (fun e =>
        { e with audit := e.audit ++ [auditRecord R auditId sql caller outcome rows charges contracts n.now] }) n := by
  unfold audit
  rw [Effects.bind_apply]
  simp only [Effects.get_apply, h]
  rfl

theorem audit_failed {n : Node} {e : PeqlError} (h : n.engine.auditFault = some e) (auditId sql : String)
    (caller : Caller) (outcome : Outcome) (rows : Nat) (charges : List (String × ℚ)) (contracts : List String) :
    audit R auditId sql caller outcome rows charges contracts n = .error e n := by
  unfold audit
  rw [Effects.bind_apply]
  simp only [Effects.get_apply, h]
  rfl

/-- What the log is told of an answer. -/
structure Telling where
  outcome : Outcome
  rows : Nat
  charges : List (String × ℚ)
  contracts : List String

/-- A call whose outcome is recorded: what is told of its value, or its error alone. -/
def audited {α : Type} (auditId sql : String) (caller : Caller) (tell : α → Telling) (call : Ask α) : Ask α := do
  let out ← Effects.attempt call
  match out with
  | .ok a => audit R auditId sql caller (tell a).outcome (tell a).rows (tell a).charges (tell a).contracts
  | .error e => audit R auditId sql caller (.ofError e) 0 [] []
  Effects.ofExcept out

def QueryResult.telling (r : QueryResult) : Telling :=
  ⟨.answered, r.envelope.rows, r.envelope.charges, contractIds r.envelope.contracts⟩

def Planned.telling (p : Planned) : Telling := ⟨.planned, 0, p.charges, contractIds p.contracts⟩

/-- `query_as_of`. -/
def query (auditId sql : String) (caller : Caller) (asOf : AsOf) (onViolation : OnReadViolation) : Ask QueryResult :=
  audited R auditId sql caller QueryResult.telling (run R sql caller auditId asOf onViolation)

/-- `query_spooled`. -/
def querySpooled (auditId sql : String) (caller : Caller) (onViolation : OnReadViolation) (fault : Option PeqlError) :
    Ask QueryResult :=
  audited R auditId sql caller QueryResult.telling (spool R sql caller auditId onViolation fault)

/-- `plan_as_of`. -/
def plan (auditId sql : String) (caller : Caller) (asOf : AsOf) (onViolation : OnReadViolation) : Ask Planned :=
  audited R auditId sql caller Planned.telling do
    let p ← prepare R sql caller asOf onViolation
    planned R p caller

/-- `SELECT *` over one contract. -/
def selectAll (name : String) : String := "SELECT * FROM \"" ++ name.replace "\"" "\"\"" ++ "\""

/-- `view_for`. -/
def view (auditId name : String) (caller : Caller) (onViolation : OnReadViolation) : Ask Planned :=
  plan R auditId (selectAll name) caller [] onViolation

/-- `view_as_of`. -/
def viewAsOf (auditId name : String) (caller : Caller) (snapshot : Int) (onViolation : OnReadViolation) : Ask Planned :=
  plan R auditId (selectAll name) caller [(name, snapshot)] onViolation

/-- `check`: a failed check is audited, one that passes is not. -/
def check (auditId sql : String) (caller : Caller) (onViolation : OnReadViolation) : Ask Checked := do
  let out ← Effects.attempt (prepare R sql caller [] onViolation)
  match out with
  | .ok p => return ⟨R.planSchema p.plan, p.resolutions⟩
  | .error e => do
    audit R auditId sql caller (.ofError e) 0 [] []
    throw e

/-- `explain`, for operators: the physical plan a query would run. -/
def explain (sql : String) (caller : Caller) : Ask Exec := do
  let p ← prepare R sql caller [] .exclude
  let (plan, _) ← Effects.ofExcept (physical R p)
  return plan

end Calls

/-! ## An engine over amounts, for the examples beside the theorems -/

/-- What the statement over all amounts takes from parcel and DataFusion. -/
def amountsRuntime : Runtime where
  sha256 text := text
  parsers := amountParsers
  kernel := divisionKernel
  enrichment := projecting
  validate _ rows := .ok (validateAmounts rows)
  verifyPins _ := .ok ()
  refusal _ _ := .ok none
  evalBool _ _ _ _ _ _ := .ok true
  activeShapes _ _ := .ok []
  paramValues _ _ := .ok []
  debugValue _ := ""
  printable _ := true
  checkSql _ := .ok ()
  sqlParser := ⟨fun _ => .ok [.query false [] []], fun _ => "", fun _ => ""⟩
  floats := ⟨fun _ => none, fun _ => 0⟩
  references sql :=
    if sql = selectAll "acme/amounts" then .ok [⟨none, "acme/amounts"⟩] else .error (.dataFusion "SQL error")
  fixedSizeList _ := none
  logicalPlan _ views _ :=
    match views with
    | [(_, view)] => .ok view
    | _ => .error (.dataFusion "table not found")
  checkPlan _ := .ok ()
  optimize plan := .ok plan
  applyShapes plan _ _ := .ok ⟨plan, [], none, false⟩
  physicalPlan plan := .ok plan.physical
  planSchema _ := amountContract.contract.exposedSchema
  execSchema _ := amountContract.contract.exposedSchema
  collect _ _ reads :=
    let amounts := reads.flatMap fun read => sortedAmounts read.2
    .ok ([⟨amountContract.contract.exposedSchema, amounts.map fun n => [("amount", .int n)]⟩], .none)
  memory _ := 8
  ipcBytes _ := "ipc"

/-- An engine of its own store, with nothing remembered. -/
def freshEngine (store : Contents) (location : CompiledContract → Option Location) : Engine where
  store := store
  location := location
  tables := Lookup.empty
  tableManifests := Lookup.empty
  objectManifests := Lookup.empty
  icebergManifests := Lookup.empty
  useStored := true
  frozen := []
  budgets := ⟨.inMemory, none⟩
  budgetFault := none
  cache := none
  audit := []
  auditFault := none
  signer := none

def emptyStorage : Storage := ⟨fun _ => ⟨[], fun _ => .absent⟩, fun _ => none⟩

def amountsDir : Location := .localDir "amounts"

/-- An engine with the amounts, over a directory. -/
def amountsOver (d : Dir StoredFile) : Node :=
  ⟨freshEngine (Contents.empty.put ⟨amountContract⟩) fun _ => some amountsDir, emptyStorage.setDir amountsDir d, 5, []⟩

/-- A file of one amount, as a write under the contract stores it. -/
def storedAmount (path : String) (n : Int) : StoredFile :=
  { entry := (amountFile path n).entry
    rows := (amountFile path n).rows
    typed := fun _ _ => trivial
    entry_rows := (amountFile path n).entry_rows
    entry_nulls := (amountFile path n).entry_nulls
    under := some "h1" }

end Peql
