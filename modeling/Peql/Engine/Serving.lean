import Peql.Engine.Fingerprint
import Peql.Engine.Kept
import Peql.Engine.Snapshots

/-!
# Answers from the cache

A query reads the registry three times for each contract (to resolve it, to make its view, to fingerprint it) and its
data twice (the facts that decide it, the files its view scans), with awaits between; other calls of the engine go on
meanwhile, and share its cache. `Serving` is one engine with its queries in flight, a query takes one step from one of
its awaits to the next, and anything else may happen to the engine and its storage between steps, but for answers that
come into the cache (`moves`). In every run in which no query is disturbed (`Undisturbed`), an answer from the cache is
one an earlier execution gave over the same views of the same data, in force while the query ran (`ServedFor`).
-/

namespace Peql

open Effects Runs

/-! ## A query in flight -/

/-- A contract of a statement, resolved. -/
structure ResolvedRead where
  ref : TableRef
  /-- The snapshot named for it, if any. -/
  asked : Option Int
  resolvedAs : Compilation
  resolution : Resolution
  facts : Manifest

/-- A contract of a statement, with its view. -/
structure ViewedRead extends ResolvedRead where
  viewedAs : Compilation
  view : Plan
  rows : Multiset Row
  /-- The hash of the data the view scans. -/
  scanned : String

/-- A contract of a statement, read: with what the key of the answer has of it. -/
structure ContractRead extends ViewedRead where
  keyedAs : Compilation
  active : List ShapeRule
  params : List (String × Value)

/-- Where a query is, between two of its awaits. -/
inductive QueryStage
  /-- About to read its next contract, or to be planned. -/
  | next
  | seen (t : TableRef) (asked : Option Int)
  /-- With the contract's manifest seen to, and the facts of the snapshot named for it. -/
  | ensured (t : TableRef) (asked : Option Int) (pinned : Option Manifest)
  | resolved (r : ResolvedRead)
  | viewed (r : ViewedRead)
  | prepared (p : Prepared)
  /-- With no answer in the cache. -/
  | missed (p : Prepared)
  | collected (p : Prepared) (batches : List Batch)

/-- What is asked, and what had happened when it was. -/
structure Question where
  sql : String
  caller : Caller
  asOf : AsOf
  onViolation : OnReadViolation
  expanded : String
  searches : List Search
  /-- The writes finished before, by contract, each with its time. -/
  before : List (String × Int)

structure QueryCall extends Question where
  /-- The references still to be read. -/
  refs : List TableRef
  reads : List ContractRead
  /-- The contracts searched, as they were described. -/
  described : List (String × Compilation)
  stage : QueryStage
  /-- The registries there were since it began. -/
  registries : List Contents

/-- An execution of a query. -/
structure Execution where
  call : QueryCall
  batches : List Batch

/-- A query answered from the cache, and the executions before it. -/
structure CachedAnswer where
  call : QueryCall
  batches : List Batch
  earlier : List Execution

/-- An engine, the queries it has in flight, and what it has executed and answered. -/
structure Serving where
  node : Node
  calls : Nat → Option QueryCall
  /-- The writes finished, by contract, each with its time. -/
  finished : List (String × Int)
  executions : List Execution
  answers : List CachedAnswer

/-! ## Its steps -/

/-- What is held in an engine's cache under a key. -/
def Engine.Held (e : Engine) (key : CacheKey) (entry : CacheEntry) : Prop :=
  ∃ c, e.cache = some c ∧ c.held key = some entry

/-- What is registered under a name is a compilation, if anything is. -/
def Engine.Registers (e : Engine) (name : String) (c : Compilation) : Prop :=
  ∀ reg, e.get name = .ok reg → reg.compilation = c

/-- Every compilation registered is one of some. -/
def Contents.Of (V : Compilation → Prop) (s : Contents) : Prop :=
    ∀ name reg, s.current name = some reg → V reg.compilation

section Steps

variable (R : Runtime)

namespace ContractRead

/-- What the key of an answer has of a contract. -/
def part (r : ContractRead) : String × String :=
  (r.ref.table, fingerprint R r.resolution.compilationHash r.params r.resolution.shapes r.facts)

/-- A contract was one compilation in every part of a read. -/
def ReadAs (r : ContractRead) (c : Compilation) : Prop := r.resolvedAs = c ∧ r.viewedAs = c ∧ r.keyedAs = c

end ContractRead

/-- What `prepare` has of the references read. -/
def Resolved.ofReads (reads : List ContractRead) : Resolved where
  resolutions := reads.map fun r => r.resolution
  active := reads.flatMap fun r => r.active
  fingerprints := reads.map fun r => r.part R
  views := reads.map fun r => (r.ref, r.view)
  reads := reads.map fun r => (r.ref.table, r.rows)

namespace QueryCall

/-- The key of the answer. -/
def key (call : QueryCall) : CacheKey := CacheKey.new R.sha256 call.sql (call.reads.map fun r => r.part R)

def goes (call : QueryCall) (stage : QueryStage) : QueryCall := { call with stage := stage }

/-- A contract has been read already. -/
def hasRead (call : QueryCall) (t : TableRef) : Bool := call.reads.any fun r => r.resolution.contract = t.table

end QueryCall

/-- A reference resolved, once its manifest has been seen to. -/
def resolvePinned (name : String) (caller : Caller) (onViolation : OnReadViolation) (pinned : Option Manifest) :
    Ask (Resolution × Manifest) :=
  match pinned with
  | none => resolve R name caller onViolation
  | some m => resolveWith R name caller onViolation (pure (some m))

/-- The hash of the data `viewedRows` scans. -/
def scannedHash (name : String) (reg : Registered) (resolution : Resolution) : Ask String := do
  match ← Ask.engine fun e => e.bound reg with
  | .table batches => pure (R.sha256 (R.ipcBytes batches))
  | .files (.iceberg table) => do
    let (t, snapshot) ← icebergSnapshot table name resolution.snapshotId
    let files ← Effects.ofExcept (t.files table snapshot)
    pure (dataHash R.sha256 (files.map fun f => f.entry))
  | .files l => do
    let files ← listFiles l
    pure (dataHash R.sha256 (files.map fun f => f.entry))

/-- The rest of `prepare`, once a statement's references are resolved. -/
def planOver (q : Question) (done : Resolved) : Ask Prepared := do
  Effects.ofExcept (unread q.asOf done.resolutions)
  let udfs ← searchFunctions R q.caller done.resolutions q.searches
  let plan ← Effects.ofExcept (R.logicalPlan q.expanded done.views udfs)
  Effects.ofExcept (R.checkPlan plan)
  let optimized ← Effects.ofExcept (R.optimize plan)
  let shaped ← Effects.ofExcept (R.applyShapes plan optimized done.active)
  return {
    cacheKey := CacheKey.new R.sha256 q.sql done.fingerprints
    plan := shaped.plan
    resolutions := done.resolutions
    charges := shaped.charges
    suppressK := shaped.suppressK
    hasAggregate := shaped.hasAggregate
    reads := done.reads }

/-- The contracts some searches are over, as they are described. -/
def describedAs (e : Engine) (searches : List Search) : List (String × Compilation) :=
  searches.filterMap fun s => (e.get s.table).toOption.map fun reg => (s.table, reg.compilation)

/-- A prepared query executed. -/
def execute (p : Prepared) (caller : Caller) : Ask (List Batch) := do
  let planned ← planned R p caller
  let (batches, _) ← Effects.ofExcept (R.collect planned.plan planned.suppressRows planned.reads)
  return batches

namespace Serving

/-- An engine that has answered nothing. -/
def start (n : Node) : Serving := ⟨n, fun _ => none, [], [], []⟩

def setCall (σ : Serving) (k : Nat) (call : Option QueryCall) : Serving :=
  { σ with calls := Function.update σ.calls k call }

/-- A query takes a step. -/
def goes (σ : Serving) (k : Nat) (n : Node) (call : QueryCall) : Serving :=
  { σ.setCall k (some call) with node := n }

/-- A query is answered from the cache. -/
def answered (σ : Serving) (k : Nat) (n : Node) (call : QueryCall) (batches : List Batch) : Serving :=
  { σ.setCall k none with node := n, answers := ⟨call, batches, σ.executions⟩ :: σ.answers }

/-- A query is executed. -/
def executed (σ : Serving) (k : Nat) (n : Node) (call : QueryCall) (p : Prepared) (batches : List Batch) : Serving :=
  { σ.goes k n (call.goes (.collected p batches)) with executions := ⟨call, batches⟩ :: σ.executions }

/-- An executed query has put its answer in the cache. -/
def kept (σ : Serving) (k : Nat) (n : Node) : Serving := { σ.setCall k none with node := n }

/-- Anything else happens; the queries in flight have then seen the registry it leaves. -/
def moved (σ : Serving) (n : Node) : Serving :=
  { σ with
    node := n
    calls := fun k => (σ.calls k).map fun call =>
      { call with registries := call.registries ++ [n.engine.store] } }

end Serving

inductive QueryAction
  /-- Anything but a query's step: registrations, writes, validations, other engines. -/
  | moves (n : Node)
  /-- A write of a contract finishes. -/
  | finishes (name : String) (at_ : Int)
  | begins (k : Nat) (sql : String) (caller : Caller) (asOf : AsOf) (onViolation : OnReadViolation)
  /-- The next reference is of a contract read already. -/
  | skips (k : Nat)
  | sees (k : Nat)
  | ensures (k : Nat) (pinned : Option Manifest)
  | resolves (k : Nat)
  | views (k : Nat)
  | keys (k : Nat)
  | plans (k : Nat)
  | hits (k : Nat)
  | misses (k : Nat)
  | executes (k : Nat)
  | keeps (k : Nat)
  /-- A query ends with an error. -/
  | fails (k : Nat)

/-- The steps of an engine's queries, over registries of some compilations, and of all else. -/
inductive ServingStep (V : Compilation → Prop) : Serving → QueryAction → Serving → Prop
  | moves {σ : Serving} {n : Node} (hcache : ∀ key entry, n.engine.Held key entry → σ.node.engine.Held key entry)
      (hV : n.engine.store.Of V) : ServingStep V σ (.moves n) (σ.moved n)
  | finishes {σ : Serving} (name : String) (at_ : Int) :
      ServingStep V σ (.finishes name at_) { σ with finished := σ.finished ++ [(name, at_)] }
  | begins {σ : Serving} {k : Nat} {sql expanded : String} {searches : List Search} {refs : List TableRef}
      (hk : σ.calls k = none) (hsql : R.checkSql sql = .ok ()) (hexpand : R.expand sql = .ok (expanded, searches))
      (hrefs : R.references expanded = .ok refs) (caller : Caller) (asOf : AsOf) (onViolation : OnReadViolation) :
      ServingStep V σ (.begins k sql caller asOf onViolation)
        (σ.setCall k (some ⟨⟨sql, caller, asOf, onViolation, expanded, searches, σ.finished⟩, refs, [], [], .next,
          [σ.node.engine.store]⟩))
  | skips {σ : Serving} {k : Nat} {call : QueryCall} {t : TableRef} {ts : List TableRef} (hk : σ.calls k = some call)
      (hstage : call.stage = .next) (hrefs : call.refs = t :: ts) (hread : call.hasRead t = true) :
      ServingStep V σ (.skips k) (σ.setCall k (some { call with refs := ts }))
  | sees {σ : Serving} {k : Nat} {call : QueryCall} {t : TableRef} {ts : List TableRef} {reg : Registered}
      (hk : σ.calls k = some call) (hstage : call.stage = .next) (hrefs : call.refs = t :: ts)
      (hread : call.hasRead t = false) (hplain : t.qualifier = none)
      (hreg : σ.node.engine.visible t.table call.caller = .ok reg) :
      ServingStep V σ (.sees k) (σ.setCall k (some { call with
        refs := ts, stage := .seen t ((call.asOf.lookup t.table).or (σ.node.engine.frozen.lookup t.table)) }))
  | ensures {σ : Serving} {k : Nat} {call : QueryCall} {t : TableRef} {asked : Option Int} {pinned : Option Manifest}
      (hk : σ.calls k = some call) (hstage : call.stage = .seen t asked)
      (hpinned : pinned.isSome = asked.isSome) :
      ServingStep V σ (.ensures k pinned) (σ.setCall k (some (call.goes (.ensured t asked pinned))))
  | resolves {σ : Serving} {k : Nat} {call : QueryCall} {t : TableRef} {asked : Option Int} {pinned : Option Manifest}
      {reg : Registered} {a : Resolution} {m : Manifest} {n : Node} (hk : σ.calls k = some call)
      (hstage : call.stage = .ensured t asked pinned) (hreg : σ.node.engine.visible t.table call.caller = .ok reg)
      (hresolve : resolvePinned R t.table call.caller call.onViolation pinned σ.node = .ok (a, m) n) :
      ServingStep V σ (.resolves k) (σ.goes k n (call.goes (.resolved ⟨t, asked, reg.compilation, a, m⟩)))
  | views {σ : Serving} {k : Nat} {call : QueryCall} {r : ResolvedRead} {reg : Registered} {view : Plan}
      {rows : Multiset Row} {scanned : String} {n : Node} (hk : σ.calls k = some call)
      (hstage : call.stage = .resolved r) (hreg : σ.node.engine.visible r.ref.table call.caller = .ok reg)
      (hview : contractViewFor R r.ref.table call.caller r.resolution σ.node = .ok (view, rows) n)
      (hscan : Effects.outcome (scannedHash R r.ref.table reg r.resolution) σ.node = .ok scanned) :
      ServingStep V σ (.views k) (σ.goes k n (call.goes (.viewed ⟨r, reg.compilation, view, rows, scanned⟩)))
  | keys {σ : Serving} {k : Nat} {call : QueryCall} {r : ViewedRead} {reg : Registered} {active : List ShapeRule}
      {params : List (String × Value)} (hk : σ.calls k = some call) (hstage : call.stage = .viewed r)
      (hreg : σ.node.engine.get r.ref.table = .ok reg)
      (hactive : R.activeShapes reg.compilation.contract call.caller = .ok active)
      (hparams : R.paramValues reg.compilation.contract call.caller = .ok params) :
      ServingStep V σ (.keys k) (σ.setCall k (some { call with
        reads := call.reads ++ [⟨r, reg.compilation, active, params⟩], stage := .next }))
  | plans {σ : Serving} {k : Nat} {call : QueryCall} {p : Prepared} {n : Node} (hk : σ.calls k = some call)
      (hstage : call.stage = .next) (hrefs : call.refs = [])
      (hplan : planOver R call.toQuestion (.ofReads R call.reads) σ.node = .ok p n) :
      ServingStep V σ (.plans k) (σ.goes k n { call with
        described := describedAs σ.node.engine call.searches, stage := .prepared p })
  | hits {σ : Serving} {k : Nat} {call : QueryCall} {p : Prepared} {batches : List Batch} {n : Node}
      (hk : σ.calls k = some call) (hstage : call.stage = .prepared p)
      (hcached : cached p.cacheKey σ.node = .ok (some batches) n) :
      ServingStep V σ (.hits k) (σ.answered k n call batches)
  | misses {σ : Serving} {k : Nat} {call : QueryCall} {p : Prepared} {n : Node} (hk : σ.calls k = some call)
      (hstage : call.stage = .prepared p) (hcached : cached p.cacheKey σ.node = .ok none n) :
      ServingStep V σ (.misses k) (σ.goes k n (call.goes (.missed p)))
  | executes {σ : Serving} {k : Nat} {call : QueryCall} {p : Prepared} {batches : List Batch} {n : Node}
      (hk : σ.calls k = some call) (hstage : call.stage = .missed p)
      (hexec : execute R p call.caller σ.node = .ok batches n) :
      ServingStep V σ (.executes k) (σ.executed k n call p batches)
  | keeps {σ : Serving} {k : Nat} {call : QueryCall} {p : Prepared} {batches : List Batch} {n : Node}
      (hk : σ.calls k = some call) (hstage : call.stage = .collected p batches)
      (hput : cachePut R p.cacheKey batches σ.node = .ok () n) :
      ServingStep V σ (.keeps k) (σ.kept k n)
  | fails {σ : Serving} (k : Nat) : ServingStep V σ (.fails k) (σ.setCall k none)

/-! ## What is served -/

/-- What a query is given of a contract, where an execution read it: one view of it, over data with the same facts,
which are not older than a write of it finished before the query. -/
structure ServesRead (R : Runtime) (call : QueryCall) (r s : ContractRead) : Prop where
  name : r.ref.table = s.ref.table
  compilation : r.ReadAs s.resolvedAs ∧ s.ReadAs s.resolvedAs
  params : r.params = s.params
  shapes : r.active.map ShapeRule.id = s.active.map ShapeRule.id
  facts : r.facts.dataHash = s.facts.dataHash ∧ r.facts.writtenAt = s.facts.writtenAt ∧
    r.facts.snapshotId = s.facts.snapshotId
  /-- The execution scanned the data the facts are of. -/
  scanned : r.scanned = s.facts.dataHash
  view : ∃ stored stored', r.view = contractView R.enrichment s.resolvedAs.contract stored (Lookup.ofList s.params) ∧
    s.view = contractView R.enrichment s.resolvedAs.contract stored' (Lookup.ofList s.params)
  registered : ∃ registry ∈ call.registries, ∃ reg, registry.current s.ref.table = some reg ∧
    reg.compilation = s.resolvedAs
  fresh : s.asked = none → ∀ w ∈ call.before, w.1 = s.ref.table → w.2 ≤ r.facts.writtenAt

/-- Every contract a query searched was described as it was read. -/
def QueryCall.Described (call : QueryCall) : Prop :=
  ∀ d ∈ call.described, ∃ r ∈ call.reads, r.resolution.contract = d.1 ∧ r.resolvedAs = d.2

/-- An answer from the cache is an execution's, of the same statement over the same contracts. -/
structure ServedFor (R : Runtime) (e : Execution) (a : CachedAnswer) : Prop where
  batches : a.batches = e.batches
  sql : a.call.sql = e.call.sql
  reads : List.Forall₂ (ServesRead R a.call) e.call.reads a.call.reads
  described : e.call.Described ∧ a.call.Described

/-! ## Undisturbed queries -/

/-- Neither the name nor the fingerprint a query's key takes holds the separator. -/
def Separable (σ : Serving) : QueryAction → Prop
  | .keys k => ∀ call r reg params, σ.calls k = some call → call.stage = .viewed r →
      σ.node.engine.get r.ref.table = .ok reg → R.paramValues reg.compilation.contract call.caller = .ok params →
      Separated r.ref.table ∧
        Separated (fingerprint R r.resolution.compilationHash params r.resolution.shapes r.facts)
  | _ => True

/-- A query takes facts no older than the writes finished before it, a view of the contract it resolved over the data
of these facts, and parameters and searches of that contract. -/
def Undisturbed (σ : Serving) : QueryAction → Prop
  | .resolves k => ∀ call t m, σ.calls k = some call → call.stage = .ensured t none none →
      Effects.outcome (manifest t.table) σ.node = .ok (some m) → ∀ w ∈ call.before, w.1 = t.table → w.2 ≤ m.writtenAt
  | .views k => ∀ call r reg scanned, σ.calls k = some call → call.stage = .resolved r →
      σ.node.engine.get r.ref.table = .ok reg → reg.compilation = r.resolvedAs ∧
        (Effects.outcome (scannedHash R r.ref.table reg r.resolution) σ.node = .ok scanned → scanned = r.facts.dataHash)
  | .keys k => ∀ call r, σ.calls k = some call → call.stage = .viewed r →
      σ.node.engine.Registers r.ref.table r.resolvedAs
  | .plans k => ∀ call, σ.calls k = some call → ∀ s ∈ call.searches, ∀ r ∈ call.reads,
      r.resolution.contract = s.table → σ.node.engine.Registers s.table r.resolvedAs
  | _ => True

end Steps

/-! ## Calls, taken apart -/

/-- The registry and the cache are as they were. -/
structure Beside (n m : Node) : Prop where
  store : m.engine.store = n.engine.store
  cache : m.engine.cache = n.engine.cache

theorem Beside.refl (n : Node) : Beside n n := ⟨rfl, rfl⟩

/-- Reads and recordings leave registry and cache. -/
theorem beside_stable (n : Node) : DataStable (Beside n) where
  touch _ _ h := ⟨h.store, h.cache⟩
  storage _ _ h := ⟨h.store, h.cache⟩
  objectManifests _ _ h := ⟨h.store, h.cache⟩
  icebergManifests _ _ h := ⟨h.store, h.cache⟩

section Parts

variable {R : Runtime} {caller : Caller} {onViolation : OnReadViolation} {n m : Node}

/-- A view made is of a contract seen, with its parameters. -/
theorem contractViewFor_ok {name : String} {r : Resolution} {view : Plan} {rows : Multiset Row}
    (h : contractViewFor R name caller r n = .ok (view, rows) m) :
    ∃ reg params, n.engine.visible name caller = .ok reg ∧ viewedRows name reg r n = .ok rows m ∧
      R.paramValues reg.compilation.contract caller = .ok params ∧
      view = contractView R.enrichment reg.compilation.contract r.flagsMaterialised (Lookup.ofList params) := by
  unfold contractViewFor at h
  obtain ⟨reg, hreg, h⟩ := Ask.engine_bind_ok.1 h
  obtain ⟨rows', l, hrows, h⟩ := Effects.bind_eq_ok.1 h
  obtain ⟨params, hparams, h⟩ := Effects.ofExcept_bind_ok.1 h
  cases h
  exact ⟨reg, params, hreg, hrows, hparams, rfl⟩

/-- A contract resolved is seen, and admitted by the facts given. -/
theorem resolvePinned_ok {name : String} {pinned : Option Manifest} {a : Resolution × Manifest}
    (h : resolvePinned R name caller onViolation pinned n = .ok a m) :
    ∃ reg, n.engine.visible name caller = .ok reg ∧ Beside n m ∧
      resolution R m.engine reg caller onViolation a.2 = .ok a.1 ∧
      (pinned = none → Effects.outcome (manifest name) n = .ok (some a.2)) := by
  have hwith : ∃ source : Ask (Option Manifest), Effects.Keeps (Beside n) source ∧
      (pinned = none → source = manifest name) ∧
      resolveWith R name caller onViolation source n = .ok a m := by
    cases pinned with
    | none => exact ⟨_, keeps_manifest (beside_stable n) name, fun _ => rfl, h⟩
    | some facts => exact ⟨_, Effects.Keeps.ret _, fun hnone => (Option.some_ne_none facts hnone).elim, h⟩
  obtain ⟨source, hkeeps, hsource, h⟩ := hwith
  unfold resolveWith at h
  obtain ⟨reg, hreg, h⟩ := Ask.engine_bind_ok.1 h
  obtain ⟨_, _, h⟩ := Effects.ofExcept_bind_ok.1 h
  obtain ⟨rule, _, h⟩ := Effects.ofExcept_bind_ok.1 h
  cases rule with
  | some rule => cases h
  | none =>
    obtain ⟨known, l, hl, h⟩ := Effects.bind_eq_ok.1 h
    cases known with
    | none => cases h
    | some facts =>
      obtain ⟨r, hr, h⟩ := Ask.engine_bind_ok.1 h
      cases h
      refine ⟨reg, hreg, hkeeps.of_ok (.refl n) hl, hr, fun hnone => ?_⟩
      rw [← hsource hnone]
      exact Effects.outcome_eq_ok.2 ⟨m, hl⟩

end Parts

/-! ## A query with nothing between its steps -/

section AtOnce

variable {R : Runtime} {V : Compilation → Prop}

/-- What is beside twice is beside. -/
theorem Beside.trans {n m k : Node} (h : Beside n m) (h' : Beside m k) : Beside n k :=
  ⟨h'.store.trans h.store, h'.cache.trans h.cache⟩

/-- The cache holds what it held. -/
theorem Beside.holds {n m : Node} (h : Beside n m) (key : CacheKey) (entry : CacheEntry)
    (hheld : m.engine.Held key entry) : n.engine.Held key entry := by
  unfold Engine.Held at hheld ⊢
  rwa [h.cache] at hheld

theorem Beside.of {n m : Node} (h : Beside n m) (hV : n.engine.store.Of V) : m.engine.store.Of V := by
  rwa [h.store]

@[simp] theorem Serving.setCall_self (σ : Serving) (k : Nat) (call : Option QueryCall) :
    (σ.setCall k call).calls k = call :=
  Function.update_self ..

theorem Serving.setCall_of_ne {σ : Serving} {k k' : Nat} (h : k' ≠ k) (call : Option QueryCall) :
    (σ.setCall k call).calls k' = σ.calls k' :=
  Function.update_of_ne h ..

@[simp] theorem Serving.goes_self (σ : Serving) (k : Nat) (n : Node) (call : QueryCall) :
    (σ.goes k n call).calls k = some call :=
  Function.update_self ..

/-- A query's steps take it and the node further, and nothing is executed or answered. -/
structure Reads (R : Runtime) (V : Compilation → Prop) (σ : Serving) (k : Nat) (m : Node) (call : QueryCall)
    (σ' : Serving) : Prop where
  run : ∃ as, Run (ServingStep R V) σ as σ'
  node : σ'.node = m
  call : σ'.calls k = some call
  beside : Beside σ.node m
  executions : σ'.executions = σ.executions
  answers : σ'.answers = σ.answers

/-- Two stretches of a query's steps are one. -/
theorem Reads.trans {σ τ υ : Serving} {k : Nat} {m l : Node} {call call' : QueryCall} (h : Reads R V σ k m call τ)
    (h' : Reads R V τ k l call' υ) : Reads R V σ k l call' υ where
  run := by
    obtain ⟨as, has⟩ := h.run
    obtain ⟨bs, hbs⟩ := h'.run
    exact ⟨as ++ bs, has.append hbs⟩
  node := h'.node
  call := h'.call
  beside := h.beside.trans (h.node ▸ h'.beside)
  executions := h'.executions.trans h.executions
  answers := h'.answers.trans h.answers

/-- A statement is prepared in three parts: it is expanded, its references are read, and it is planned over them. -/
theorem prepare_ok {sql : String} {caller : Caller} {asOf : AsOf} {onViolation : OnReadViolation}
    {p : Prepared} {n m : Node}
    (h : prepare R sql caller asOf onViolation n = .ok p m) :
    ∃ expanded searches refs done l, R.checkSql sql = .ok () ∧ R.expand sql = .ok (expanded, searches) ∧
      R.references expanded = .ok refs ∧ resolveReferences R caller asOf onViolation refs .none n = .ok done l ∧
      ∀ before, planOver R ⟨sql, caller, asOf, onViolation, expanded, searches, before⟩ done l = .ok p m := by
  unfold prepare at h
  obtain ⟨_, hsql, h⟩ := Effects.ofExcept_bind_ok.1 h
  obtain ⟨⟨expanded, searches⟩, hexpand, h⟩ := Effects.ofExcept_bind_ok.1 h
  obtain ⟨refs, hrefs, h⟩ := Effects.ofExcept_bind_ok.1 h
  obtain ⟨done, l, hdone, h⟩ := Effects.bind_eq_ok.1 h
  exact ⟨expanded, searches, refs, done, l, hsql, hexpand, hrefs, hdone, fun _ => h⟩

/-- Planning leaves registry and cache. -/
theorem keeps_planOver (n : Node) (q : Question) (done : Resolved) : Effects.Keeps (Beside n) (planOver R q done) := by
  unfold planOver
  refine (Effects.Keeps.ofExcept _).bind fun _ => (keeps_searchFunctions _ _ _).bind fun _ => ?_
  refine (Effects.Keeps.ofExcept _).bind fun _ => (Effects.Keeps.ofExcept _).bind fun _ => ?_
  exact (Effects.Keeps.ofExcept _).bind fun _ => (Effects.Keeps.ofExcept _).bind fun _ => Effects.Keeps.ret _

end AtOnce

end Peql
