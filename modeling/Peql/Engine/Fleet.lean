import Peql.Engine.Invisible
import Peql.Engine.Knows

/-!
# Engines over one storage

A `Fleet` is any number of engines with the storage they share and the writes they have begun. Its steps are the calls
of the engines, in any order: a contract is registered, published or withdrawn; data is validated, resolved and read; a
write is begun, written in parts and finished, or dropped; a table is compacted; and other software commits to a table.
A write lives from the call that begins it to the call that finishes it, with any other steps between.
-/

namespace Peql

open Effects

/-- A write begun by an engine, and not finished. -/
structure OpenWrite where
  engine : Nat
  begun : Begun

structure Fleet where
  engines : Nat → Engine
  storage : Storage
  writes : Nat → Option OpenWrite

/-- A call of an engine that begins no write. -/
inductive EngineCall
  | validate (name : String)
  | ensureManifest (name : String)
  | resolve (name : String) (caller : Caller) (onViolation : OnReadViolation)
  | querySpooled (auditId sql : String) (caller : Caller) (onViolation : OnReadViolation) (fault : Option PeqlError)
  | explain (sql : String) (caller : Caller)
  | asks (caller : Caller) (call : CallerCall)

/-- The call, as the engine makes it; what it gives is left out. -/
def EngineCall.make (R : Runtime) : EngineCall → Ask Unit
  | .validate name => do
    let _ ← Peql.validate R name
    pure ()
  | .ensureManifest name => Peql.ensureManifest R name
  | .resolve name caller onViolation => do
    let _ ← Peql.resolve R name caller onViolation
    pure ()
  | .querySpooled auditId sql caller onViolation fault => do
    let _ ← Peql.querySpooled R auditId sql caller onViolation fault
    pure ()
  | .explain sql caller => do
    let _ ← Peql.explain R sql caller
    pure ()
  | .asks caller call => do
    let _ ← askFor R caller call
    pure ()

/-! ## What a call keeps -/

/-- What is kept by all that a call does but begin a write: it looks at manifests, validates, charges budgets, caches
and logs. -/
structure CallStable (R : Runtime) (P : Node → Prop) : Prop where
  looks : LooksStable R P
  validate : ∀ name, Effects.Keeps P (validate R name)
  budgets : ∀ n b, P n → P { n with engine := { n.engine with budgets := b } }
  cache : ∀ n c, P n → P { n with engine := { n.engine with cache := c } }
  audit : ∀ n a, P n → P { n with engine := { n.engine with audit := a } }

namespace CallStable

variable {R : Runtime} {P : Node → Prop} (hP : CallStable R P)

include hP

theorem charged (f : Engine → Book) : Effects.Keeps P (Ask.remember fun e => { e with budgets := f e }) :=
  Effects.Keeps.write fun n => hP.budgets n _

theorem cached (f : Engine → Option QueryCache) : Effects.Keeps P (Ask.remember fun e => { e with cache := f e }) :=
  Effects.Keeps.write fun n => hP.cache n _

theorem logged (auditId sql : String) (caller : Caller) (outcome : Outcome) (rows : Nat)
    (charges : List (String × ℚ)) (contracts : List String) :
    Effects.Keeps P (Peql.audit R auditId sql caller outcome rows charges contracts) := by
  unfold Peql.audit
  refine Effects.Keeps.read fun n _ => ?_
  cases n.engine.auditFault with
  | some e => exact Effects.Keeps.fail _
  | none => exact Effects.Keeps.write fun n hn => hP.audit n _ hn

/-- A statement planned keeps it. -/
theorem planned (p : Prepared) (caller : Caller) : Effects.Keeps P (Peql.planned R p caller) := by
  unfold Peql.planned charge
  refine (Effects.Keeps.ofExcept _).bind fun plan => Effects.Keeps.bind ?_ fun _ => Effects.Keeps.ret _
  split
  · exact Effects.Keeps.ret _
  · exact Effects.Keeps.read fun n _ => (hP.charged _).bind fun _ => Effects.Keeps.ofExcept _

/-- So does one answered. -/
theorem answer (sql : String) (caller : Caller) (auditId : String) (p : Prepared) :
    Effects.Keeps P (Peql.answer R sql caller auditId p) := by
  unfold Peql.answer
  refine (hP.planned _ _).bind fun planned => (Effects.Keeps.ofExcept _).bind fun found => ?_
  have hput : Effects.Keeps P (cachePut R p.cacheKey found.1) := Effects.Keeps.read fun n _ => hP.cached _
  exact hput.bind fun _ => keeps_now.bind fun _ => (keeps_engine _).bind fun _ => Effects.Keeps.ret _

theorem audited {α : Type} (auditId sql : String) (caller : Caller) (tell : α → Telling) {call : Ask α}
    (h : Effects.Keeps P call) : Effects.Keeps P (Peql.audited R auditId sql caller tell call) := by
  unfold Peql.audited
  refine h.attempt.bind fun out => ?_
  cases out with
  | ok a => exact (hP.logged _ _ _ _ _ _ _).bind fun _ => Effects.Keeps.ofExcept _
  | error e => exact (hP.logged _ _ _ _ _ _ _).bind fun _ => Effects.Keeps.ofExcept _

/-- A query keeps it. -/
theorem query (auditId sql : String) (caller : Caller) (asOf : AsOf) (onViolation : OnReadViolation) :
    Effects.Keeps P (Peql.query R auditId sql caller asOf onViolation) := by
  refine hP.audited auditId sql caller _ ?_
  unfold run
  refine (hP.looks.prepare _ _ _ _).bind fun p => Effects.Keeps.bind ?_ fun found => ?_
  · refine Effects.Keeps.read fun n _ => ?_
    cases n.engine.cache with
    | none => exact Effects.Keeps.ret _
    | some cache => exact (hP.cached _).bind fun _ => Effects.Keeps.ret _
  · cases found with
    | some batches => exact keeps_now.bind fun _ => (keeps_engine _).bind fun _ => Effects.Keeps.ret _
    | none => exact hP.answer _ _ _ _

theorem querySpooled (auditId sql : String) (caller : Caller) (onViolation : OnReadViolation)
    (fault : Option PeqlError) : Effects.Keeps P (Peql.querySpooled R auditId sql caller onViolation fault) := by
  refine hP.audited auditId sql caller _ ?_
  unfold spool
  refine (hP.looks.prepare _ _ _ _).bind fun p => (hP.planned _ _).bind fun planned => ?_
  refine (Effects.Keeps.ofExcept _).bind fun found => (Effects.Keeps.ofExcept _).bind fun _ => ?_
  refine keeps_now.bind fun _ => ?_
  exact (keeps_engine _).bind fun _ => Effects.Keeps.ret _

theorem plan (auditId sql : String) (caller : Caller) (asOf : AsOf) (onViolation : OnReadViolation) :
    Effects.Keeps P (Peql.plan R auditId sql caller asOf onViolation) :=
  hP.audited auditId sql caller _ ((hP.looks.prepare _ _ _ _).bind fun _ => hP.planned _ _)

theorem check (auditId sql : String) (caller : Caller) (onViolation : OnReadViolation) :
    Effects.Keeps P (Peql.check R auditId sql caller onViolation) := by
  unfold Peql.check
  refine (hP.looks.prepare _ _ _ _).attempt.bind fun out => ?_
  cases out with
  | ok p => exact Effects.Keeps.ret _
  | error e => exact (hP.logged _ _ _ _ _ _ _).bind fun _ => Effects.Keeps.fail _

/-- Every call of a caller that reads keeps it. -/
theorem ask (caller : Caller) (call : CallerCall) : Effects.Keeps P (askFor R caller call) := by
  have hmap : ∀ {α : Type} {x : Ask α} (f : α → Given), Effects.Keeps P x → Effects.Keeps P (f <$> x) :=
    fun f hx => hx.bind fun _ => Effects.Keeps.ret _
  cases call with
  | query auditId sql asOf onViolation => exact hmap _ (hP.query _ _ _ _ _)
  | plan auditId sql asOf onViolation => exact hmap _ (hP.plan _ _ _ _ _)
  | view auditId name onViolation => exact hmap _ (hP.plan _ _ _ _ _)
  | viewAsOf auditId name snapshot onViolation => exact hmap _ (hP.plan _ _ _ _ _)
  | check auditId sql onViolation => exact hmap _ (hP.check _ _ _ _)
  | describe name => exact hmap _ (keeps_describeFor _ _)
  | authorizeWrite name =>
    refine hmap _ ((keeps_engine _).bind fun reg => ?_)
    split
    · split
      · exact Effects.Keeps.fail _
      · exact Effects.Keeps.ret _
    · exact Effects.Keeps.ret _
  | listFor => exact hmap _ (keeps_engine _)

/-- And every call that begins no write. -/
theorem call (call : EngineCall) : Effects.Keeps P (call.make R) := by
  cases call with
  | validate name => exact (hP.validate name).bind fun _ => Effects.Keeps.ret _
  | ensureManifest name => exact hP.looks.ensure name
  | resolve name caller onViolation =>
    exact (keeps_resolveWith _ _ _ (hP.looks.manifest _)).bind fun _ => Effects.Keeps.ret _
  | querySpooled auditId sql caller onViolation fault =>
    exact (hP.querySpooled _ _ _ _ _).bind fun _ => Effects.Keeps.ret _
  | explain sql caller =>
    refine Effects.Keeps.bind ?_ fun _ => Effects.Keeps.ret _
    exact (hP.looks.prepare _ _ _ _).bind fun _ => (Effects.Keeps.ofExcept _).bind fun _ => Effects.Keeps.ret _
  | asks caller call => exact (hP.ask _ _).bind fun _ => Effects.Keeps.ret _

end CallStable

namespace Fleet

variable (σ : Fleet)

/-- An engine over the storage, at a time. -/
def node (k : Nat) (now : Int) : Node := ⟨σ.engines k, σ.storage, now, []⟩

/-- An engine has made a call. -/
def after (k : Nat) (n : Node) : Fleet :=
  { σ with engines := Function.update σ.engines k n.engine, storage := n.storage }

/-- An engine's contracts are others. -/
def withStore (k : Nat) (store : Contents) : Fleet :=
  { σ with engines := Function.update σ.engines k { σ.engines k with store := store } }

def setWrite (i : Nat) (w : Option OpenWrite) : Fleet := { σ with writes := Function.update σ.writes i w }

section Changed

variable {σ} {k k' : Nat} {n : Node} {store : Contents}

theorem after_self : (σ.after k n).engines k = n.engine := Function.update_self ..

theorem after_of_ne (hk : k' ≠ k) : (σ.after k n).engines k' = σ.engines k' := Function.update_of_ne hk ..

theorem withStore_self : (σ.withStore k store).engines k = { σ.engines k with store := store } :=
  Function.update_self ..

theorem withStore_of_ne (hk : k' ≠ k) : (σ.withStore k store).engines k' = σ.engines k' := Function.update_of_ne hk ..

theorem setWrite_setWrite {i : Nat} {o o' : Option OpenWrite} : (σ.setWrite i o).setWrite i o' = σ.setWrite i o' := by
  unfold setWrite
  rw [Function.update_idem]

/-- The write changed is as it was set, and others as they were. -/
theorem of_setWrite {i j : Nat} {o : Option OpenWrite} {w : OpenWrite} (h : (σ.setWrite i o).writes j = some w) :
    j = i ∧ o = some w ∨ j ≠ i ∧ σ.writes j = some w := by
  unfold setWrite at h
  dsimp only at h
  by_cases hji : j = i
  · subst hji
    rw [Function.update_self] at h
    exact .inl ⟨rfl, h⟩
  · rw [Function.update_of_ne hji] at h
    exact .inr ⟨hji, h⟩

end Changed

/-- A path some file of a table has, or a file of a write that is not finished. -/
def HasPath (p : String) : Prop :=
  (∃ table t sn, σ.storage.tables table = some t ∧ sn ∈ t.metadata.snapshots ∧ p ∈ sn.files.map fun f => f.path) ∨
    ∃ i w, σ.writes i = some w ∧ p ∈ w.begun.files.map fun f => f.path

/-- An id some write has had. -/
def HasId (id : String) : Prop :=
  (∃ table t, σ.storage.tables table = some t ∧
      ((∃ sn ∈ t.metadata.snapshots, sn.writeId = some id) ∨ ∃ file, (t.writeFacts id file).isAbsent = false)) ∨
    ∃ i w, σ.writes i = some w ∧ (w.begun.iceberg.map IcebergBegun.id) = some id

/-- New files: each has a path of its own that no file has had. -/
structure NewFiles (files : List StoredFile) : Prop where
  nodup : (files.map fun f => f.path).Nodup
  fresh : ∀ f ∈ files, ¬ σ.HasPath f.path

end Fleet

inductive FleetAction
  | registers (k : Nat) (reg : Registered)
  | publishes (k : Nat) (name audience : String)
  | unpublishes (k : Nat) (name audience : String)
  | calls (k : Nat) (now : Int) (call : EngineCall)
  | begins (k i : Nat) (now : Int) (name : String) (mode : WriteMode) (onViolation : OnWriteViolation) (id : String)
  /-- A compaction reads the files it replaces and writes their rows again. -/
  | compacts (k i : Nat) (now : Int) (name : String) (smallFileBytes minSmallFiles : Nat) (id : String)
      (files : List StoredFile)
  | writes (i : Nat) (rows : List Row) (files : List StoredFile)
  | finishes (i : Nat) (now : Int) (commit : TableMetadata → Except PeqlError (Int × Option Int))
  | drops (i : Nat)
  /-- Other software commits to a table. -/
  | commits (table : String) (sn : TableSnapshot)

/-- What a catalog answers to a commit: a snapshot of a new id, and only where the commit goes through. -/
def Answers (w : Begun) (commit : TableMetadata → Except PeqlError (Int × Option Int)) : Prop :=
  ∀ t id time, commit t = .ok (id, time) → w.CommitsOver t ∧ t.snapshotById id = none

section Steps

variable (R : Runtime) (V : Compilation → Prop)

/-- The steps of the engines, which register compilations of `V`, and of other software. -/
inductive FleetStep : Fleet → FleetAction → Fleet → Prop
  | registers {σ : Fleet} {k : Nat} {reg : Registered} (compiled : V reg.compilation) :
      FleetStep σ (.registers k reg) (σ.withStore k ((σ.engines k).store.put reg))
  | publishes {σ : Fleet} (k : Nat) (name audience : String) :
      FleetStep σ (.publishes k name audience) (σ.withStore k ((σ.engines k).store.publish name audience))
  | unpublishes {σ : Fleet} (k : Nat) (name audience : String) :
      FleetStep σ (.unpublishes k name audience) (σ.withStore k ((σ.engines k).store.unpublish name audience))
  | calls {σ : Fleet} (k : Nat) (now : Int) (call : EngineCall) :
      FleetStep σ (.calls k now call) (σ.after k (final (call.make R) (σ.node k now)))
  | begins {σ : Fleet} {k i : Nat} {now : Int} {name : String} {mode : WriteMode} {onViolation : OnWriteViolation}
      {id : String} {w : Begun} {n : Node} (free : σ.writes i = none) (fresh : ¬ σ.HasId id)
      (begun : beginWrite name mode none onViolation id (σ.node k now) = .ok w n) :
      FleetStep σ (.begins k i now name mode onViolation id) ((σ.after k n).setWrite i (some ⟨k, w⟩))
  | compacts {σ : Fleet} {k i : Nat} {now : Int} {name : String} {smallFileBytes minSmallFiles : Nat} {id : String}
      {files : List StoredFile} {w : Begun} {n : Node} {table : String} {t : IcebergTable} (free : σ.writes i = none)
      (fresh : ¬ σ.HasId id) (new : σ.NewFiles files)
      (begun : beginCompact name smallFileBytes minSmallFiles id (σ.node k now) = .ok (some w) n)
      (location : w.location = .iceberg table) (found : σ.storage.tables table = some t)
      (copied : SameRows files (t.metadata.filesAt t.metadata.current)) :
      FleetStep σ (.compacts k i now name smallFileBytes minSmallFiles id files)
        ((σ.after k n).setWrite i (some ⟨k, { w with files := files, rows := (storedRows files).card }⟩))
  | writes {σ : Fleet} {i : Nat} {w : OpenWrite} {rows : List Row} {files : List StoredFile} {b : Begun}
      (held : σ.writes i = some w) (data : w.begun.written ≠ .rewrite) (new : σ.NewFiles files)
      (part : w.begun.writePart R rows files = .ok b) :
      FleetStep σ (.writes i rows files) (σ.setWrite i (some ⟨w.engine, b⟩))
  | finishes {σ : Fleet} {i : Nat} {now : Int} {w : OpenWrite}
      {commit : TableMetadata → Except PeqlError (Int × Option Int)} (held : σ.writes i = some w)
      (answers : Answers w.begun commit) :
      FleetStep σ (.finishes i now commit)
        ((σ.after w.engine (final (w.begun.finishWrite R commit) (σ.node w.engine now))).setWrite i none)
  | drops {σ : Fleet} (i : Nat) : FleetStep σ (.drops i) (σ.setWrite i none)
  | commits {σ : Fleet} {table : String} {sn : TableSnapshot} {t : IcebergTable}
      (found : σ.storage.tables table = some t) (new : t.metadata.snapshotById sn.id = none)
      (parent : sn.parent = t.metadata.current) (foreign : sn.writeId = none)
      (nodup : (sn.files.map fun f => f.path).Nodup)
      (files : ∀ f ∈ sn.files, f ∈ t.metadata.filesAt t.metadata.current ∨ ¬ σ.HasPath f.path) :
      FleetStep σ (.commits table sn)
        { σ with storage := σ.storage.changeTable table fun t => { t with metadata := t.metadata.push sn } }

end Steps

/-- A write to a directory or a prefix is finished by an engine that has bound to it every contract whose manifest is
beside its files. -/
def Covers (σ : Fleet) : FleetAction → Prop
  | .finishes i _ _ => ∀ w, σ.writes i = some w → (∀ table, w.begun.location ≠ .iceberg table) →
      ∀ file m, (σ.storage.dirs w.begun.location).manifests file = .facts m →
        ∃ reg ∈ w.begun.bound (σ.engines w.engine), manifestFile reg.name = file
  | _ => True

end Peql
