import Peql.Engine.Query

/-!
# What the calls over data leave alone

Resolving a statement reads and records manifests and validates rows. It writes the storage, the manifests the engine
remembers and the trace, and nothing else of the engine: what is stable under those (`DataStable`) is kept by every call
up to `prepare`.
-/

namespace Peql

open Effects

/-- What is kept when a contract's data is read, validated or recorded. -/
structure DataStable (P : Node → Prop) : Prop where
  touch : ∀ n t, P n → P { n with touched := n.touched ++ [t] }
  storage : ∀ n s, P n → P { n with storage := s }
  objectManifests : ∀ n o, P n → P { n with engine := { n.engine with objectManifests := o } }
  icebergManifests : ∀ n i, P n → P { n with engine := { n.engine with icebergManifests := i } }

/-- What the engine keeps beside its manifests is stable. -/
theorem DataStable.ofEngine {P : Node → Prop} (h : ∀ n m : Node, m.engine.budgets = n.engine.budgets →
    m.engine.audit = n.engine.audit → m.engine.auditFault = n.engine.auditFault → m.engine.cache = n.engine.cache →
    m.engine.budgetFault = n.engine.budgetFault → P n → P m) : DataStable P where
  touch _ _ := h _ _ rfl rfl rfl rfl rfl
  storage _ _ := h _ _ rfl rfl rfl rfl rfl
  objectManifests _ _ := h _ _ rfl rfl rfl rfl rfl
  icebergManifests _ _ := h _ _ rfl rfl rfl rfl rfl

variable {R : Runtime} {P : Node → Prop} (hP : DataStable P)

/-! ## Reads and writes -/

theorem keeps_engine {α : Type} (f : Engine → Except PeqlError α) : Effects.Keeps P (Ask.engine f) :=
    Effects.Keeps.reading _

theorem keeps_storage {α : Type} (f : Storage → Except PeqlError α) : Effects.Keeps P (Ask.storage f) :=
    Effects.Keeps.reading _

theorem keeps_now : Effects.Keeps P Ask.now := fun _ h => h

include hP

theorem keeps_touch (t : Touch) : Effects.Keeps P (Ask.touch t) := Effects.Keeps.write fun n => hP.touch n t

theorem keeps_store (f : Storage → Storage) : Effects.Keeps P (Ask.store f) :=
  Effects.Keeps.write fun n => hP.storage n _

theorem keeps_touchRead {α : Type} (contract : String) (recorded : Storage → Recorded α) :
    Effects.Keeps P (Ask.touchRead contract recorded) := Effects.Keeps.write fun n hn => by
  split
  · exact hn
  · exact hP.touch n _ hn

theorem keeps_rememberObject (f : Engine → Lookup String Manifest) :
    Effects.Keeps P (Ask.remember fun e => { e with objectManifests := f e }) :=
  Effects.Keeps.write fun n => hP.objectManifests n _

theorem keeps_rememberIceberg (f : Engine → Lookup String Manifest) :
    Effects.Keeps P (Ask.remember fun e => { e with icebergManifests := f e }) :=
  Effects.Keeps.write fun n => hP.icebergManifests n _

theorem keeps_loadLocal (l : Location) (contract : String) : Effects.Keeps P (loadLocal l contract) :=
  (keeps_touchRead hP _ _).bind fun _ => keeps_storage _

theorem keeps_loadObject (l : Location) (contract : String) : Effects.Keeps P (loadObject l contract) :=
  (keeps_touchRead hP _ _).bind fun _ => keeps_storage _

theorem keeps_loadFacts (table : String) (snapshot : Int) (contract : String) :
    Effects.Keeps P (loadFacts table snapshot contract) :=
  (keeps_touchRead hP _ _).bind fun _ => keeps_storage _

theorem keeps_loadWriteFacts (table : String) (snapshot : TableSnapshot) (contract : String) :
    Effects.Keeps P (loadWriteFacts table snapshot contract) := by
  unfold loadWriteFacts
  cases snapshot.writeId with
  | none => exact keeps_storage _
  | some write => exact (keeps_touchRead hP _ _).bind fun _ => keeps_storage _

theorem keeps_saveManifest (l : Location) (m : Manifest) : Effects.Keeps P (saveManifest l m) :=
  (keeps_touch hP _).bind fun _ => keeps_store hP _

theorem keeps_saveFacts (table : String) (m : Manifest) : Effects.Keeps P (saveFacts table m) := by
  unfold saveFacts
  cases m.snapshotId with
  | none => exact Effects.Keeps.fail _
  | some snapshot => exact (keeps_touch hP _).bind fun _ => keeps_store hP _

omit hP in
theorem keeps_icebergSnapshot (table name : String) (at_ : Option Int) :
    Effects.Keeps P (icebergSnapshot table name at_) := by
  unfold icebergSnapshot
  refine (keeps_storage _).bind fun t => ?_
  cases t with
  | none => exact Effects.Keeps.fail _
  | some t =>
    cases at_ with
    | some s =>
      dsimp only
      split
      · exact Effects.Keeps.fail _
      · exact Effects.Keeps.ret _
    | none =>
      dsimp only
      split
      · exact Effects.Keeps.ret _
      · exact Effects.Keeps.fail _

/-! ## The facts of a snapshot -/

theorem keeps_factsBack (table : String) (t : TableMetadata) (name : String) (steps : Nat) (at_ : Option Int)
    (writes : List Pending) : Effects.Keeps P (factsBack table t name steps at_ writes) := by
  induction steps generalizing at_ writes with
  | zero => cases at_ <;> exact Effects.Keeps.ret _
  | succ steps ih =>
    cases at_ with
    | none => exact Effects.Keeps.ret _
    | some s =>
      unfold factsBack
      cases t.snapshotById s with
      | none => exact Effects.Keeps.ret _
      | some snapshot =>
        refine (keeps_loadFacts hP _ _ _).bind fun m => ?_
        cases m with
        | some m => exact Effects.Keeps.ret _
        | none =>
          refine (keeps_loadWriteFacts hP _ _ _).bind fun write => ?_
          cases write with
          | none => exact Effects.Keeps.ret _
          | some write =>
            dsimp only
            cases snapshot.time with
            | none => exact Effects.Keeps.fail _
            | some time =>
              dsimp only
              split
              · exact Effects.Keeps.ret _
              · exact ih _ _

theorem keeps_factsForward (table : String) (c : Compilation) (writes : List Pending) (known : Option Manifest) :
    Effects.Keeps P (factsForward R table c writes known) := by
  induction writes generalizing known with
  | nil => exact Effects.Keeps.ret _
  | cons w writes ih =>
    unfold factsForward
    refine (Effects.Keeps.ofExcept _).bind fun m => ?_
    cases m with
    | none => exact Effects.Keeps.ret _
    | some m => exact (keeps_saveFacts hP _ _).bind fun _ => ih _

theorem keeps_icebergFacts (table : String) (t : TableMetadata) (snapshot : Int) (reg : Registered) :
    Effects.Keeps P (icebergFacts R table t snapshot reg) := by
  unfold icebergFacts
  refine (keeps_factsBack hP _ _ _ _ _ _).bind fun found => ?_
  cases found with
  | none => exact Effects.Keeps.ret _
  | some found => exact keeps_factsForward hP _ _ _ _

/-! ## A validation -/

theorem keeps_validateRows (c : Compilation) (rows : Multiset Row) : Effects.Keeps P (validateRows R c rows) :=
  (keeps_touch hP _).bind fun _ => Effects.Keeps.ofExcept _

theorem keeps_whole (name : String) (c : Compilation) (l : Location) (at_ : Option Int) :
    Effects.Keeps P (whole R name c l at_) := by
  have hfiles : Effects.Keeps P (do
      let files ← listFiles l
      let verdict ← validateRows R c (providedRows c.contract false files)
      let entries := files.map fun f => f.entryFor c.contract
      return (⟨verdict, dataHash R.sha256 entries, none⟩, entries) : Ask (DataVerdict × List FileEntry)) :=
    (keeps_storage _).bind fun _ => (keeps_validateRows hP _ _).bind fun _ => Effects.Keeps.ret _
  unfold whole
  split
  · refine (keeps_icebergSnapshot _ _ _).bind fun t => (Effects.Keeps.ofExcept _).bind fun _ => ?_
    exact (keeps_validateRows hP _ _).bind fun _ => (Effects.Keeps.ofExcept _).bind fun _ => Effects.Keeps.ret _
  all_goals
    split
    · exact Effects.Keeps.fail _
    · exact hfiles

theorem keeps_record (name : String) (l : Location) (m : Manifest) : Effects.Keeps P (record name l m) := by
  unfold record
  cases l with
  | localDir root => exact keeps_saveManifest hP _ _
  | object url => exact (keeps_saveManifest hP _ _).bind fun _ => keeps_rememberObject hP _
  | iceberg table =>
    refine (keeps_icebergSnapshot _ _ _).bind fun t => (keeps_saveFacts hP _ _).bind fun _ => ?_
    split
    · exact keeps_rememberIceberg hP _
    · exact Effects.Keeps.ret _

/-- A validation keeps what is stable under its writes. -/
theorem keeps_refresh (name : String) (at_ : Option Int) : Effects.Keeps P (refresh R name at_) := by
  unfold refresh
  refine keeps_now.bind fun _ => (keeps_engine _).bind fun reg => (keeps_engine _).bind fun b => ?_
  cases b with
  | table batches => exact Effects.Keeps.fail _
  | files l =>
    refine (keeps_whole hP _ _ _ _).bind fun found => keeps_now.bind fun _ => ?_
    exact (keeps_record hP _ _ _).bind fun _ => Effects.Keeps.ret _

/-! ## Resolving -/

theorem keeps_manifest (name : String) : Effects.Keeps P (manifest name) := by
  unfold manifest
  refine (keeps_engine _).bind fun reg => (keeps_engine _).bind fun b => ?_
  split
  · exact keeps_loadLocal hP _ _
  all_goals exact (keeps_touch hP _).bind fun _ => keeps_engine _

theorem keeps_manifestAsOf (name : String) (snapshot : Int) : Effects.Keeps P (manifestAsOf R name snapshot) := by
  unfold manifestAsOf
  refine (keeps_engine _).bind fun reg => (keeps_engine _).bind fun b => ?_
  split
  · refine (keeps_storage _).bind fun t => ?_
    cases t with
    | none => exact Effects.Keeps.fail _
    | some t =>
      dsimp only
      split
      · exact Effects.Keeps.fail _
      · exact keeps_icebergFacts hP _ _ _ _
  · exact Effects.Keeps.fail _

/-- So does ensuring a manifest. -/
theorem keeps_ensureManifest (name : String) : Effects.Keeps P (ensureManifest R name) := by
  have hrefresh : ∀ at_, Effects.Keeps P (do
      let _ ← refresh R name at_
      pure () : Ask Unit) := fun at_ => (keeps_refresh hP name at_).bind fun _ => Effects.Keeps.ret _
  unfold ensureManifest
  refine (keeps_engine _).bind fun reg => (keeps_engine _).bind fun b => ?_
  split
  · exact Effects.Keeps.ret _
  · refine (keeps_loadLocal hP _ _).bind fun known => (keeps_storage _).bind fun files => ?_
    split
    · exact Effects.Keeps.ret _
    · exact hrefresh _
  · refine (keeps_loadObject hP _ _).bind fun known => ?_
    cases known with
    | some m => exact keeps_rememberObject hP _
    | none =>
      refine (keeps_storage _).bind fun files => ?_
      split
      · exact Effects.Keeps.ret _
      · exact hrefresh _
  · refine (keeps_storage _).bind fun t => ?_
    split
    · exact keeps_rememberIceberg hP _
    · refine (keeps_icebergFacts hP _ _ _ _).bind fun known => ?_
      cases known with
      | some m => exact keeps_rememberIceberg hP _
      | none => exact hrefresh _

theorem keeps_ensureManifestAsOf (name : String) (snapshot : Int) :
    Effects.Keeps P (ensureManifestAsOf R name snapshot) := by
  unfold ensureManifestAsOf
  refine (keeps_manifestAsOf hP _ _).bind fun known => ?_
  cases known with
  | some m => exact Effects.Keeps.ret _
  | none => exact (keeps_refresh hP _ _).bind fun _ => Effects.Keeps.ret _

omit hP in
/-- Resolving a contract keeps what reading its manifest keeps. -/
theorem keeps_resolveWith (name : String) (caller : Caller) (onViolation : OnReadViolation)
    {manifest : Ask (Option Manifest)} (h : Effects.Keeps P manifest) :
    Effects.Keeps P (resolveWith R name caller onViolation manifest) := by
  unfold resolveWith
  refine (keeps_engine _).bind fun reg => (Effects.Keeps.ofExcept _).bind fun _ =>
    (Effects.Keeps.ofExcept _).bind fun rule => ?_
  cases rule with
  | some rule => exact Effects.Keeps.fail _
  | none =>
    refine h.bind fun m => ?_
    cases m with
    | none => exact Effects.Keeps.fail _
    | some m => exact (keeps_engine _).bind fun _ => Effects.Keeps.ret _

omit hP in
/-- Making its view keeps it. -/
theorem keeps_contractViewFor (name : String) (caller : Caller) (resolution : Resolution) :
    Effects.Keeps P (contractViewFor R name caller resolution) := by
  unfold contractViewFor
  refine (keeps_engine _).bind fun reg => Effects.Keeps.bind ?_ fun _ => (Effects.Keeps.ofExcept _).bind fun _ =>
    Effects.Keeps.ret _
  unfold viewedRows
  refine (keeps_engine _).bind fun b => ?_
  split
  · exact Effects.Keeps.ret _
  · exact (keeps_icebergSnapshot _ _ _).bind fun _ => Effects.Keeps.ofExcept _
  · exact (keeps_storage _).bind fun _ => Effects.Keeps.ret _

omit hP in
theorem keeps_describeFor (name : String) (caller : Caller) : Effects.Keeps P (describeFor R name caller) := by
  unfold describeFor
  refine (keeps_engine _).bind fun reg => (Effects.Keeps.ofExcept _).bind fun rule => ?_
  cases rule with
  | some rule => exact Effects.Keeps.fail _
  | none => exact Effects.Keeps.ret _

/-! ## A statement -/

/-- What is kept when the manifests of contracts are looked for, and made where there are none. -/
structure LooksStable (R : Runtime) (P : Node → Prop) : Prop where
  ensure : ∀ name, Effects.Keeps P (ensureManifest R name)
  ensureAsOf : ∀ name snapshot, Effects.Keeps P (ensureManifestAsOf R name snapshot)
  manifest : ∀ name, Effects.Keeps P (manifest name)

/-- What is stable under reads and recordings is stable under all that a statement does to its data. -/
theorem DataStable.looks : LooksStable R P := ⟨keeps_ensureManifest hP, keeps_ensureManifestAsOf hP, keeps_manifest hP⟩

namespace LooksStable

omit hP

variable (hL : LooksStable R P)

include hL

theorem resolveAt (name : String) (caller : Caller) (onViolation : OnReadViolation) (snapshot : Option Int) :
    Effects.Keeps P (resolveAt R name caller onViolation snapshot) := by
  unfold Peql.resolveAt
  cases snapshot with
  | none => exact (hL.ensure _).bind fun _ => keeps_resolveWith _ _ _ (hL.manifest _)
  | some s => exact (hL.ensureAsOf _ _).bind fun _ => keeps_resolveWith _ _ _ (Effects.Keeps.ret _)

theorem resolveReference (caller : Caller) (asOf : AsOf) (onViolation : OnReadViolation) (t : TableRef)
    (done : Resolved) : Effects.Keeps P (resolveReference R caller asOf onViolation t done) := by
  unfold Peql.resolveReference
  dsimp only
  split
  · exact Effects.Keeps.ret _
  split
  · exact Effects.Keeps.fail _
  refine (keeps_engine _).bind fun _ => (keeps_engine _).bind fun frozen => ?_
  refine (hL.resolveAt _ _ _ _).bind fun a => (keeps_contractViewFor _ _ _).bind fun view => ?_
  refine (keeps_engine _).bind fun reg => (Effects.Keeps.ofExcept _).bind fun _ =>
    (Effects.Keeps.ofExcept _).bind fun _ => ?_
  exact Effects.Keeps.ret _

/-- Resolving the references of a statement keeps it. -/
theorem resolveReferences (caller : Caller) (asOf : AsOf) (onViolation : OnReadViolation) (refs : List TableRef)
    (done : Resolved) : Effects.Keeps P (resolveReferences R caller asOf onViolation refs done) := by
  induction refs generalizing done with
  | nil => exact Effects.Keeps.ret _
  | cons t ts ih => exact (hL.resolveReference _ _ _ _ _).bind fun done => ih done

end LooksStable

theorem keeps_resolveAt (name : String) (caller : Caller) (onViolation : OnReadViolation) (snapshot : Option Int) :
    Effects.Keeps P (resolveAt R name caller onViolation snapshot) := hP.looks.resolveAt _ _ _ _

theorem keeps_resolveReferences (caller : Caller) (asOf : AsOf) (onViolation : OnReadViolation) (refs : List TableRef)
    (done : Resolved) : Effects.Keeps P (resolveReferences R caller asOf onViolation refs done) :=
  hP.looks.resolveReferences _ _ _ _ _

omit hP in
/-- Some references, and then others. -/
theorem resolveReferences_append (caller : Caller) (asOf : AsOf) (onViolation : OnReadViolation) (xs ys : List TableRef)
    (done : Resolved) :
    resolveReferences R caller asOf onViolation (xs ++ ys) done =
      resolveReferences R caller asOf onViolation xs done >>= resolveReferences R caller asOf onViolation ys := by
  induction xs generalizing done with
  | nil => exact (pure_bind _ _).symm
  | cons t ts ih =>
    rw [List.cons_append]
    unfold resolveReferences
    rw [bind_assoc]
    exact congrArg _ (funext ih)

omit hP in
theorem keeps_searchFunctions (caller : Caller) (resolutions : List Resolution) (searches : List Search) :
    Effects.Keeps P (searchFunctions R caller resolutions searches) := by
  induction searches with
  | nil => exact Effects.Keeps.ret _
  | cons s rest ih =>
    unfold searchFunctions
    split
    · refine (keeps_describeFor _ _).bind fun schema => (Effects.Keeps.ofExcept _).bind fun udf => ?_
      exact ih.bind fun _ => Effects.Keeps.ret _
    · exact Effects.Keeps.fail _

omit hP in
/-- So does preparing the statement. -/
theorem LooksStable.prepare (hL : LooksStable R P) (sql : String) (caller : Caller) (asOf : AsOf)
    (onViolation : OnReadViolation) : Effects.Keeps P (prepare R sql caller asOf onViolation) := by
  unfold Peql.prepare
  refine (Effects.Keeps.ofExcept _).bind fun _ => (Effects.Keeps.ofExcept _).bind fun expanded =>
    (Effects.Keeps.ofExcept _).bind fun refs => ?_
  refine (hL.resolveReferences _ _ _ _ _).bind fun done => (Effects.Keeps.ofExcept _).bind fun _ => ?_
  refine (keeps_searchFunctions _ _ _).bind fun udfs => (Effects.Keeps.ofExcept _).bind fun _ =>
    (Effects.Keeps.ofExcept _).bind fun _ => ?_
  exact (Effects.Keeps.ofExcept _).bind fun _ => (Effects.Keeps.ofExcept _).bind fun _ => Effects.Keeps.ret _

theorem keeps_prepare (sql : String) (caller : Caller) (asOf : AsOf) (onViolation : OnReadViolation) :
    Effects.Keeps P (prepare R sql caller asOf onViolation) := hP.looks.prepare _ _ _ _

end Peql
