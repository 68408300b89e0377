import Peql.Engine.Invisible
import Peql.Engine.Kept

/-!
# What a refusal names

A call over the data of one contract fails in many ways: what is recorded may not parse, a snapshot may be gone, the
libraries may fail. Of its errors only the refusals are a policy's, and each of them names the contract (`Naming`): the
data calls refuse nothing but a name that is not registered, and the contract's rules refuse under its own name.
-/

namespace Peql

open Effects

/-- The contract an error is about. -/
def PeqlError.contract : PeqlError → Option String
  | .unknownContract n | .denied n _ | .notWritten n | .notServable n _ | .violated n _ | .guaranteeFailed n _
  | .ungated n => some n
  | _ => none

/-- An error that names the contract, if it is a refusal. -/
def Names (name : String) (e : PeqlError) : Prop := e.isRefusal = true → e.contract = some name

/-- A failure names no contract. -/
theorem names_failure {name : String} {e : PeqlError} (h : e.isRefusal = false) : Names name e := by
  intro hrefusal
  rw [h] at hrefusal
  cases hrefusal

/-- An unknown contract's error names it. -/
theorem names_unknown (name : String) : Names name (.unknownContract name) := fun _ => rfl

/-- An outcome whose error is a failure. -/
def Fails {α : Type} (r : Except PeqlError α) : Prop := ∀ e, r = .error e → e.isRefusal = false

/-- What succeeds does not fail with a refusal. -/
theorem fails_ok {α : Type} (a : α) : Fails (.ok a) := by
  rintro e ⟨⟩

theorem fails_error {α : Type} {e : PeqlError} (h : e.isRefusal = false) : Fails (.error e : Except PeqlError α) := by
  rintro _ ⟨⟩
  exact h

/-- What peQL takes from parcel fails with its own errors, which are no refusals. -/
structure Runtime.Plain (R : Runtime) : Prop where
  validate : ∀ c rows, Fails (R.validate c rows)
  verifyPins : ∀ pins, Fails (R.verifyPins pins)
  refusal : ∀ cc caller, Fails (R.refusal cc caller)
  activeShapes : ∀ cc caller, Fails (R.activeShapes cc caller)
  paramValues : ∀ cc caller, Fails (R.paramValues cc caller)

/-- Whatever a call refuses, it names the contract. -/
abbrev Naming {α : Type} (name : String) (x : Ask α) : Prop :=
  Ends (fun _ => True) x (fun _ _ => True) (fun e _ => Names name e)

namespace Naming

variable {name : String} {α β : Type}

theorem ret (a : α) : Naming name (pure a : Ask α) := fun _ _ => trivial

theorem fail {e : PeqlError} (h : Names name e) : Naming name (throw e : Ask α) := fun _ _ => h

theorem bind {x : Ask α} {f : α → Ask β} (hx : Naming name x) (hf : ∀ a, Naming name (f a)) : Naming name (x >>= f) :=
  Ends.bind hx hf

theorem write (f : Node → Node) : Naming name (modify f : Ask PUnit) := fun _ _ => trivial

theorem ofExcept {r : Except PeqlError α} (h : Fails r) : Naming name (Effects.ofExcept r) :=
  Ends.ofExcept (fun _ _ _ _ => trivial) fun e he _ _ => names_failure (h e he)

theorem storage {f : Storage → Except PeqlError α} (h : ∀ s, Fails (f s)) : Naming name (Ask.storage f) :=
  Ends.read fun s _ => (ofExcept (h s.storage)).mono (fun _ _ => trivial) (fun _ _ => id) fun _ _ => id

theorem engine {f : Engine → Except PeqlError α} (h : ∀ e err, f e = .error err → Names name err) :
    Naming name (Ask.engine f) :=
  Ends.read fun s _ => Ends.ofExcept (fun _ _ _ _ => trivial) fun err herr _ _ => h s.engine err herr

end Naming

/-! ## What the engine knows of a contract -/

/-- Getting a contract fails with its name. -/
theorem get_names {e : Engine} {name : String} {err : PeqlError} (h : e.get name = .error err) : Names name err := by
  unfold Engine.get at h
  split at h <;> cases h
  exact names_unknown name

/-- A contract that cannot be seen is unknown. -/
theorem visible_error {e : Engine} {name : String} {caller : Caller} {err : PeqlError}
    (h : e.visible name caller = .error err) : err = .unknownContract name := by
  unfold Engine.visible at h
  split at h
  · split at h <;> cases h
    rfl
  · cases h
    rfl

/-- Where a contract is bound is refused to no one. -/
theorem bound_fails (e : Engine) (r : Registered) : Fails (e.bound r) := by
  unfold Engine.bound
  split
  · exact fails_ok _
  · split
    · exact fails_ok _
    · exact fails_error rfl

theorem naming_get (name : String) : Naming name (Ask.engine fun e => e.get name) := Naming.engine fun _ _ => get_names

theorem naming_visible (name : String) (caller : Caller) : Naming name (Ask.engine fun e => e.visible name caller) :=
  Naming.engine fun _ _ h => visible_error h ▸ names_unknown name

theorem naming_bound (name : String) (r : Registered) : Naming name (Ask.engine fun e => e.bound r) :=
  Naming.engine fun e err h => names_failure (bound_fails e r err h)

/-! ## What is recorded -/

section Recorded

variable {name : String}

/-- A manifest that is not read is a failure. -/
theorem load_fails {φ : Type} (d : Dir φ) (contract : String) : Fails (d.load contract) := by
  unfold Dir.load
  split
  · exact fails_ok _
  · exact fails_error rfl

theorem loadObject_fails {φ : Type} (d : Dir φ) (contract : String) : Fails (d.loadObject contract) := by
  unfold Dir.loadObject
  split
  · exact fails_ok _
  · exact fails_ok _
  · exact fails_error rfl
  · exact fails_ok _

theorem loadFacts_fails (t : IcebergTable) (table : String) (snapshot : Int) (contract : String) :
    Fails (t.loadFacts table snapshot contract) := by
  unfold IcebergTable.loadFacts
  split
  · exact fails_ok _
  · exact fails_ok _
  · exact fails_error rfl
  · split
    · exact fails_ok _
    · exact fails_error rfl

theorem loadWriteFacts_fails (t : IcebergTable) (table : String) (snapshot : TableSnapshot) (contract : String) :
    Fails (t.loadWriteFacts table snapshot contract) := by
  unfold IcebergTable.loadWriteFacts
  split
  · exact fails_ok _
  · split
    · exact fails_ok _
    · exact fails_ok _
    · exact fails_error rfl
    · exact fails_ok _

theorem files_fails (t : TableMetadata) (table : String) (snapshot : Int) : Fails (t.files table snapshot) := by
  unfold TableMetadata.files
  split
  · exact fails_ok _
  · exact fails_error rfl

theorem provider_fails (t : TableMetadata) (table : String) (cc : CompiledContract) (stored : Bool) (snapshot : Int) :
    Fails (t.provider table cc stored snapshot) := by
  unfold TableMetadata.provider
  split
  · exact fails_error rfl
  · split
    · exact fails_error rfl
    · exact fails_ok _

theorem rewritten_fails (cc : CompiledContract) (b w : Manifest) (removed : List String) :
    Fails (rewritten cc b w removed) := by
  unfold rewritten
  dsimp only
  split
  · exact fails_error rfl
  · split
    · exact fails_error rfl
    · exact fails_ok _

/-- Facts that cannot be combined are a failure. -/
theorem afterWrite_fails (sha256 : String → String) (p : Parsers) (c : Compilation) (before : Option Manifest)
    (write : WriteFacts) (writtenAt : Int) (snapshotId : Option Int) :
    Fails (afterWrite sha256 p c before write writtenAt snapshotId) := by
  unfold afterWrite
  dsimp only
  split
  · exact fails_ok _
  split
  · exact fails_ok _
  · exact fails_ok _
  · exact fails_error rfl
  · split <;> exact fails_ok _
  · next b _ =>
    split
    · exact fails_ok _
    · intro e he
      cases hr : rewritten c.contract b write.facts write.removed with
      | ok m =>
        rw [hr] at he
        cases he
      | error e' =>
        rw [hr] at he
        cases he
        exact rewritten_fails _ _ _ _ _ hr

theorem naming_loadTable (table : String) : Naming name (loadTable table) := Naming.storage fun _ => fails_ok _

theorem naming_listFiles (l : Location) : Naming name (listFiles l) := Naming.storage fun _ => fails_ok _

theorem naming_loadLocal (l : Location) (contract : String) : Naming name (loadLocal l contract) :=
  (Naming.write _).bind fun _ => Naming.storage fun _ => load_fails _ _

theorem naming_loadObject (l : Location) (contract : String) : Naming name (loadObject l contract) :=
  (Naming.write _).bind fun _ => Naming.storage fun _ => loadObject_fails _ _

theorem naming_loadFacts (table : String) (snapshot : Int) (contract : String) :
    Naming name (loadFacts table snapshot contract) := by
  refine (Naming.write _).bind fun _ => Naming.storage fun s => ?_
  split
  · exact loadFacts_fails _ _ _ _
  · exact fails_ok _

theorem naming_loadWriteFacts (table : String) (snapshot : TableSnapshot) (contract : String) :
    Naming name (loadWriteFacts table snapshot contract) := by
  have hload : Naming name (Ask.storage fun s =>
      readTable (fun t => t.loadWriteFacts table snapshot contract) (s.tables table)) := by
    refine Naming.storage fun s => ?_
    cases s.tables table with
    | some t => exact loadWriteFacts_fails _ _ _ _
    | none => exact fails_ok _
  unfold loadWriteFacts
  cases snapshot.writeId with
  | none => exact hload
  | some write => exact (Naming.write _).bind fun _ => hload

theorem naming_saveManifest (l : Location) (m : Manifest) : Naming name (saveManifest l m) :=
  (Naming.write _).bind fun _ => Naming.write _

theorem naming_saveFacts (table : String) (m : Manifest) : Naming name (saveFacts table m) := by
  unfold saveFacts
  cases m.snapshotId with
  | none => exact Naming.fail (names_failure rfl)
  | some snapshot => exact (Naming.write _).bind fun _ => Naming.write _

theorem naming_icebergSnapshot (table contract : String) (at_ : Option Int) :
    Naming name (icebergSnapshot table contract at_) := by
  unfold icebergSnapshot
  refine (naming_loadTable table).bind fun t => ?_
  cases t with
  | none => exact Naming.fail (names_failure rfl)
  | some t =>
    cases at_ with
    | some s =>
      dsimp only
      split
      · exact Naming.fail (names_failure rfl)
      · exact Naming.ret _
    | none =>
      dsimp only
      split
      · exact Naming.ret _
      · exact Naming.fail (names_failure rfl)

theorem naming_record (contract : String) (l : Location) (m : Manifest) : Naming name (record contract l m) := by
  unfold record
  cases l with
  | localDir root => exact naming_saveManifest _ _
  | object url => exact (naming_saveManifest _ _).bind fun _ => Naming.write _
  | iceberg table =>
    refine (naming_icebergSnapshot _ _ _).bind fun t => (naming_saveFacts _ _).bind fun _ => ?_
    split
    · exact Naming.write _
    · exact Naming.ret _

/-! ## The facts of a snapshot -/

theorem naming_factsBack (table : String) (t : TableMetadata) (contract : String) (steps : Nat) (at_ : Option Int)
    (writes : List Pending) : Naming name (factsBack table t contract steps at_ writes) := by
  induction steps generalizing at_ writes with
  | zero => cases at_ <;> exact Naming.ret _
  | succ steps ih =>
    cases at_ with
    | none => exact Naming.ret _
    | some s =>
      unfold factsBack
      cases t.snapshotById s with
      | none => exact Naming.ret _
      | some snapshot =>
        refine (naming_loadFacts _ _ _).bind fun m => ?_
        cases m with
        | some m => exact Naming.ret _
        | none =>
          refine (naming_loadWriteFacts _ _ _).bind fun write => ?_
          cases write with
          | none => exact Naming.ret _
          | some write =>
            dsimp only
            cases snapshot.time with
            | none => exact Naming.fail (names_failure rfl)
            | some time =>
              dsimp only
              split
              · exact Naming.ret _
              · exact ih _ _

variable (R : Runtime)

theorem naming_factsForward (table : String) (c : Compilation) (writes : List Pending) (known : Option Manifest) :
    Naming name (factsForward R table c writes known) := by
  induction writes generalizing known with
  | nil => exact Naming.ret _
  | cons w writes ih =>
    unfold factsForward
    refine (Naming.ofExcept (afterWrite_fails _ _ _ _ _ _ _)).bind fun m => ?_
    cases m with
    | none => exact Naming.ret _
    | some m => exact (naming_saveFacts _ _).bind fun _ => ih _

theorem naming_icebergFacts (table : String) (t : TableMetadata) (snapshot : Int) (reg : Registered) :
    Naming name (icebergFacts R table t snapshot reg) := by
  unfold icebergFacts
  refine (naming_factsBack _ _ _ _ _ _).bind fun found => ?_
  cases found with
  | none => exact Naming.ret _
  | some found => exact naming_factsForward R _ _ _ _

theorem naming_manifest (name : String) : Naming name (manifest name) := by
  unfold manifest
  refine (naming_get name).bind fun reg => (naming_bound name reg).bind fun b => ?_
  split
  · exact naming_loadLocal _ _
  all_goals exact (Naming.write _).bind fun _ => Naming.engine fun _ _ h => nomatch h

theorem naming_manifestAsOf (name : String) (snapshot : Int) : Naming name (manifestAsOf R name snapshot) := by
  unfold manifestAsOf
  refine (naming_get name).bind fun reg => (naming_bound name reg).bind fun b => ?_
  split
  · refine (naming_loadTable _).bind fun t => ?_
    cases t with
    | none => exact Naming.fail (names_failure rfl)
    | some t =>
      dsimp only
      split
      · exact Naming.fail (names_failure rfl)
      · exact naming_icebergFacts R _ _ _ _
  · exact Naming.fail (names_failure rfl)

end Recorded

/-! ## A validation -/

section Resolving

variable {R : Runtime} (hR : R.Plain)

include hR

theorem naming_validateRows {name : String} (c : Compilation) (rows : Multiset Row) :
    Naming name (validateRows R c rows) :=
  (Naming.write _).bind fun _ => Naming.ofExcept (hR.validate c rows)

theorem naming_whole {name : String} (contract : String) (c : Compilation) (l : Location) (at_ : Option Int) :
    Naming name (whole R contract c l at_) := by
  have hfiles : Naming name (do
      let files ← listFiles l
      let verdict ← validateRows R c (providedRows c.contract false files)
      let entries := files.map fun f => f.entryFor c.contract
      return (⟨verdict, dataHash R.sha256 entries, none⟩, entries) : Ask (DataVerdict × List FileEntry)) :=
    (naming_listFiles l).bind fun _ => (naming_validateRows hR _ _).bind fun _ => Naming.ret _
  unfold whole
  split
  · refine (naming_icebergSnapshot _ _ _).bind fun t => (Naming.ofExcept (provider_fails _ _ _ _ _)).bind fun _ => ?_
    exact (naming_validateRows hR _ _).bind fun _ => (Naming.ofExcept (files_fails _ _ _)).bind fun _ => Naming.ret _
  all_goals
    split
    · exact Naming.fail (names_failure rfl)
    · exact hfiles

theorem naming_refresh (name : String) (at_ : Option Int) : Naming name (refresh R name at_) := by
  have hnow : Naming name Ask.now := fun _ _ => trivial
  unfold refresh
  refine hnow.bind fun _ => (naming_get name).bind fun reg => (naming_bound name reg).bind fun b => ?_
  cases b with
  | table batches => exact Naming.fail (names_failure rfl)
  | files l =>
    refine (naming_whole hR _ _ _ _).bind fun found => hnow.bind fun _ => ?_
    exact (naming_record _ _ _).bind fun _ => Naming.ret _

/-- Ensuring a contract's manifest fails with its name, or with no contract's. -/
theorem naming_ensureManifest (name : String) : Naming name (ensureManifest R name) := by
  have hrefresh : ∀ at_, Naming name (do
      let _ ← refresh R name at_
      pure () : Ask Unit) := fun at_ => (naming_refresh hR name at_).bind fun _ => Naming.ret _
  unfold ensureManifest
  refine (naming_get name).bind fun reg => (naming_bound name reg).bind fun b => ?_
  split
  · exact Naming.ret _
  · refine (naming_loadLocal _ _).bind fun known => (naming_listFiles _).bind fun files => ?_
    split
    · exact Naming.ret _
    · exact hrefresh _
  · refine (naming_loadObject _ _).bind fun known => ?_
    cases known with
    | some m => exact Naming.write _
    | none =>
      refine (naming_listFiles _).bind fun files => ?_
      split
      · exact Naming.ret _
      · exact hrefresh _
  · refine (naming_loadTable _).bind fun t => ?_
    split
    · exact Naming.write _
    · refine (naming_icebergFacts R _ _ _ _).bind fun known => ?_
      cases known with
      | some m => exact Naming.write _
      | none => exact hrefresh _

theorem naming_ensureManifestAsOf (name : String) (snapshot : Int) :
    Naming name (ensureManifestAsOf R name snapshot) := by
  unfold ensureManifestAsOf
  refine (naming_manifestAsOf R _ _).bind fun known => ?_
  cases known with
  | some m => exact Naming.ret _
  | none => exact (naming_refresh hR _ _).bind fun _ => Naming.ret _

/-! ## Resolving -/

omit hR in
/-- A guarantee that does not hold is refused under the contract's name. -/
theorem holds_names {name : String} {c : Compilation} {caller : Caller} {m : Manifest} {g : GuaranteeRule}
    {e : PeqlError} (h : holds R c caller m g = .error e) : Names name e := by
  unfold holds at h
  split at h
  · cases h
  split at h
  · cases h
  split at h <;> cases h
  exact names_failure rfl

omit hR in
/-- So are its guarantees one after another. -/
theorem annotations_names {c : Compilation} {caller : Caller} {m : Manifest} {gs : List GuaranteeRule} {e : PeqlError}
    (h : annotations R c caller m gs = .error e) : Names c.contract.name e := by
  induction gs generalizing e with
  | nil => cases h
  | cons g gs ih =>
    unfold annotations at h
    cases hholds : holds R c caller m g with
    | error e' =>
      rw [hholds] at h
      cases h
      exact holds_names hholds
    | ok b =>
      rw [hholds] at h
      cases b with
      | true => exact ih h
      | false =>
        cases hon : g.onFail with
        | deny =>
          simp only [hon] at h
          cases h
          exact fun _ => rfl
        | annotate =>
          simp only [hon] at h
          cases hrest : annotations R c caller m gs with
          | error e' =>
            rw [hrest] at h
            cases h
            exact ih hrest
          | ok rest =>
            rw [hrest] at h
            cases h

/-- A contract that is refused is refused under its name. -/
theorem resolution_names {e : Engine} {reg : Registered} {caller : Caller} {onViolation : OnReadViolation}
    {m : Manifest}
    {err : PeqlError} (h : resolution R e reg caller onViolation m = .error err) : Names reg.name err := by
  unfold resolution at h
  dsimp only at h
  split at h
  · cases h
    exact fun _ => rfl
  split at h
  · cases h
    exact fun _ => rfl
  cases hnotes : annotations R reg.compilation caller m reg.compilation.contract.guarantees with
  | error e' =>
    rw [hnotes] at h
    cases h
    exact annotations_names hnotes
  | ok notes =>
    rw [hnotes] at h
    cases hshapes : R.activeShapes reg.compilation.contract caller with
    | error e' =>
      rw [hshapes] at h
      cases h
      exact names_failure (hR.activeShapes _ _ _ hshapes)
    | ok shapes =>
      rw [hshapes] at h
      cases hbound : e.bound reg with
      | error e' =>
        rw [hbound] at h
        cases h
        exact names_failure (bound_fails e reg _ hbound)
      | ok b =>
        rw [hbound] at h
        cases h

/-- Resolving a contract refuses under its name. -/
theorem naming_resolveWith (name : String) (caller : Caller) (onViolation : OnReadViolation)
    {manifest : Ask (Option Manifest)} (h : Naming name manifest) :
    Naming name (resolveWith R name caller onViolation manifest) := by
  unfold resolveWith
  -- A contract that is visible under a name has that name.
  refine Ends.bind (Q := fun reg _ => reg.name = name) ?_ fun reg => ?_
  · refine Ends.read fun s _ => Ends.ofExcept (fun reg hreg _ _ => visible_name hreg) fun e he _ _ => ?_
    exact visible_error he ▸ names_unknown name
  by_cases hname : reg.name = name
  · subst hname
    refine Ends.mono (P := fun _ => True) ?_ (fun _ _ => trivial) (fun _ _ => id) fun _ _ => id
    refine (Naming.ofExcept (hR.verifyPins _)).bind fun _ => (Naming.ofExcept (hR.refusal _ _)).bind fun rule => ?_
    cases rule with
    | some rule => exact Naming.fail fun _ => rfl
    | none =>
      refine h.bind fun m => ?_
      cases m with
      | none => exact Naming.fail (names_failure rfl)
      | some m => exact (Naming.engine fun e err herr => resolution_names hR herr).bind fun _ => Naming.ret _
  · exact fun _ hn => absurd hn hname

theorem naming_resolveAt (name : String) (caller : Caller) (onViolation : OnReadViolation) (snapshot : Option Int) :
    Naming name (resolveAt R name caller onViolation snapshot) := by
  unfold resolveAt
  cases snapshot with
  | none =>
    exact (naming_ensureManifest hR _).bind fun _ => naming_resolveWith hR _ _ _ (naming_manifest name)
  | some s => exact (naming_ensureManifestAsOf hR _ _).bind fun _ => naming_resolveWith hR _ _ _ (Naming.ret _)

theorem naming_contractViewFor (name : String) (caller : Caller) (resolution : Resolution) :
    Naming name (contractViewFor R name caller resolution) := by
  unfold contractViewFor
  refine (naming_visible _ _).bind fun reg => Naming.bind ?_ fun _ => ?_
  · unfold viewedRows
    refine (naming_bound name reg).bind fun b => ?_
    split
    · exact Naming.ret _
    · exact (naming_icebergSnapshot _ _ _).bind fun _ => Naming.ofExcept (provider_fails _ _ _ _ _)
    · exact (naming_listFiles _).bind fun _ => Naming.ret _
  · exact (Naming.ofExcept (hR.paramValues _ _)).bind fun _ => Naming.ret _

end Resolving

end Peql
