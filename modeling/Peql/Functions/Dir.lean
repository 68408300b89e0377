import Peql.Functions.Register

/-!
# The function store on disk

Under `_peql/functions` a directory for each owner holds, for each of its functions, the module and a record of what it
was registered as. Registering writes the one and then the other, in place; adopting a bundle's functions writes
nothing. Opening installs every module that has a record again, and fails at the first that does not match its record.
What a record holds is given as what reading it finds.
-/

namespace Peql

/-- What a function was registered as. -/
structure StoredFunction where
  owner : String
  manifest : FunctionManifest
  hash : String
deriving DecidableEq

/-- `<name>.json`, as reading it finds it: half of a file is an error. -/
inductive RecordFile
  | holds (stored : StoredFunction)
  | torn (e : PeqlError)
deriving DecidableEq

/-- The files of the store, by the function's owner and name: `<owner>/<name>.wasm` and `<owner>/<name>.json`. -/
structure FunctionDir where
  modules : Lookup (String × String) (List UInt8)
  records : Lookup (String × String) RecordFile

/-- Names that are names of files: joined to a directory they lead to a file of their own in it. -/
def FileName (s : String) : Prop := s ≠ "" ∧ s ≠ "." ∧ s ≠ ".." ∧ '/' ∉ s.toList

instance (s : String) : Decidable (FileName s) := inferInstanceAs (Decidable (_ ∧ _ ∧ _ ∧ _))

/-- How the files of a registration were written. A file is not touched before it is opened, and holds some first bytes
of what was to be written after that. -/
inductive RegisterWrite
  | done
  /-- The directory or the module's file was not opened. -/
  | kept (e : PeqlError)
  | cutModule (e : PeqlError) (bytes : Nat)
  /-- The record's file was not opened. -/
  | unrecorded (e : PeqlError)
  | cutRecord (e cause : PeqlError)

namespace RegisterWrite

def error : RegisterWrite → Option PeqlError
  | done => none
  | kept e | cutModule e _ | unrecorded e | cutRecord e _ => some e

end RegisterWrite

namespace FunctionDir

def empty : FunctionDir := ⟨.empty, .empty⟩

/-- The files a registration leaves. -/
def write (d : FunctionDir) (f : String × String) (module : List UInt8) (stored : StoredFunction) :
    RegisterWrite → FunctionDir
  | .done => ⟨d.modules.insert f module, d.records.insert f (.holds stored)⟩
  | .kept _ => d
  | .cutModule _ bytes => { d with modules := d.modules.insert f (module.take bytes) }
  | .unrecorded _ => { d with modules := d.modules.insert f module }
  | .cutRecord _ cause => ⟨d.modules.insert f module, d.records.insert f (.torn cause)⟩

/-- The records, in some order `read_dir` may list them in. -/
structure Lists (d : FunctionDir) (listing : List (String × String)) : Prop where
  nodup : listing.Nodup
  mem_iff : ∀ f, f ∈ listing ↔ d.records f ≠ none

end FunctionDir

section Calls

variable (K : FunctionKernel) (builtin : Lookup String FunctionEntry) (root : String)

/-- `FunctionStore::load`. -/
def FunctionStore.load (s : FunctionStore) (module : List UInt8) (manifest : FunctionManifest) (owner : String) :
    Except PeqlError (FunctionEntry × FunctionStore) :=
  match s.taken manifest.name owner with
  | some existing => .error (.invalid s!"`{manifest.name}` is already registered by `{existing.owner}`")
  | none =>
    match K.install module manifest owner with
    | .error e => .error e
    | .ok entry => .ok (entry, s.add entry ⟨owner, manifest, K.hexEncode module⟩)

/-- `FunctionStore::in_memory`. -/
def FunctionStore.inMemory : FunctionStore := ⟨builtin, []⟩

/-- Opening comes to a record. -/
def openRecord (d : FunctionDir) (s : FunctionStore) (f : String × String) : Except PeqlError FunctionStore :=
  match d.records f with
  | none => .ok s
  | some (.torn e) => .error e
  | some (.holds stored) =>
    match d.modules f with
    | none => .error (.io "No such file or directory (os error 2)")
    | some module =>
      match s.load K module stored.manifest stored.owner with
      | .error e => .error e
      | .ok (entry, s') =>
        if entry.hash ≠ stored.hash then
          .error (.invalid
            s!"{root}/_peql/functions/{f.1}/{f.2}.json: the stored module no longer matches its hash")
        else .ok s'

/-- `FunctionStore::open`, where `read_dir` lists the records as `listing`. -/
def openFunctions (d : FunctionDir) (listing : List (String × String)) : Except PeqlError FunctionStore :=
  listing.foldlM (openRecord K root d) (.inMemory builtin)

/-- `FunctionStore::register`, on a store with a directory. -/
def FunctionStore.register (s : FunctionStore) (d : FunctionDir) (module : List UInt8) (manifest : FunctionManifest)
    (owner : String) (written : RegisterWrite) : Except PeqlError FunctionEntry × FunctionStore × FunctionDir :=
  match s.load K module manifest owner with
  | .error e => (.error e, s, d)
  | .ok (entry, s') =>
    let d' := d.write (owner, manifest.name) module ⟨owner, manifest, entry.hash⟩ written
    match written.error with
    | some e => (.error e, s', d')
    | none => (.ok entry, s', d')

end Calls

/-! ## Loading -/

section Load

variable {K : FunctionKernel}

/-- It is what adopting a bundle does with each function. -/
theorem loadFunction_eq (module : List UInt8) (manifest : FunctionManifest) (owner : String) (r : Registrar) :
    (∀ e, r.functions.load K module manifest owner = .error e →
        loadFunction K module manifest owner r = .error e r) ∧
      ∀ entry s, r.functions.load K module manifest owner = .ok (entry, s) →
        loadFunction K module manifest owner r = .ok entry { r with functions := s } := by
  unfold loadFunction FunctionStore.load
  simp only [Effects.bind_apply, Effects.get_apply]
  cases r.functions.taken manifest.name owner with
  | some existing => exact ⟨fun _ h => (by cases h; rfl), fun _ _ h => (by cases h)⟩
  | none =>
    cases K.install module manifest owner with
    | error e => exact ⟨fun _ h => (by cases h; rfl), fun _ _ h => (by cases h)⟩
    | ok entry => exact ⟨fun _ h => (by cases h), fun _ _ h => (by cases h; rfl)⟩

/-- A function loads when no other owner has its name and it installs. -/
theorem load_eq_ok {s t : FunctionStore} {module : List UInt8} {manifest : FunctionManifest} {owner : String}
    {entry : FunctionEntry} :
    s.load K module manifest owner = .ok (entry, t) ↔
      s.taken manifest.name owner = none ∧ K.install module manifest owner = .ok entry ∧
        t = s.add entry ⟨owner, manifest, K.hexEncode module⟩ := by
  unfold FunctionStore.load
  cases s.taken manifest.name owner with
  | some existing => simp
  | none =>
    cases K.install module manifest owner with
    | error e => simp
    | ok found =>
      simp only [Except.ok.injEq, Prod.mk.injEq, true_and]
      constructor
      · rintro ⟨rfl, rfl⟩
        exact ⟨rfl, rfl⟩
      · rintro ⟨rfl, rfl⟩
        exact ⟨rfl, rfl⟩

/-- A record is opened when there is none, or when its module is there, loads, and has its hash. -/
theorem openRecord_eq_ok {root : String} {d : FunctionDir} {s t : FunctionStore} {f : String × String} :
    openRecord K root d s f = .ok t ↔
      d.records f = none ∧ t = s ∨
        ∃ stored module entry, d.records f = some (.holds stored) ∧ d.modules f = some module ∧
          s.load K module stored.manifest stored.owner = .ok (entry, t) ∧ entry.hash = stored.hash := by
  unfold openRecord
  cases hrecord : d.records f with
  | none => simp [eq_comm]
  | some file =>
    cases file with
    | torn e => simp
    | holds stored =>
      cases hmodule : d.modules f with
      | none => simp
      | some module =>
        cases hload : s.load K module stored.manifest stored.owner with
        | error e => simp [hload]
        | ok p =>
          obtain ⟨entry, s'⟩ := p
          by_cases hhash : entry.hash = stored.hash
          · simp [hload, hhash]
          · simp [hload, hhash]

end Load

end Peql
