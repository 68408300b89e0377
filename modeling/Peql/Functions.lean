import Peql.Lib.Effects
import Peql.Lib.Lookup
import Peql.Store.Dir

/-!
# The function store, and registration of compiled contracts

`FunctionStore` holds the entries of parcel's registry and the modules bundles carry. A function that loads replaces its
owner's function of that name in both. `Engine::register_compiled` adopts a bundle's functions one by one, then reads
the compiled contract, then puts it in the contract store.
-/

namespace Peql

/-- A function's manifest: its name, and what else it declares, as written. -/
structure FunctionManifest where
  name : String
  declared : String
deriving DecidableEq

/-- A function as parcel's registry holds it. -/
structure FunctionEntry where
  name : String
  owner : String
  hash : String
deriving DecidableEq

/-- A function as a bundle carries it, its module in hexadecimal. -/
structure BundledFunction where
  owner : String
  manifest : FunctionManifest
  module : String
deriving DecidableEq

/-- What registration takes from parcel and the libraries. -/
structure FunctionKernel where
  hexDecode : String → Except String (List UInt8)
  hexEncode : List UInt8 → String
  /-- `wasm::install`. -/
  install : List UInt8 → FunctionManifest → String → Except PeqlError FunctionEntry
  /-- `Compilation::from_bytes`. -/
  fromBytes : List UInt8 → Except String Compilation

/-- An installed function has the name and the owner it was installed under. -/
def FunctionKernel.Installs (K : FunctionKernel) : Prop :=
  ∀ module manifest owner entry, K.install module manifest owner = .ok entry →
    entry.name = manifest.name ∧ entry.owner = owner

/-- `FunctionStore`; of parcel's registry, the entry found under each name. -/
structure FunctionStore where
  registry : Lookup String FunctionEntry
  modules : List BundledFunction

namespace FunctionStore

/-- The entry a name is taken by, when another owner has it. -/
def taken (s : FunctionStore) (name owner : String) : Option FunctionEntry :=
  (s.registry name).filter fun existing => existing.owner ≠ owner

/-- A function is registered, over its owner's function of that name. -/
def add (s : FunctionStore) (entry : FunctionEntry) (bundle : BundledFunction) : FunctionStore where
  registry := s.registry.insert entry.name entry
  modules := (s.modules.filter fun m => ¬ (m.owner = bundle.owner ∧ m.manifest.name = bundle.manifest.name)) ++ [bundle]

end FunctionStore

/-- The contract stores: in memory, and on disk. -/
inductive ContractStore
  | memory (contents : Contents)
  | dir (store : DirStore)

/-- `ContractStore::put`; `fault` is the error writing a bundle meets, if any. -/
def ContractStore.put (r : Registered) (fault : Option PeqlError) :
    ContractStore → ContractStore × Except PeqlError Unit
  | .memory contents => (.memory (contents.put r), .ok ())
  | .dir store => ((store.put r fault).map .dir id)

/-- What a registration reads and writes of an engine. -/
structure Registrar where
  functions : FunctionStore
  store : ContractStore

section Calls

variable (K : FunctionKernel)

/-- `FunctionStore::load`. -/
def loadFunction (module : List UInt8) (manifest : FunctionManifest) (owner : String) :
    EStateM PeqlError Registrar FunctionEntry := do
  let s ← MonadState.get
  match s.functions.taken manifest.name owner with
  | some existing => throw (.invalid s!"`{manifest.name}` is already registered by `{existing.owner}`")
  | none => do
    let entry ← Effects.ofExcept (K.install module manifest owner)
    modify fun s => { s with functions := s.functions.add entry ⟨owner, manifest, K.hexEncode module⟩ }
    return entry

/-- `FunctionStore::adopt`. -/
def adopt : List BundledFunction → EStateM PeqlError Registrar Unit
  | [] => pure ()
  | f :: fs => do
    let module ← Effects.ofExcept ((K.hexDecode f.module).mapError .invalid)
    let _ ← loadFunction K module f.manifest f.owner
    adopt fs

/-- `Registered::from_compiled`, for a document of a contract of that name. -/
def Registered.fromCompiled (document : String) (compiled : List UInt8) : Except PeqlError Registered := do
  let compilation ← (K.fromBytes compiled).mapError .invalid
  if compilation.contract.name ≠ document then
    .error (.invalid s!"the compiled contract is `{compilation.contract.name}`; its document is `{document}`")
  else return ⟨compilation⟩

/-- The store is given a contract. -/
def putContract (r : Registered) (fault : Option PeqlError) : EStateM PeqlError Registrar Unit := do
  let s ← MonadState.get
  let (store, put) := s.store.put r fault
  MonadState.set { s with store := store }
  Effects.ofExcept put

/-- `Engine::register_compiled`. -/
def registerCompiled (document : String) (compiled : List UInt8) (functions : List BundledFunction)
    (fault : Option PeqlError) : EStateM PeqlError Registrar Registered := do
  adopt K functions
  let reg ← Effects.ofExcept (Registered.fromCompiled K document compiled)
  putContract reg fault
  return reg

end Calls

/-! ## What one function does -/

section Lemmas

variable {K : FunctionKernel}

/-- A function, installed: its entry, and the bundle that carries it. -/
def FunctionKernel.installed (K : FunctionKernel) (f : BundledFunction) :
    Except PeqlError (FunctionEntry × BundledFunction) := do
  let module ← (K.hexDecode f.module).mapError PeqlError.invalid
  let entry ← K.install module f.manifest f.owner
  return (entry, ⟨f.owner, f.manifest, K.hexEncode module⟩)

/-- A function loads into a store. -/
def Loads (K : FunctionKernel) (s : FunctionStore) (f : BundledFunction) (e : FunctionEntry)
    (b : BundledFunction) : Prop :=
  K.installed f = .ok (e, b) ∧ s.taken f.manifest.name f.owner = none

theorem installed_eq_ok {f : BundledFunction} {e : FunctionEntry} {b : BundledFunction}
    (h : K.installed f = .ok (e, b)) :
    ∃ module, K.hexDecode f.module = .ok module ∧ K.install module f.manifest f.owner = .ok e ∧
      b = ⟨f.owner, f.manifest, K.hexEncode module⟩ := by
  unfold FunctionKernel.installed at h
  obtain ⟨module, hmodule, h⟩ := bind_eq_ok.1 h
  obtain ⟨entry, hentry, h⟩ := bind_eq_ok.1 h
  cases h
  refine ⟨module, ?_, hentry, rfl⟩
  cases hdecode : K.hexDecode f.module with
  | error e =>
    rw [hdecode] at hmodule
    cases hmodule
  | ok bytes =>
    rw [hdecode] at hmodule
    cases hmodule
    rfl

/-- The first function of a list loads, and the others are adopted after it, or it fails with nothing changed. -/
theorem adopt_cons (f : BundledFunction) (fs : List BundledFunction) (s : Registrar) :
    (∃ e b, Loads K s.functions f e b ∧ adopt K (f :: fs) s = adopt K fs { s with functions := s.functions.add e b }) ∨
      (∀ e b, ¬ Loads K s.functions f e b) ∧ ∃ err, adopt K (f :: fs) s = .error err s := by
  rw [show adopt K (f :: fs) = (do
    let module ← Effects.ofExcept ((K.hexDecode f.module).mapError .invalid)
    let _ ← loadFunction K module f.manifest f.owner
    adopt K fs) from rfl]
  cases hdecode : K.hexDecode f.module with
  | error cause =>
    right
    refine ⟨fun e b hloads => ?_, .invalid cause, rfl⟩
    obtain ⟨module, hmodule, -⟩ := installed_eq_ok hloads.1
    rw [hdecode] at hmodule
    cases hmodule
  | ok module =>
    show (∃ e b, _ ∧ (loadFunction K module f.manifest f.owner >>= fun _ => adopt K fs) s = _) ∨
      _ ∧ ∃ err, (loadFunction K module f.manifest f.owner >>= fun _ => adopt K fs) s = .error err s
    unfold loadFunction
    cases htaken : s.functions.taken f.manifest.name f.owner with
    | some existing =>
      right
      refine ⟨fun e b hloads => ?_, ?_⟩
      · rw [hloads.2] at htaken
        cases htaken
      · refine ⟨.invalid s!"`{f.manifest.name}` is already registered by `{existing.owner}`", ?_⟩
        simp only [Effects.bind_apply, Effects.get_apply, htaken]
        rfl
    | none =>
      cases hinstall : K.install module f.manifest f.owner with
      | error err =>
        right
        refine ⟨fun e b hloads => ?_, err, ?_⟩
        · obtain ⟨module', hmodule', hentry, -⟩ := installed_eq_ok hloads.1
          obtain rfl : module = module' := Except.ok.inj (hdecode.symm.trans hmodule')
          cases hinstall.symm.trans hentry
        · simp only [Effects.bind_apply, Effects.get_apply, htaken]
          rfl
      | ok entry =>
        left
        refine ⟨entry, ⟨f.owner, f.manifest, K.hexEncode module⟩, ⟨?_, htaken⟩, ?_⟩
        · unfold FunctionKernel.installed
          rw [hdecode]
          show (K.install module f.manifest f.owner >>= fun _ => _) = _
          rw [hinstall]
          rfl
        · simp only [Effects.bind_apply, Effects.get_apply, htaken]
          rfl

/-- A contract store that refuses a contract is as it was. -/
theorem put_refused {s : ContractStore} {r : Registered} {fault : Option PeqlError} {e : PeqlError}
    (h : (s.put r fault).2 = .error e) : (s.put r fault).1 = s := by
  cases s with
  | memory contents => cases h
  | dir store =>
    cases fault with
    | none => cases h
    | some e => rfl

end Lemmas

end Peql
