import Peql.Functions.Reopened

/-!
# What a contract's bundle carries

A contract compiled against a store's functions is pinned to some of them, and `FunctionStore::modules_for` picks their
modules for its bundle. However the store came by its functions (registered, adopted, found when it was opened), the
bundle holds a module for every tenant's function the contract pins, and each installs as what is pinned. So the bundle
registers wherever no other owner has one of the names, and what is registered there under each of them is what is
pinned (`bundle_portable`).
-/

namespace Peql

open Runs

/-- `FunctionStore::modules_for`. -/
def FunctionStore.modulesFor (isBuiltin : FunctionEntry → Bool) (s : FunctionStore) (pins : List (String × String)) :
    List BundledFunction :=
  pins.filterMap fun pin => do
    let e ← (s.registry pin.1).filter fun e => e.hash = pin.2 ∧ isBuiltin e = false
    s.modules.find? fun m => m.owner = e.owner ∧ m.manifest.name = e.name

/-- A module that installs is decoded from what it is encoded to. -/
def FunctionKernel.Encodes (K : FunctionKernel) : Prop :=
  ∀ module manifest owner entry, K.install module manifest owner = .ok entry →
    K.hexDecode (K.hexEncode module) = .ok module

/-- Stores as loading functions makes them. -/
inductive Assembled (K : FunctionKernel) (builtin : Lookup String FunctionEntry) : FunctionStore → Prop
  | new : Assembled K builtin (.inMemory builtin)
  | add {s : FunctionStore} {f : BundledFunction} {e : FunctionEntry} {b : BundledFunction} :
      Assembled K builtin s → Loads K s f e b → Assembled K builtin (s.add e b)

variable {K : FunctionKernel} {builtin : Lookup String FunctionEntry} {root : String}

/-! ## The stores of a run -/

theorem Assembled.load (hX : K.Encodes) {s t : FunctionStore} (h : Assembled K builtin s) {module : List UInt8}
    {manifest : FunctionManifest} {owner : String} {entry : FunctionEntry}
    (hload : s.load K module manifest owner = .ok (entry, t)) : Assembled K builtin t := by
  obtain ⟨hfree, hinstall, rfl⟩ := load_eq_ok.1 hload
  refine h.add (f := ⟨owner, manifest, K.hexEncode module⟩) ⟨?_, hfree⟩
  unfold FunctionKernel.installed
  rw [hX _ _ _ _ hinstall]
  show (K.install module manifest owner >>= fun _ => _) = _
  rw [hinstall]
  rfl

theorem Assembled.adopt (fs : List BundledFunction) {r : Registrar} (h : Assembled K builtin r.functions) :
    Assembled K builtin (Effects.final (Peql.adopt K fs) r).functions := by
  induction fs generalizing r with
  | nil => exact h
  | cons f fs ih =>
    unfold Effects.final at ih ⊢
    rcases adopt_cons (K := K) f fs r with ⟨e, b, hloads, heq⟩ | ⟨-, err, heq⟩
    · rw [heq]
      exact ih (h.add hloads)
    · rw [heq]
      exact h

theorem Assembled.opened (hX : K.Encodes) {d : FunctionDir} {listing : List (String × String)} {s t : FunctionStore}
    (h : Assembled K builtin s) (ho : listing.foldlM (openRecord K root d) s = .ok t) : Assembled K builtin t := by
  induction listing generalizing s with
  | nil =>
    obtain rfl := Except.ok.inj ho
    exact h
  | cons f fs ih =>
    rw [List.foldlM_cons] at ho
    obtain ⟨u, hu, ho⟩ := bind_eq_ok.1 ho
    refine ih ?_ ho
    rcases openRecord_eq_ok.1 hu with ⟨-, rfl⟩ | ⟨stored, module, entry, -, -, hload, -⟩
    · exact h
    · exact h.load hX hload

/-- In every run, a store that is open is made by loading. -/
theorem Assembled.run (hX : K.Encodes) {as : List FunctionAction} {φ : FunctionFiles}
    (hrun : Run (Works K builtin root) .new as φ) {s : FunctionStore} (hs : φ.store = some s) :
    Assembled K builtin s := by
  have hall : ∀ φ a ψ, (∀ s, FunctionFiles.store φ = some s → Assembled K builtin s) → Works K builtin root φ a ψ →
      ∀ s, ψ.store = some s → Assembled K builtin s := by
    intro φ a ψ hφ hstep t ht
    cases hstep with
    | registered hs _ _ hregister | failed hs _ _ hregister =>
      obtain rfl := Option.some.inj ht
      rcases register_cases hregister with ⟨-, -, rfl, -⟩ | ⟨entry, hload, -⟩
      · exact hφ _ hs
      · exact (hφ _ hs).load hX hload
    | adopts hs hr =>
      obtain rfl := Option.some.inj ht
      subst hr
      exact (hφ _ hs).adopt _
    | @opens listing _ =>
      have ho : openFunctions K builtin root φ.dir listing = .ok t := by
        cases ho : openFunctions K builtin root φ.dir listing with
        | error e =>
          rw [ho] at ht
          cases ht
        | ok u =>
          rw [ho] at ht
          rw [Option.some.inj ht]
      exact Assembled.new.opened hX ho
  exact hrun.inv hall (fun _ h => (by cases h)) s hs

/-! ## Functions with their modules -/

/-- Every tenant's function of a store has its module there, and no two modules are of one function. -/
structure Stocked (K : FunctionKernel) (isBuiltin : FunctionEntry → Bool) (s : FunctionStore) : Prop where
  carried : ∀ name e, s.registry name = some e → e.name = name ∧
    (isBuiltin e = false → ∃ b ∈ s.modules, b.owner = e.owner ∧ b.manifest.name = e.name ∧ K.installed b = .ok (e, b))
  apart : (s.modules.map fun b => (b.owner, b.manifest.name)).Nodup

/-- The built-in functions are told by their entries, under their names. -/
def Builtins (isBuiltin : FunctionEntry → Bool) (builtin : Lookup String FunctionEntry) : Prop :=
  ∀ name e, builtin name = some e → e.name = name ∧ isBuiltin e = true

variable {isBuiltin : FunctionEntry → Bool}

/-- The bundle a function is carried in installs as the function did. -/
theorem installed_again (hX : K.Encodes) {f b : BundledFunction} {e : FunctionEntry} (h : K.installed f = .ok (e, b)) :
    K.installed b = .ok (e, b) := by
  obtain ⟨module, -, hinstall, rfl⟩ := installed_eq_ok h
  unfold FunctionKernel.installed
  rw [hX _ _ _ _ hinstall]
  show (K.install module f.manifest f.owner >>= fun _ => _) = _
  rw [hinstall]
  rfl

theorem Assembled.stocked (hK : K.Installs) (hX : K.Encodes) (hB : Builtins isBuiltin builtin) {s : FunctionStore}
    (h : Assembled K builtin s) : Stocked K isBuiltin s := by
  induction h with
  | new =>
    refine ⟨fun name e he => ⟨(hB name e he).1, fun hbuiltin => ?_⟩, List.nodup_nil⟩
    rw [(hB name e he).2] at hbuiltin
    cases hbuiltin
  | @add s f e b _ hloads ih =>
    obtain ⟨hname, howner⟩ := entry_same hK hloads.1
    obtain ⟨howner', hname'⟩ := bundle_same hloads.1
    have hmem : ∀ c, c ∈ (s.add e b).modules ↔ c ∈ s.modules ∧ ¬ SameFunction c b ∨ c = b := by
      intro c
      simp [FunctionStore.add, SameFunction, imp_iff_not_or]
    refine ⟨fun name e' he' => ?_, ?_⟩
    · rw [add_registry] at he'
      split at he'
      · next hnew =>
        obtain rfl := Option.some.inj he'
        refine ⟨hnew.symm, fun _ => ⟨b, (hmem b).2 (.inr rfl), howner'.trans howner.symm, hname'.trans hname.symm, ?_⟩⟩
        exact installed_again hX hloads.1
      · next hold =>
        obtain ⟨rfl, hcarried⟩ := ih.carried name e' he'
        refine ⟨rfl, fun hbuiltin => ?_⟩
        obtain ⟨c, hc, hco, hcn, hinstalled⟩ := hcarried hbuiltin
        refine ⟨c, (hmem c).2 (.inl ⟨hc, fun hsame => hold ?_⟩), hco, hcn, hinstalled⟩
        rw [← hcn, hsame.2, hname', hname]
    · unfold FunctionStore.add
      rw [List.map_append, List.nodup_append]
      refine ⟨(List.Sublist.map _ List.filter_sublist).nodup ih.apart, List.nodup_singleton _, ?_⟩
      intro f' hf' g' hg' heq
      obtain ⟨c, hc, rfl⟩ := List.mem_map.1 hf'
      obtain rfl := List.mem_singleton.1 hg'
      have hother := (List.mem_filter.1 hc).2
      exact of_decide_eq_true hother (Prod.mk.inj heq)

/-- What is picked for a bundle. -/
theorem mem_modulesFor {s : FunctionStore} (h : Stocked K isBuiltin s) {pins : List (String × String)}
    {f : BundledFunction} (hf : f ∈ s.modulesFor isBuiltin pins) :
    ∃ pin ∈ pins, ∃ e, s.registry pin.1 = some e ∧ isBuiltin e = false ∧ f.owner = e.owner ∧
      f.manifest.name = pin.1 ∧ K.installed f = .ok (e, f) := by
  obtain ⟨pin, hpin, hpick⟩ := List.mem_filterMap.1 hf
  obtain ⟨e, he, hfind⟩ := Option.bind_eq_some_iff.1 hpick
  obtain ⟨he, hkept⟩ := Option.filter_eq_some_iff.1 he
  obtain ⟨-, hbuiltin⟩ := of_decide_eq_true hkept
  obtain ⟨hname, hcarried⟩ := h.carried _ _ he
  obtain ⟨b, hb, howner, hbname, hinstalled⟩ := hcarried hbuiltin
  obtain ⟨hfo, hfn⟩ : f.owner = e.owner ∧ f.manifest.name = e.name := by simpa using List.find?_some hfind
  -- Of one function there is one module.
  have hsame : f = b := by
    refine List.inj_on_of_nodup_map h.apart (List.mem_of_find?_eq_some hfind) hb ?_
    rw [hfo, hfn, howner, hbname]
  subst hsame
  exact ⟨pin, hpin, e, he, hbuiltin, hfo, hfn.trans hname, hinstalled⟩

/-- Every tenant's function that is pinned is picked. -/
theorem modulesFor_of_pin {s : FunctionStore} (h : Stocked K isBuiltin s) {pins : List (String × String)}
    {pin : String × String} (hpin : pin ∈ pins) {e : FunctionEntry} (he : s.registry pin.1 = some e)
    (hhash : e.hash = pin.2) (hbuiltin : isBuiltin e = false) :
    ∃ f ∈ s.modulesFor isBuiltin pins, f.manifest.name = pin.1 := by
  obtain ⟨hname, hcarried⟩ := h.carried _ _ he
  obtain ⟨b, hb, howner, hbname, -⟩ := hcarried hbuiltin
  have hfound : (s.modules.find? fun m => m.owner = e.owner ∧ m.manifest.name = e.name).isSome :=
    List.find?_isSome.2 ⟨b, hb, decide_eq_true ⟨howner, hbname⟩⟩
  obtain ⟨f, hf⟩ := Option.isSome_iff_exists.1 hfound
  refine ⟨f, List.mem_filterMap.2 ⟨pin, hpin, Option.bind_eq_some_iff.2 ⟨e, ?_, hf⟩⟩, ?_⟩
  · exact Option.filter_eq_some_iff.2 ⟨he, decide_eq_true ⟨hhash, hbuiltin⟩⟩
  · have hpicked : f.owner = e.owner ∧ f.manifest.name = e.name := by simpa using List.find?_some hf
    exact hpicked.2.trans hname

/-! ## Registered elsewhere -/

/-- Reading and storing a contract does nothing to the functions. -/
theorem functions_of_put {document : String} {compiled : List UInt8} {fault : Option PeqlError} {r t : Registrar}
    {reg : Registered} (h : (do
      let reg ← Effects.ofExcept (Registered.fromCompiled K document compiled)
      putContract reg fault
      return reg : EStateM PeqlError Registrar Registered) r = .ok reg t) : t.functions = r.functions := by
  obtain ⟨reg', u, hread, hrest⟩ := Effects.bind_eq_ok.1 h
  obtain ⟨-, rfl⟩ := Effects.ofExcept_eq_ok.1 hread
  obtain ⟨_, v, hput, hrest⟩ := Effects.bind_eq_ok.1 hrest
  cases hrest
  unfold putContract at hput
  simp only [Effects.bind_apply, Effects.get_apply] at hput
  cases hstore : u.store.put reg fault with
  | mk store out =>
    rw [hstore] at hput
    cases out with
    | error e => cases hput
    | ok _ =>
      cases hput
      rfl

/-- The functions of a bundle load where no other owner has one of their names. -/
theorem allLoad_modulesFor {s : FunctionStore} (h : Stocked K isBuiltin s) {pins : List (String × String)}
    {t : FunctionStore} (hfree : ∀ f ∈ s.modulesFor isBuiltin pins, t.taken f.manifest.name f.owner = none) :
    AllLoad K t (s.modulesFor isBuiltin pins) := by
  refine ⟨fun f hf => ?_, hfree, List.pairwise_of_forall_mem_list fun f hf g hg heq => ?_⟩
  · obtain ⟨-, -, e, -, -, -, -, hinstalled⟩ := mem_modulesFor h hf
    exact ⟨e, f, hinstalled⟩
  · obtain ⟨pin, -, e, he, -, hfo, hfn, -⟩ := mem_modulesFor h hf
    obtain ⟨pin', -, e', he', -, hgo, hgn, -⟩ := mem_modulesFor h hg
    rw [← hfn, heq, hgn] at he
    obtain rfl := Option.some.inj (he.symm.trans he')
    exact hfo.trans hgo.symm

/-- **A bundle is all it needs.** Take any run of a function store, and a contract compiled against the store: its pins
are of functions there, under their hashes. Registered with its bundle at any other registrar, the contract's functions
there are those it pins, unless another owner has the name of one, and then it is not registered. -/
theorem bundle_portable (hK : K.Installs) (hX : K.Encodes) (hB : Builtins isBuiltin builtin)
    {as : List FunctionAction} {φ : FunctionFiles} (hrun : Run (Works K builtin root) .new as φ) {s : FunctionStore}
    (hs : φ.store = some s) {pins : List (String × String)}
    (hpins : ∀ pin ∈ pins, ∃ e, s.registry pin.1 = some e ∧ e.hash = pin.2) {r : Registrar} {document : String}
    {compiled : List UInt8} {fault : Option PeqlError} (haccepted : Accepted K r.store document compiled fault) :
    (∃ reg t, registerCompiled K document compiled (s.modulesFor isBuiltin pins) fault r = .ok reg t ∧
        ∀ pin ∈ pins, ∃ e, s.registry pin.1 = some e ∧ e.hash = pin.2 ∧
          (isBuiltin e = true ∨ t.functions.registry pin.1 = some e)) ∨
      (∃ e t, registerCompiled K document compiled (s.modulesFor isBuiltin pins) fault r = .error e t) ∧
        ∃ pin ∈ pins, ∃ e e', s.registry pin.1 = some e ∧ isBuiltin e = false ∧
          r.functions.registry pin.1 = some e' ∧ e'.owner ≠ e.owner := by
  have hstocked := (Assembled.run hX hrun hs).stocked hK hX hB
  obtain ⟨loaded, rest, heq, hall, hstop, hok, herr⟩ := adopt_spec hK (s.modulesFor isBuiltin pins) r
  by_cases hrest : rest = []
  · left
    obtain rfl : s.modulesFor isBuiltin pins = loaded := by rw [heq, hrest, List.append_nil]
    have hadopt := hok hrest
    rcases read_and_put (K := K) document compiled fault
        { r with functions := addAll K r.functions (s.modulesFor isBuiltin pins) } with
      ⟨-, reg, t, hend⟩ | ⟨hrefused, -⟩
    · refine ⟨reg, t, (Effects.bind_of_ok hadopt _).trans hend, fun pin hpin => ?_⟩
      obtain ⟨e, he, hhash⟩ := hpins pin hpin
      refine ⟨e, he, hhash, ?_⟩
      cases hbuiltin : isBuiltin e with
      | true => exact .inl rfl
      | false =>
        obtain ⟨f, hf, hname⟩ := modulesFor_of_pin hstocked hpin he hhash hbuiltin
        obtain ⟨g, hg, -, hsame⟩ := exists_last hf
        obtain ⟨pin', -, e', he', -, -, hgn, hinstalled⟩ := mem_modulesFor hstocked (mem_of_lasts hg)
        have hlast := addAll_last hK hall hg hinstalled
        have hpin' : pin'.1 = pin.1 := by rw [← hgn, ← hsame, hname]
        rw [hpin'] at he' hgn
        obtain rfl := Option.some.inj (he.symm.trans he')
        right
        rw [functions_of_put hend, ← hgn]
        exact hlast
    · exact absurd haccepted hrefused
  · right
    obtain ⟨err, herr⟩ := herr hrest
    refine ⟨⟨err, { r with functions := addAll K r.functions loaded }, ?_⟩, ?_⟩
    · unfold registerCompiled
      rw [Effects.bind_apply, herr]
    · by_contra hnone
      have hfree : ∀ f ∈ s.modulesFor isBuiltin pins, r.functions.taken f.manifest.name f.owner = none := by
        intro f hf
        obtain ⟨pin, hpin, e, he, hbuiltin, hfo, hfn, -⟩ := mem_modulesFor hstocked hf
        refine taken_eq_none.2 fun e' he' => ?_
        by_contra howner
        exact hnone ⟨pin, hpin, e, e', he, hbuiltin, hfn ▸ he', fun heq => howner (heq.trans hfo.symm)⟩
      obtain ⟨f, after, rfl⟩ := List.exists_cons_of_ne_nil hrest
      have hwhole := allLoad_modulesFor hstocked hfree
      rw [heq, List.append_cons] at hwhole
      exact hstop f after rfl hwhole.left

/-- A contract that pins a function of one byte. -/
def normContract : Compilation where
  contract :=
    { name := "acme/eu", version := 1, owner := some "acme", source := .parquet "data", contractHash := "h",
      compilationHash := "c", functions := [("norm", "h0")], decisions := [], rowSchema := [], enrich := [],
      admits := [], admitsStored := [], projection := [], projectionStored := [], flags := [], derived := [],
      guarantees := [], exposedSchema := [] }
  write := ⟨[], []⟩
  validation := ⟨[], [], []⟩

/-- Contracts decode as that one. -/
def normKernel : FunctionKernel := { checkedKernel with fromBytes := fun _ => .ok normContract }

theorem normKernel_encodes : normKernel.Encodes := by
  intro module manifest owner entry h
  rcases checkedKernel_install h with ⟨rfl, -⟩ | ⟨rfl, -⟩ <;> rfl

theorem bundle_portable_norm : ∃ φ s, Run (Works normKernel .empty "/data") .new
      [.opens [], .registers [0] ⟨"norm", "f64 -> f64"⟩ "acme" .done] φ ∧ φ.store = some s ∧
    ∃ reg t, registerCompiled normKernel "acme/eu" []
        (s.modulesFor (fun _ => false) normContract.contract.functions) none ⟨.inMemory .empty, .memory .empty⟩ =
        .ok reg t ∧ ∃ e, t.functions.registry "norm" = some e ∧ e.hash = "h0" := by
  have hrun : ∃ φ s, Run (Works normKernel .empty "/data") .new
      [.opens [], .registers [0] ⟨"norm", "f64 -> f64"⟩ "acme" .done] φ ∧ φ.store = some s ∧
      s.registry "norm" = some ⟨"norm", "acme", "h0"⟩ :=
    ⟨_, _, .cons (.opens lists_new) (.cons (.registered rfl (by decide) (by decide) rfl) (.nil _)), rfl, rfl⟩
  obtain ⟨φ, s, hrun, hs, hnorm⟩ := hrun
  have hpins : ∀ pin ∈ normContract.contract.functions, ∃ e, s.registry pin.1 = some e ∧ e.hash = pin.2 := by
    intro pin hpin
    obtain rfl := List.mem_singleton.1 hpin
    exact ⟨_, hnorm, rfl⟩
  have haccepted : Accepted normKernel (.memory .empty) "acme/eu" [] none := ⟨⟨_, rfl, rfl⟩, .inl rfl⟩
  have hinstalls : normKernel.Installs := checkedKernel_installs
  have hbuiltins : Builtins (fun _ => false) .empty := fun _ _ h => (by cases h)
  rcases bundle_portable hinstalls normKernel_encodes hbuiltins hrun hs hpins
      (r := ⟨.inMemory .empty, .memory .empty⟩) haccepted with
    ⟨reg, t, hregistered, hall⟩ | ⟨-, pin, -, e, e', -, -, he', -⟩
  · obtain ⟨e, he, hhash, hbuiltin | ht⟩ := hall ("norm", "h0") List.mem_cons_self
    · cases hbuiltin
    · exact ⟨φ, s, hrun, hs, reg, t, hregistered, e, ht, hhash⟩
  · cases he'

end Peql
