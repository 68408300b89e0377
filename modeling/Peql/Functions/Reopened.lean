import Peql.Functions.Dir
import Peql.Lib.Runs

/-!
# A function store that is opened again

What is registered is kept beside the store and its files, to say what opening finds: of each function the last
registration that went well. A registration that fails leaves the files as they are, or it breaks the function it
registers. Where no function is broken the store opens with what is registered, whatever order its files are listed in
and whatever was adopted or failed to be written before; where it does not open, some function is broken
(`functions_reopened`).
-/

namespace Peql

open Runs

/-- A function as it was registered. -/
structure Registration where
  module : List UInt8
  manifest : FunctionManifest
  owner : String
  entry : FunctionEntry
deriving DecidableEq

namespace Registration

def function (r : Registration) : String × String := (r.owner, r.manifest.name)

def stored (r : Registration) : StoredFunction := ⟨r.owner, r.manifest, r.entry.hash⟩

def bundle (K : FunctionKernel) (r : Registration) : BundledFunction := ⟨r.owner, r.manifest, K.hexEncode r.module⟩

end Registration

/-- The hash of an entry is its module's: two modules installed under one hash are one. -/
def FunctionKernel.Hashes (K : FunctionKernel) : Prop :=
  ∀ module module' manifest owner entry entry', K.install module manifest owner = .ok entry →
    K.install module' manifest owner = .ok entry' → entry.hash = entry'.hash → module = module'

/-- A function store over its files, with what is registered in it and the functions registrations failed to write. -/
structure FunctionFiles where
  /-- The store, unless the last opening failed. -/
  store : Option FunctionStore
  dir : FunctionDir
  registered : Lookup (String × String) Registration
  broken : Set (String × String)

/-- The store before it is first opened, over no files. -/
def FunctionFiles.new : FunctionFiles := ⟨none, .empty, .empty, ∅⟩

/-- A call of the store; or a process opens it, in place of the one that had it open. -/
inductive FunctionAction
  | registers (module : List UInt8) (manifest : FunctionManifest) (owner : String) (written : RegisterWrite)
  | adopts (functions : List BundledFunction)
  | opens (listing : List (String × String))

section System

variable (K : FunctionKernel) (builtin : Lookup String FunctionEntry) (root : String)

inductive Works : FunctionFiles → FunctionAction → FunctionFiles → Prop
  | registered {φ : FunctionFiles} {s s' : FunctionStore} {module : List UInt8} {manifest : FunctionManifest}
      {owner : String} {written : RegisterWrite} {entry : FunctionEntry} {d : FunctionDir} (hs : φ.store = some s)
      (howner : FileName owner) (hname : FileName manifest.name)
      (h : s.register K φ.dir module manifest owner written = (.ok entry, s', d)) :
      Works φ (.registers module manifest owner written)
        ⟨some s', d, φ.registered.insert (owner, manifest.name) ⟨module, manifest, owner, entry⟩,
          φ.broken \ {(owner, manifest.name)}⟩
  /-- A registration that fails breaks the function when it leaves other files than it found. -/
  | failed {φ : FunctionFiles} {s s' : FunctionStore} {module : List UInt8} {manifest : FunctionManifest}
      {owner : String} {written : RegisterWrite} {e : PeqlError} {d : FunctionDir} (hs : φ.store = some s)
      (howner : FileName owner) (hname : FileName manifest.name)
      (h : s.register K φ.dir module manifest owner written = (.error e, s', d)) :
      Works φ (.registers module manifest owner written)
        ⟨some s', d, φ.registered, φ.broken ∪ {f | f = (owner, manifest.name) ∧ d ≠ φ.dir}⟩
  | adopts {φ : FunctionFiles} {s : FunctionStore} {functions : List BundledFunction} {r : Registrar}
      (hs : φ.store = some s) (hr : r.functions = s) :
      Works φ (.adopts functions) { φ with store := some (Effects.final (adopt K functions) r).functions }
  | opens {φ : FunctionFiles} {listing : List (String × String)} (hl : φ.dir.Lists listing) :
      Works φ (.opens listing) { φ with store := (openFunctions K builtin root φ.dir listing).toOption }

/-- The functions a store holds are those registered, and the built-in ones under other names. -/
structure FunctionStore.Holds (s : FunctionStore) (registered : Lookup (String × String) Registration) : Prop where
  registry : ∀ f r, registered f = some r → s.registry f.2 = some r.entry
  builtin : ∀ name, (∀ owner, registered (owner, name) = none) → s.registry name = builtin name
  modules : ∀ b, b ∈ s.modules ↔ ∃ f r, registered f = some r ∧ b = r.bundle K

/-- A name's files are one owner's, who has it in the store too. -/
structure OneOwner (d : FunctionDir) (store : Option FunctionStore) : Prop where
  one : ∀ owner owner' name, d.records (owner, name) ≠ none → d.records (owner', name) ≠ none → owner = owner'
  built : ∀ owner name b, d.records (owner, name) ≠ none → builtin name = some b → b.owner = owner
  held : ∀ s, store = some s → ∀ owner name, d.records (owner, name) ≠ none →
    ∃ e, s.registry name = some e ∧ e.owner = owner
  heldBuilt : ∀ s, store = some s → ∀ name b, builtin name = some b → ∃ e, s.registry name = some e ∧ e.owner = b.owner

/-- What the files of a store hold. -/
structure FunctionFiles.Sound (φ : FunctionFiles) : Prop where
  installed : ∀ f r, φ.registered f = some r → f = r.function ∧ K.install r.module r.manifest r.owner = .ok r.entry
  present : ∀ f r, φ.registered f = some r → φ.dir.records f ≠ none
  holds : ∀ f stored, φ.dir.records f = some (.holds stored) → ∃ r, φ.registered f = some r ∧ stored = r.stored
  torn : ∀ f e, φ.dir.records f = some (.torn e) → f ∈ φ.broken
  intact : ∀ f r, φ.registered f = some r → f ∉ φ.broken →
    φ.dir.records f = some (.holds r.stored) ∧ φ.dir.modules f = some r.module
  owned : OneOwner builtin φ.dir φ.store

end System

variable {K : FunctionKernel} {builtin : Lookup String FunctionEntry} {root : String}

/-! ## What a registration writes -/

namespace FunctionDir

variable {d : FunctionDir} {f g : String × String} {module : List UInt8} {stored : StoredFunction}
  {written : RegisterWrite}

/-- Other functions' records stay. -/
theorem write_records_of_ne (h : g ≠ f) : (d.write f module stored written).records g = d.records g := by
  cases written with
  | done | cutRecord => exact Lookup.insert_of_ne _ _ h
  | kept | cutModule | unrecorded => rfl

/-- So do their modules. -/
theorem write_modules_of_ne (h : g ≠ f) : (d.write f module stored written).modules g = d.modules g := by
  cases written with
  | kept => rfl
  | done | cutModule | unrecorded | cutRecord => exact Lookup.insert_of_ne _ _ h

/-- A write that fails leaves the record it found, or half of one. -/
theorem write_records_of_error {e : PeqlError} (h : written.error = some e) :
    (d.write f module stored written).records f = d.records f ∨
      ∃ cause, (d.write f module stored written).records f = some (.torn cause) := by
  cases written with
  | done => cases h
  | kept | cutModule | unrecorded => exact .inl rfl
  | cutRecord e cause => exact .inr ⟨cause, Lookup.insert_self ..⟩

end FunctionDir

theorem error_eq_none {written : RegisterWrite} : written.error = none ↔ written = .done := by
  cases written <;> simp [RegisterWrite.error]

/-- What a registration does: it is refused with nothing changed, or it loads the function and writes its files. -/
theorem register_cases {s s' : FunctionStore} {d d' : FunctionDir} {module : List UInt8} {manifest : FunctionManifest}
    {owner : String} {written : RegisterWrite} {out : Except PeqlError FunctionEntry}
    (h : s.register K d module manifest owner written = (out, s', d')) :
    (∃ e, out = .error e ∧ s' = s ∧ d' = d) ∨
      ∃ entry, s.load K module manifest owner = .ok (entry, s') ∧
        d' = d.write (owner, manifest.name) module ⟨owner, manifest, entry.hash⟩ written ∧
        (written = .done ∧ out = .ok entry ∨ ∃ e, written.error = some e ∧ out = .error e) := by
  unfold FunctionStore.register at h
  cases hload : s.load K module manifest owner with
  | error e =>
    rw [hload] at h
    obtain ⟨rfl, rfl, rfl⟩ := h
    exact .inl ⟨e, rfl, rfl, rfl⟩
  | ok p =>
    obtain ⟨entry, t⟩ := p
    rw [hload] at h
    right
    cases herror : written.error with
    | none =>
      simp only [herror, Prod.mk.injEq] at h
      obtain ⟨rfl, rfl, rfl⟩ := h
      exact ⟨entry, rfl, rfl, .inl ⟨error_eq_none.1 herror, rfl⟩⟩
    | some e =>
      simp only [herror, Prod.mk.injEq] at h
      obtain ⟨rfl, rfl, rfl⟩ := h
      exact ⟨entry, rfl, rfl, .inr ⟨e, rfl, rfl⟩⟩

/-! ## Owners -/

namespace OneOwner

variable {d d' : FunctionDir} {s : FunctionStore} {name owner : String}

/-- Who has a name's files has the name, when it is free to an owner. -/
theorem eq_of_free (h : OneOwner builtin d (some s)) (hfree : s.taken name owner = none) {owner' : String}
    (hrecord : d.records (owner', name) ≠ none) : owner' = owner := by
  obtain ⟨e, he, rfl⟩ := h.held s rfl owner' name hrecord
  exact taken_eq_none.1 hfree e he

/-- A function is added under a name that is free to its owner, who may get files under it. -/
theorem add (h : OneOwner builtin d (some s)) {e : FunctionEntry} {b : BundledFunction} (hname : e.name = name)
    (howner : e.owner = owner) (hfree : s.taken name owner = none)
    (hd : ∀ g, d'.records g ≠ none → d.records g ≠ none ∨ g = (owner, name)) :
    OneOwner builtin d' (some (s.add e b)) := by
  have hold : ∀ owner', d'.records (owner', name) ≠ none → owner' = owner := by
    intro owner' hrecord
    rcases hd _ hrecord with hd | hd
    · exact h.eq_of_free hfree hd
    · exact (Prod.mk.inj hd).1
  have hother : ∀ owner' name', name' ≠ name → d'.records (owner', name') ≠ none → d.records (owner', name') ≠ none :=
    fun owner' name' hne hrecord => (hd _ hrecord).resolve_right fun heq => hne (Prod.mk.inj heq).2
  have hregistry : ∀ name', (s.add e b).registry name' = if name' = name then some e else s.registry name' := by
    intro name'
    rw [add_registry, hname]
  constructor
  · intro owner₁ owner₂ name' h₁ h₂
    by_cases hne : name' = name
    · subst hne
      rw [hold _ h₁, hold _ h₂]
    · exact h.one _ _ _ (hother _ _ hne h₁) (hother _ _ hne h₂)
  · intro owner' name' built hrecord hbuilt
    by_cases hne : name' = name
    · subst hne
      obtain ⟨e', he', howner'⟩ := h.heldBuilt s rfl _ _ hbuilt
      rw [hold _ hrecord, ← howner']
      exact taken_eq_none.1 hfree e' he'
    · exact h.built _ _ _ (hother _ _ hne hrecord) hbuilt
  · rintro t ht owner' name' hrecord
    obtain rfl := Option.some.inj ht
    rw [hregistry]
    by_cases hne : name' = name
    · subst hne
      rw [if_pos rfl]
      exact ⟨e, rfl, howner.trans (hold _ hrecord).symm⟩
    · rw [if_neg hne]
      exact h.held s rfl _ _ (hother _ _ hne hrecord)
  · rintro t ht name' built hbuilt
    obtain rfl := Option.some.inj ht
    obtain ⟨e', he', howner'⟩ := h.heldBuilt s rfl _ _ hbuilt
    rw [hregistry]
    by_cases hne : name' = name
    · subst hne
      rw [if_pos rfl]
      exact ⟨e, rfl, howner.trans ((taken_eq_none.1 hfree e' he').symm.trans howner')⟩
    · rw [if_neg hne]
      exact ⟨e', he', howner'⟩

/-- A function loads. -/
theorem load (hK : K.Installs) (h : OneOwner builtin d (some s)) {module : List UInt8} {manifest : FunctionManifest}
    {entry : FunctionEntry} {t : FunctionStore} (hload : s.load K module manifest owner = .ok (entry, t))
    (hd : ∀ g, d'.records g ≠ none → d.records g ≠ none ∨ g = (owner, manifest.name)) :
    OneOwner builtin d' (some t) := by
  obtain ⟨hfree, hinstall, rfl⟩ := load_eq_ok.1 hload
  obtain ⟨hname, howner⟩ := hK _ _ _ _ hinstall
  exact h.add hname howner hfree hd

/-- The functions of a bundle are adopted. -/
theorem adopt (hK : K.Installs) (fs : List BundledFunction) {r : Registrar}
    (h : OneOwner builtin d (some r.functions)) :
    OneOwner builtin d (some (Effects.final (adopt K fs) r).functions) := by
  induction fs generalizing r with
  | nil => exact h
  | cons f fs ih =>
    rcases adopt_cons (K := K) f fs r with ⟨e, b, hloads, heq⟩ | ⟨-, err, heq⟩
    · obtain ⟨hname, howner⟩ := entry_same hK hloads.1
      unfold Effects.final at ih ⊢
      rw [heq]
      exact ih (h.add hname howner hloads.2 fun _ => .inl)
    · unfold Effects.final
      rw [heq]
      exact h

end OneOwner

/-! ## What opening finds -/

/-- A store with what is registered of the functions of a list, in order. -/
def added (K : FunctionKernel) (registered : Lookup (String × String) Registration) :
    FunctionStore → List (String × String) → FunctionStore
  | s, [] => s
  | s, f :: fs =>
    match registered f with
    | none => added K registered s fs
    | some r => added K registered (s.add r.entry (r.bundle K)) fs

section Added

variable {registered : Lookup (String × String) Registration}

/-- One more function is added. -/
theorem added_cons {s : FunctionStore} {f : String × String} {fs : List (String × String)} {r : Registration}
    (h : registered f = some r) :
    added K registered s (f :: fs) = added K registered (s.add r.entry (r.bundle K)) fs := by
  rw [added, h]

/-- The functions of the list are of different names, and are registered as they install. -/
structure NamesApart (K : FunctionKernel) (registered : Lookup (String × String) Registration)
    (fs : List (String × String)) : Prop where
  names : (fs.map Prod.snd).Nodup
  installed : ∀ f ∈ fs, ∃ r, registered f = some r ∧ f = r.function ∧
    K.install r.module r.manifest r.owner = .ok r.entry

theorem NamesApart.tail {f : String × String} {fs : List (String × String)} (h : NamesApart K registered (f :: fs)) :
    NamesApart K registered fs :=
  ⟨(List.nodup_cons.1 h.names).2, fun g hg => h.installed g (List.mem_cons_of_mem _ hg)⟩

/-- The first function of the list, and what adding it does to the registry. -/
theorem NamesApart.head (hK : K.Installs) {f : String × String} {fs : List (String × String)}
    (h : NamesApart K registered (f :: fs)) :
    ∃ r, registered f = some r ∧ f = r.function ∧ r.entry.owner = f.1 ∧ f.2 ∉ fs.map Prod.snd ∧
      ∀ (s : FunctionStore) name, (s.add r.entry (r.bundle K)).registry name =
        if name = f.2 then some r.entry else s.registry name := by
  obtain ⟨r, hr, hf, hinstall⟩ := h.installed f List.mem_cons_self
  obtain ⟨hname, howner⟩ := hK _ _ _ _ hinstall
  refine ⟨r, hr, hf, by rw [hf]; exact howner, (List.nodup_cons.1 h.names).1, fun s name => ?_⟩
  rw [add_registry, hname, hf]
  rfl

/-- The functions added leave other names. -/
theorem added_registry_other (hK : K.Installs) {fs : List (String × String)} (h : NamesApart K registered fs)
    (s : FunctionStore) {name : String} (hname : name ∉ fs.map Prod.snd) :
    (added K registered s fs).registry name = s.registry name := by
  induction fs generalizing s with
  | nil => rfl
  | cons f fs ih =>
    obtain ⟨r, hr, -, -, -, hadd⟩ := h.head hK
    rw [List.map_cons, List.mem_cons, not_or] at hname
    rw [added_cons hr, ih h.tail _ hname.2, hadd, if_neg hname.1]

/-- Each is found under its name. -/
theorem added_registry (hK : K.Installs) {fs : List (String × String)} (h : NamesApart K registered fs)
    (s : FunctionStore) {f : String × String} {r : Registration} (hf : f ∈ fs) (hr : registered f = some r) :
    (added K registered s fs).registry f.2 = some r.entry := by
  induction fs generalizing s with
  | nil => cases hf
  | cons g fs ih =>
    obtain ⟨r', hr', -, -, hnot, hadd⟩ := h.head hK
    rw [added_cons hr']
    rcases List.mem_cons.1 hf with rfl | hf
    · obtain rfl := Option.some.inj (hr.symm.trans hr')
      rw [added_registry_other hK h.tail _ hnot, hadd, if_pos rfl]
    · exact ih h.tail _ hf

/-- Their modules are those added and those of other names. -/
theorem added_modules (hK : K.Installs) {fs : List (String × String)} (h : NamesApart K registered fs)
    (s : FunctionStore) (hs : ∀ b ∈ s.modules, b.manifest.name ∉ fs.map Prod.snd) :
    (added K registered s fs).modules =
      s.modules ++ fs.filterMap fun f => (registered f).map (Registration.bundle K) := by
  induction fs generalizing s with
  | nil => simp [added]
  | cons f fs ih =>
    obtain ⟨r, hr, hf, -, hnot, -⟩ := h.head hK
    have hname : (r.bundle K).manifest.name = f.2 := by
      rw [hf]
      rfl
    have hkept : (s.add r.entry (r.bundle K)).modules = s.modules ++ [r.bundle K] := by
      unfold FunctionStore.add
      refine congrArg (· ++ _) (List.filter_eq_self.2 fun b hb => ?_)
      have hne : b.manifest.name ≠ (r.bundle K).manifest.name := by
        rw [hname]
        exact fun heq => hs b hb (heq ▸ List.mem_cons_self)
      simp [hne]
    rw [added_cons hr, ih h.tail, hkept, List.filterMap_cons, hr, List.append_assoc]
    · rfl
    · intro b hb
      rw [hkept, List.mem_append, List.mem_singleton] at hb
      rcases hb with hb | rfl
      · exact fun hmem => hs b hb (List.mem_cons_of_mem _ hmem)
      · rw [hname]
        exact hnot

end Added

namespace FunctionFiles.Sound

variable {φ : FunctionFiles} {listing : List (String × String)}

/-- The functions listed are apart, and all that is registered. -/
theorem apart (h : φ.Sound K builtin) (hl : φ.dir.Lists listing) (hwhole : ∀ f ∈ listing, φ.registered f ≠ none) :
    NamesApart K φ.registered listing where
  names := by
    refine hl.nodup.map_on fun f hf g hg heq => ?_
    obtain ⟨owner, name⟩ := f
    obtain ⟨owner', name'⟩ := g
    obtain rfl : name = name' := heq
    rw [h.owned.one owner owner' name ((hl.mem_iff _).1 hf) ((hl.mem_iff _).1 hg)]
  installed f hf := by
    obtain ⟨r, hr⟩ := Option.ne_none_iff_exists'.1 (hwhole f hf)
    exact ⟨r, hr, h.installed f r hr⟩

/-- A record that opens is of what is registered. -/
theorem of_opened (hH : K.Hashes) (h : φ.Sound K builtin) {s t : FunctionStore} {f : String × String}
    (hf : φ.dir.records f ≠ none) (ho : openRecord K root φ.dir s f = .ok t) :
    ∃ r, φ.registered f = some r ∧ t = s.add r.entry (r.bundle K) := by
  rcases openRecord_eq_ok.1 ho with ⟨hnone, -⟩ | ⟨stored, module, entry, hrecord, -, hload, hhash⟩
  · exact absurd hnone hf
  obtain ⟨r, hr, rfl⟩ := h.holds f stored hrecord
  obtain ⟨-, hinstalled, rfl⟩ := load_eq_ok.1 hload
  have hinstall := (h.installed f r hr).2
  obtain rfl := hH _ _ _ _ _ _ hinstalled hinstall hhash
  obtain rfl := Except.ok.inj (hinstalled.symm.trans hinstall)
  exact ⟨r, hr, rfl⟩

/-- A function that is not broken opens, when its name is free to its owner. -/
theorem opens (h : φ.Sound K builtin) {s : FunctionStore} {f : String × String} {r : Registration}
    (hr : φ.registered f = some r) (hbroken : f ∉ φ.broken) (hfree : s.taken f.2 f.1 = none) :
    openRecord K root φ.dir s f = .ok (s.add r.entry (r.bundle K)) := by
  obtain ⟨hrecord, hmodule⟩ := h.intact f r hr hbroken
  obtain ⟨rfl, hinstall⟩ := h.installed f r hr
  exact openRecord_eq_ok.2 (.inr ⟨r.stored, r.module, r.entry, hrecord, hmodule,
    load_eq_ok.2 ⟨hfree, hinstall, rfl⟩, rfl⟩)

/-- A function that is not broken is registered, when it has a record. -/
theorem registered_of_record (h : φ.Sound K builtin) {f : String × String} (hf : φ.dir.records f ≠ none)
    (hbroken : f ∉ φ.broken) : φ.registered f ≠ none := by
  obtain ⟨file, hfile⟩ := Option.ne_none_iff_exists'.1 hf
  cases file with
  | torn e => exact absurd (h.torn f e hfile) hbroken
  | holds stored =>
    obtain ⟨r, hr, -⟩ := h.holds f stored hfile
    rw [hr]
    exact Option.some_ne_none r

/-- Records that open one after another add what is registered. -/
theorem of_opened_all (hH : K.Hashes) (h : φ.Sound K builtin) {fs : List (String × String)}
    (hfs : ∀ f ∈ fs, φ.dir.records f ≠ none) {s t : FunctionStore}
    (ho : fs.foldlM (openRecord K root φ.dir) s = .ok t) :
    (∀ f ∈ fs, φ.registered f ≠ none) ∧ t = added K φ.registered s fs := by
  induction fs generalizing s with
  | nil =>
    obtain rfl := Except.ok.inj ho
    exact ⟨fun _ hf => (by cases hf), rfl⟩
  | cons f fs ih =>
    rw [List.foldlM_cons] at ho
    obtain ⟨u, hu, ho⟩ := bind_eq_ok.1 ho
    obtain ⟨hf, hfs⟩ := List.forall_mem_cons.1 hfs
    obtain ⟨r, hr, rfl⟩ := h.of_opened hH hf hu
    obtain ⟨hall, rfl⟩ := ih hfs ho
    refine ⟨List.forall_mem_cons.2 ⟨?_, hall⟩, (added_cons hr).symm⟩
    rw [hr]
    exact Option.some_ne_none r

/-- Records none of which is broken open one after another, when their names are free to their owners. -/
theorem opens_all (hK : K.Installs) (h : φ.Sound K builtin) {fs : List (String × String)}
    (hfs : NamesApart K φ.registered fs) (hbroken : ∀ f ∈ fs, f ∉ φ.broken) {s : FunctionStore}
    (hfree : ∀ f ∈ fs, s.taken f.2 f.1 = none) :
    fs.foldlM (openRecord K root φ.dir) s = .ok (added K φ.registered s fs) := by
  induction fs generalizing s with
  | nil => rfl
  | cons f fs ih =>
    obtain ⟨r, hr, -, -, hnot, hadd⟩ := hfs.head hK
    obtain ⟨hf, hrest⟩ := List.forall_mem_cons.1 hfree
    obtain ⟨hbrokenf, hbrokens⟩ := List.forall_mem_cons.1 hbroken
    rw [List.foldlM_cons, h.opens hr hbrokenf hf]
    show fs.foldlM _ (s.add r.entry (r.bundle K)) = _
    rw [added_cons hr]
    refine ih hfs.tail hbrokens fun g hg => taken_eq_none.2 fun e he => ?_
    have hne : g.2 ≠ f.2 := fun heq => hnot (heq ▸ List.mem_map_of_mem hg)
    rw [hadd, if_neg hne] at he
    exact taken_eq_none.1 (hrest g hg) e he

/-- What is added when every record opens is what is registered. -/
theorem holds_added (hK : K.Installs) (h : φ.Sound K builtin) (hl : φ.dir.Lists listing)
    (hwhole : ∀ f ∈ listing, φ.registered f ≠ none) :
    (added K φ.registered (.inMemory builtin) listing).Holds K builtin φ.registered := by
  have hapart := h.apart hl hwhole
  have hmem : ∀ {f r}, φ.registered f = some r → f ∈ listing := fun hr => (hl.mem_iff _).2 (h.present _ _ hr)
  refine ⟨fun f r hr => added_registry hK hapart _ (hmem hr) hr, fun name hname => ?_, fun b => ?_⟩
  · refine added_registry_other hK hapart _ fun hin => ?_
    obtain ⟨⟨owner, _⟩, hf, rfl⟩ := List.mem_map.1 hin
    exact hwhole _ hf (hname owner)
  · rw [added_modules hK hapart _ fun b hb => (by cases hb)]
    simp only [FunctionStore.inMemory, List.nil_append, List.mem_filterMap, Option.map_eq_some_iff]
    constructor
    · rintro ⟨f, -, r, hr, rfl⟩
      exact ⟨f, r, hr, rfl⟩
    · rintro ⟨f, r, hr, rfl⟩
      exact ⟨f, hmem hr, r, hr, rfl⟩

/-- Opening gives what is registered, or some function is broken. -/
theorem opened (hK : K.Installs) (hH : K.Hashes) (h : φ.Sound K builtin) (hl : φ.dir.Lists listing) :
    (∃ s, openFunctions K builtin root φ.dir listing = .ok s ∧ s.Holds K builtin φ.registered) ∨
      (∃ e, openFunctions K builtin root φ.dir listing = .error e) ∧ φ.broken.Nonempty := by
  have hrecords : ∀ f ∈ listing, φ.dir.records f ≠ none := fun f hf => (hl.mem_iff f).1 hf
  cases ho : openFunctions K builtin root φ.dir listing with
  | ok s =>
    obtain ⟨hwhole, rfl⟩ := h.of_opened_all hH hrecords ho
    exact .inl ⟨_, rfl, h.holds_added hK hl hwhole⟩
  | error e =>
    refine .inr ⟨⟨e, rfl⟩, Set.nonempty_iff_ne_empty.2 fun hempty => ?_⟩
    have hbroken : ∀ f ∈ listing, f ∉ φ.broken := fun f _ hf => by
      rw [hempty] at hf
      exact hf
    have hapart := h.apart hl fun f hf => h.registered_of_record (hrecords f hf) (hbroken f hf)
    have hopens : openFunctions K builtin root φ.dir listing = _ := h.opens_all hK hapart hbroken fun f hf =>
      taken_eq_none.2 fun b hb => h.owned.built _ _ b (hrecords f hf) hb
    cases ho.symm.trans hopens

/-! ## What a call keeps -/

/-- An empty store over no files is sound. -/
theorem new : FunctionFiles.new.Sound K builtin where
  installed _ _ h := by cases h
  present _ _ h := by cases h
  holds _ _ h := by cases h
  torn _ _ h := by cases h
  intact _ _ h := by cases h
  owned := ⟨fun _ _ _ h => absurd rfl h, fun _ _ _ h => absurd rfl h, fun _ h => (by cases h), fun _ h => (by cases h)⟩

variable {s s' : FunctionStore} {module : List UInt8} {manifest : FunctionManifest} {owner : String}
  {written : RegisterWrite} {entry : FunctionEntry}

/-- A registration that goes well. -/
theorem registered (hK : K.Installs) (h : φ.Sound K builtin) (hs : φ.store = some s)
    (hload : s.load K module manifest owner = .ok (entry, s')) :
    FunctionFiles.Sound K builtin
      ⟨some s', φ.dir.write (owner, manifest.name) module ⟨owner, manifest, entry.hash⟩ .done,
        φ.registered.insert (owner, manifest.name) ⟨module, manifest, owner, entry⟩,
        φ.broken \ {(owner, manifest.name)}⟩ where
  installed f r hr := by
    by_cases hf : f = (owner, manifest.name)
    · subst hf
      obtain rfl := Option.some.inj ((Lookup.insert_self ..).symm.trans hr)
      exact ⟨rfl, (load_eq_ok.1 hload).2.1⟩
    · exact h.installed f r ((Lookup.insert_of_ne _ _ hf).symm.trans hr)
  present f r hr := by
    by_cases hf : f = (owner, manifest.name)
    · subst hf
      show Lookup.insert _ _ _ _ ≠ none
      rw [Lookup.insert_self]
      exact Option.some_ne_none _
    · rw [FunctionDir.write_records_of_ne hf]
      exact h.present f r ((Lookup.insert_of_ne _ _ hf).symm.trans hr)
  holds f stored hrecord := by
    by_cases hf : f = (owner, manifest.name)
    · subst hf
      obtain rfl := RecordFile.holds.inj (Option.some.inj ((Lookup.insert_self ..).symm.trans hrecord))
      exact ⟨_, Lookup.insert_self .., rfl⟩
    · rw [FunctionDir.write_records_of_ne hf] at hrecord
      obtain ⟨r, hr, heq⟩ := h.holds f stored hrecord
      exact ⟨r, (Lookup.insert_of_ne _ _ hf).trans hr, heq⟩
  torn f e hrecord := by
    by_cases hf : f = (owner, manifest.name)
    · subst hf
      cases Option.some.inj ((Lookup.insert_self ..).symm.trans hrecord)
    · rw [FunctionDir.write_records_of_ne hf] at hrecord
      exact ⟨h.torn f e hrecord, hf⟩
  intact f r hr hbroken := by
    by_cases hf : f = (owner, manifest.name)
    · subst hf
      obtain rfl := Option.some.inj ((Lookup.insert_self ..).symm.trans hr)
      exact ⟨Lookup.insert_self .., Lookup.insert_self ..⟩
    · rw [FunctionDir.write_records_of_ne hf, FunctionDir.write_modules_of_ne hf]
      exact h.intact f r ((Lookup.insert_of_ne _ _ hf).symm.trans hr) fun hin => hbroken ⟨hin, hf⟩
  owned := by
    have howned := h.owned
    rw [hs] at howned
    refine howned.load hK hload fun g hg => ?_
    by_cases hf : g = (owner, manifest.name)
    · exact .inr hf
    · rw [FunctionDir.write_records_of_ne hf] at hg
      exact .inl hg

/-- A registration whose files are not written whole. -/
theorem failed (hK : K.Installs) (h : φ.Sound K builtin) (hs : φ.store = some s)
    (hload : s.load K module manifest owner = .ok (entry, s')) {stored : StoredFunction} {e : PeqlError}
    (hwritten : written.error = some e) {d : FunctionDir}
    (hd : d = φ.dir.write (owner, manifest.name) module stored written) :
    FunctionFiles.Sound K builtin
      ⟨some s', d, φ.registered, φ.broken ∪ {f | f = (owner, manifest.name) ∧ d ≠ φ.dir}⟩ := by
  have howned := h.owned
  rw [hs] at howned
  by_cases hkept : d = φ.dir
  · subst hkept
    refine ⟨h.installed, h.present, h.holds, fun f e he => .inl (h.torn f e he), fun f r hr hbroken => ?_,
      howned.load hK hload fun _ => .inl⟩
    exact h.intact f r hr fun hin => hbroken (.inl hin)
  have hbreaks : (owner, manifest.name) ∈ φ.broken ∪ {f | f = (owner, manifest.name) ∧ d ≠ φ.dir} :=
    .inr ⟨rfl, hkept⟩
  have hother : ∀ f, f ≠ (owner, manifest.name) → d.records f = φ.dir.records f ∧ d.modules f = φ.dir.modules f := by
    intro f hf
    rw [hd, FunctionDir.write_records_of_ne hf, FunctionDir.write_modules_of_ne hf]
    exact ⟨rfl, rfl⟩
  have hself : d.records (owner, manifest.name) = φ.dir.records (owner, manifest.name) ∨
      ∃ cause, d.records (owner, manifest.name) = some (.torn cause) := by
    rw [hd]
    exact FunctionDir.write_records_of_error hwritten
  have hrecord : ∀ f, d.records f = φ.dir.records f ∨
      f = (owner, manifest.name) ∧ ∃ cause, d.records f = some (.torn cause) := by
    intro f
    by_cases hf : f = (owner, manifest.name)
    · subst hf
      exact hself.imp_right fun htorn => ⟨rfl, htorn⟩
    · exact .inl (hother f hf).1
  refine ⟨h.installed, fun f r hr => ?_, fun f stored' hholds => ?_, fun f e he => ?_, fun f r hr hbroken => ?_,
    howned.load hK hload fun g hg => ?_⟩
  · rcases hrecord f with hold | ⟨-, cause, htorn⟩
    · rw [hold]
      exact h.present f r hr
    · rw [htorn]
      exact Option.some_ne_none _
  · rcases hrecord f with hold | ⟨-, cause, htorn⟩
    · exact h.holds f stored' (hold.symm.trans hholds)
    · cases htorn.symm.trans hholds
  · rcases hrecord f with hold | ⟨rfl, -⟩
    · exact .inl (h.torn f e (hold.symm.trans he))
    · exact hbreaks
  · have hf : f ≠ (owner, manifest.name) := fun heq => hbroken (heq ▸ hbreaks)
    rw [(hother f hf).1, (hother f hf).2]
    exact h.intact f r hr fun hin => hbroken (.inl hin)
  · rcases hrecord g with hold | ⟨heq, -⟩
    · exact .inl (hold ▸ hg)
    · exact .inr heq

/-- A store that opens has the names of the functions with files. -/
theorem owned_of_holds (hK : K.Installs) (h : φ.Sound K builtin) (hholds : s.Holds K builtin φ.registered)
    (hwhole : ∀ f, φ.dir.records f ≠ none → φ.registered f ≠ none) : OneOwner builtin φ.dir (some s) where
  one := h.owned.one
  built := h.owned.built
  held := by
    rintro t ht owner name hrecord
    obtain rfl := Option.some.inj ht
    obtain ⟨r, hr⟩ := Option.ne_none_iff_exists'.1 (hwhole _ hrecord)
    obtain ⟨hf, hinstall⟩ := h.installed _ r hr
    refine ⟨r.entry, hholds.registry _ r hr, ?_⟩
    rw [(hK _ _ _ _ hinstall).2]
    exact (Prod.mk.inj hf).1.symm
  heldBuilt := by
    rintro t ht name b hb
    obtain rfl := Option.some.inj ht
    by_cases hnone : ∀ owner, φ.registered (owner, name) = none
    · exact ⟨b, (hholds.builtin name hnone).trans hb, rfl⟩
    · obtain ⟨owner, howner⟩ := not_forall.1 hnone
      obtain ⟨r, hr⟩ := Option.ne_none_iff_exists'.1 howner
      obtain ⟨hf, hinstall⟩ := h.installed _ r hr
      refine ⟨r.entry, hholds.registry _ r hr, ?_⟩
      rw [(hK _ _ _ _ hinstall).2, h.owned.built owner name b (h.present _ r hr) hb]
      exact (Prod.mk.inj hf).1.symm

end FunctionFiles.Sound

/-- What each call keeps. -/
theorem FunctionFiles.Sound.step (hK : K.Installs) (hH : K.Hashes) {φ ψ : FunctionFiles} {a : FunctionAction}
    (h : φ.Sound K builtin) (hstep : Works K builtin root φ a ψ) : ψ.Sound K builtin := by
  cases hstep with
  | registered hs howner hname hregister =>
    rcases register_cases hregister with ⟨e, he, -⟩ | ⟨entry, hload, rfl, ⟨rfl, hok⟩ | ⟨e, -, he⟩⟩
    · cases he
    · obtain rfl := Except.ok.inj hok
      exact h.registered hK hs hload
    · cases he
  | failed hs howner hname hregister =>
    rcases register_cases hregister with ⟨e, -, rfl, rfl⟩ | ⟨entry, hload, hd, ⟨-, hok⟩ | ⟨e, hwritten, -⟩⟩
    · have howned := h.owned
      rw [hs] at howned
      refine ⟨h.installed, h.present, h.holds, fun f e he => .inl (h.torn f e he), fun f r hr hbroken => ?_, howned⟩
      exact h.intact f r hr fun hin => hbroken (.inl hin)
    · cases hok
    · exact h.failed hK hs hload hwritten hd
  | adopts hs hr =>
    subst hr
    have howned := h.owned
    rw [hs] at howned
    exact ⟨h.installed, h.present, h.holds, h.torn, h.intact, howned.adopt hK _⟩
  | @opens listing hl =>
    refine ⟨h.installed, h.present, h.holds, h.torn, h.intact, ?_⟩
    cases ho : openFunctions K builtin root φ.dir listing with
    | error e => exact ⟨h.owned.one, h.owned.built, fun _ hs => (by cases hs), fun _ hs => (by cases hs)⟩
    | ok s =>
      have hrecords : ∀ f ∈ listing, φ.dir.records f ≠ none := fun f hf => (hl.mem_iff f).1 hf
      obtain ⟨hwhole, rfl⟩ := h.of_opened_all hH hrecords ho
      have howned := h.owned_of_holds hK (h.holds_added hK hl hwhole) fun f hf => hwhole f ((hl.mem_iff f).2 hf)
      exact howned

/-- **A function store is opened as it was registered.** In every run of registrations, of which any may be refused or
fail to write its files whole, of bundles adopted and of openings: however `read_dir` lists the records, opening gives
exactly the functions registered, of each the last registration that went well; or it fails, and the last registration
that wrote to the files of some function failed. -/
theorem functions_reopened (hK : K.Installs) (hH : K.Hashes) {as : List FunctionAction} {φ : FunctionFiles}
    (hrun : Run (Works K builtin root) .new as φ) {listing : List (String × String)} (hl : φ.dir.Lists listing) :
    (∃ s, openFunctions K builtin root φ.dir listing = .ok s ∧ s.Holds K builtin φ.registered) ∨
      (∃ e, openFunctions K builtin root φ.dir listing = .error e) ∧ φ.broken.Nonempty := by
  have hsound := hrun.inv (fun φ a ψ hφ hstep => FunctionFiles.Sound.step hK hH hφ hstep) .new
  exact hsound.opened hK hH hl

/-- Modules of one byte, named by their hashes, and nothing else. -/
def checkedKernel : FunctionKernel :=
  { byteKernel with
    install := fun module manifest owner =>
      if module = [0] then .ok ⟨manifest.name, owner, "h0"⟩
      else if module = [1] then .ok ⟨manifest.name, owner, "h1"⟩
      else .error (.invalid "unexpected end-of-file") }

theorem checkedKernel_install {module : List UInt8} {manifest : FunctionManifest} {owner : String}
    {entry : FunctionEntry} (h : checkedKernel.install module manifest owner = .ok entry) :
    module = [0] ∧ entry = ⟨manifest.name, owner, "h0"⟩ ∨ module = [1] ∧ entry = ⟨manifest.name, owner, "h1"⟩ := by
  simp only [checkedKernel] at h
  split at h
  · next hmodule => exact .inl ⟨hmodule, (Except.ok.inj h).symm⟩
  · split at h
    · next hmodule => exact .inr ⟨hmodule, (Except.ok.inj h).symm⟩
    · cases h

theorem checkedKernel_installs : checkedKernel.Installs := by
  intro module manifest owner entry h
  rcases checkedKernel_install h with ⟨-, rfl⟩ | ⟨-, rfl⟩ <;> exact ⟨rfl, rfl⟩

theorem checkedKernel_hashes : checkedKernel.Hashes := by
  intro module module' manifest owner entry entry' h h' hhash
  rcases checkedKernel_install h with ⟨rfl, rfl⟩ | ⟨rfl, rfl⟩ <;>
    rcases checkedKernel_install h' with ⟨rfl, rfl⟩ | ⟨rfl, rfl⟩
  · rfl
  · exact absurd hhash (show "h0" ≠ "h1" by decide)
  · exact absurd hhash (show "h1" ≠ "h0" by decide)
  · rfl

/-- A function is registered; another module of it is not written, for want of space. -/
def normActions : List FunctionAction :=
  [.opens [], .registers [0] ⟨"norm", "f64 -> f64"⟩ "acme" .done,
    .registers [1] ⟨"norm", "f64 -> f64"⟩ "acme" (.kept (.io "No space left on device (os error 28)"))]

theorem lists_new : FunctionFiles.new.dir.Lists [] :=
  ⟨List.nodup_nil, fun _ => ⟨fun h => (by cases h), fun h => absurd rfl h⟩⟩

/-- A function is registered, replaced, and its next registration fails halfway. -/
theorem norm_run : ∃ φ, Run (Works checkedKernel .empty "/data") .new normActions φ ∧
    φ.registered ("acme", "norm") = some ⟨[0], ⟨"norm", "f64 -> f64"⟩, "acme", ⟨"norm", "acme", "h0"⟩⟩ ∧
    φ.dir.Lists [("acme", "norm")] ∧ φ.broken = ∅ := by
  refine ⟨_, .cons (.opens lists_new) (.cons (.registered rfl (by decide) (by decide) rfl)
    (.cons (.failed rfl (by decide) (by decide) rfl) (.nil _))), ?_, ⟨List.nodup_singleton _, ?_⟩, ?_⟩
  · show Lookup.insert .empty ("acme", "norm") _ ("acme", "norm") = _
    rw [Lookup.insert_self]
  · intro f
    show f ∈ [("acme", "norm")] ↔ Lookup.insert .empty ("acme", "norm") _ f ≠ none
    rw [Lookup.insert_apply, List.mem_singleton]
    by_cases hf : f = ("acme", "norm")
    · simp [hf]
    · simp only [hf, if_false, false_iff, not_not]
      rfl
  · ext f
    simp only [FunctionFiles.new, Set.empty_sdiff, Set.empty_union, Set.mem_ofPred_eq, Set.mem_empty_iff_false,
      iff_false, not_and, not_not]
    exact fun _ => rfl

theorem functions_reopened_norm : ∃ φ s, Run (Works checkedKernel .empty "/data") .new normActions φ ∧
    openFunctions checkedKernel .empty "/data" φ.dir [("acme", "norm")] = .ok s ∧
    s.registry "norm" = some ⟨"norm", "acme", "h0"⟩ := by
  obtain ⟨φ, hrun, hregistered, hl, hbroken⟩ := norm_run
  rcases functions_reopened checkedKernel_installs checkedKernel_hashes hrun hl with ⟨s, ho, hholds⟩ | ⟨-, f, hf⟩
  · exact ⟨φ, s, hrun, ho, hholds.registry ("acme", "norm") _ hregistered⟩
  · rw [hbroken] at hf
    cases hf

end Peql
