import Peql.Engine.Query

/-!
# A contract a caller may not see

Every call on a caller's behalf asks first whether the caller may see the contract it names, and what it reads after
that is of that contract: its compilation, its bound data, the manifests and facts kept under its name. So two engines
that differ in other contracts alone give one result (`indistinguishable`): each step of a call is alike in both
(`Effects.Twins`) and keeps what they share.
-/

namespace Peql

open Effects

variable {caller : Caller} {e₀ : Engine} {R : Runtime}

/-! ## What two engines share -/

/-- `e` shows the caller the contracts `e₀` does, with the data bound to them. -/
structure ShowsAs (caller : Caller) (e₀ e : Engine) : Prop where
  visible : ∀ name, e.visible name caller = e₀.visible name caller
  location : e.location = e₀.location
  tables : ∀ name r, e₀.visible name caller = .ok r → e.tables name = e₀.tables name

/-- Two caches hold the same under the keys of answers that read contracts the caller may see alone. -/
def SameAnswers (caller : Caller) (e₀ : Engine) : Option QueryCache → Option QueryCache → Prop
  | none, none => True
  | some c, some c' => c'.ttl = c.ttl ∧
      ∀ key : CacheKey, (∀ name ∈ key.contracts, ∃ r, e₀.visible name caller = .ok r) → c'.held key = c.held key
  | _, _ => False

/-- What two engines share, but for their caches. -/
structure SameEngine (caller : Caller) (e₀ e e' : Engine) : Prop where
  shows : ShowsAs caller e₀ e
  shows' : ShowsAs caller e₀ e'
  tableManifests : ∀ name r, e₀.visible name caller = .ok r → e'.tableManifests name = e.tableManifests name
  objectManifests : ∀ name r, e₀.visible name caller = .ok r → e'.objectManifests name = e.objectManifests name
  icebergManifests : ∀ name r, e₀.visible name caller = .ok r → e'.icebergManifests name = e.icebergManifests name
  frozen : ∀ name r, e₀.visible name caller = .ok r → e'.frozen.lookup name = e.frozen.lookup name
  useStored : e'.useStored = e.useStored
  budgets : e'.budgets = e.budgets
  budgetFault : e'.budgetFault = e.budgetFault
  auditFault : e'.auditFault = e.auditFault
  signer : e'.signer = e.signer

/-- Two tables with the same snapshots, and the same facts under the contract's name. -/
def SameTable (name : String) : Option IcebergTable → Option IcebergTable → Prop
  | none, none => True
  | some t, some t' => t'.metadata = t.metadata ∧
      (∀ snapshot, t'.facts snapshot (manifestFile name) = t.facts snapshot (manifestFile name)) ∧
      ∀ write, t'.writeFacts write (manifestFile name) = t.writeFacts write (manifestFile name)
  | _, _ => False

/-- Two storages with the same data under each contract the caller may see, and the same facts under its name. -/
structure SameStorage (caller : Caller) (e₀ : Engine) (s s' : Storage) : Prop where
  files : ∀ name r l, e₀.visible name caller = .ok r → e₀.location r.compilation.contract = some l →
    (s'.dirs l).files = (s.dirs l).files
  recorded : ∀ name r l, e₀.visible name caller = .ok r → e₀.location r.compilation.contract = some l →
    (s'.dirs l).manifests (manifestFile name) = (s.dirs l).manifests (manifestFile name)
  tables : ∀ name r table, e₀.visible name caller = .ok r →
    e₀.location r.compilation.contract = some (.iceberg table) → SameTable name (s.tables table) (s'.tables table)

/-- Two engines over their storages that differ, beside their caches, only in contracts the caller may not see. -/
structure SameButCache (caller : Caller) (e₀ : Engine) (n n' : Node) : Prop where
  engine : SameEngine caller e₀ n.engine n'.engine
  storage : SameStorage caller e₀ n.storage n'.storage
  now : n'.now = n.now

/-- Two engines over their storages that differ only in contracts the caller may not see. -/
structure Same (caller : Caller) (e₀ : Engine) (n n' : Node) : Prop extends SameButCache caller e₀ n n' where
  cache : SameAnswers caller e₀ n.engine.cache n'.engine.cache

/-- Two runs of a call that what they share keeps alike, its value meeting `P`. -/
abbrev Blind {α : Type} (caller : Caller) (e₀ : Engine) (P : α → Prop) (x : Ask α) : Prop :=
  Twins (Same caller e₀) (Same caller e₀) P x

/-! ## Of the engine -/

/-- A contract the caller may see is the one registered. -/
theorem ShowsAs.get {e : Engine} (h : ShowsAs caller e₀ e) {name : String} {r : Registered}
    (hv : e₀.visible name caller = .ok r) : e.get name = .ok r := by
  rw [← h.visible] at hv
  unfold Engine.visible at hv
  unfold Engine.get
  cases hc : e.store.current name with
  | none =>
    rw [hc] at hv
    cases hv
  | some r' =>
    rw [hc] at hv
    dsimp only at hv
    split at hv
    · cases hv
      rfl
    · cases hv

/-- A contract seen is found. -/
theorem visible_get {e : Engine} {name : String} {r : Registered} (hv : e.visible name caller = .ok r) :
    e.get name = .ok r := by
  have hshows : ShowsAs caller e e := ⟨fun _ => rfl, rfl, fun _ _ _ => rfl⟩
  exact hshows.get hv

/-- A contract is seen under its own name. -/
theorem visible_name {e : Engine} {name : String} {r : Registered} (hv : e.visible name caller = .ok r) :
    r.name = name := by
  have hget := visible_get hv
  unfold Engine.get at hget
  cases hc : e.store.current name with
  | none =>
    rw [hc] at hget
    cases hget
  | some r' =>
    rw [hc] at hget
    cases hget
    exact Contents.current_name hc

/-- It is bound where it was. -/
theorem ShowsAs.bound {e : Engine} (h : ShowsAs caller e₀ e) {name : String} {r : Registered}
    (hv : e₀.visible name caller = .ok r) : e.bound r = e₀.bound r := by
  unfold Engine.bound
  rw [h.location, visible_name hv, h.tables name r hv]

/-- Where a visible contract's files are. -/
theorem location_of_bound {r : Registered} {l : Location} (h : e₀.bound r = .ok (.files l)) :
    e₀.location r.compilation.contract = some l := by
  unfold Engine.bound at h
  split at h
  · cases h
  · split at h
    · next hl =>
      cases h
      exact hl
    · cases h

section Steps

/-- What is read of the engine alike is no hidden contract's. -/
theorem blind_engine {α : Type} {P : α → Prop} {f : Engine → Except PeqlError α}
    (h : ∀ e e', SameEngine caller e₀ e e' → f e = f e') (hP : ∀ e, ShowsAs caller e₀ e → ∀ a, f e = .ok a → P a) :
    Blind caller e₀ P (Ask.engine f) :=
  Twins.reading (fun n n' hn => h n.engine n'.engine hn.engine) fun n _ hn a ha => hP n.engine hn.engine.shows a ha

/-- Nor is what is read of the storage alike. -/
theorem blind_storage {α : Type} {f : Storage → Except PeqlError α}
    (h : ∀ s s', SameStorage caller e₀ s s' → f s = f s') : Blind caller e₀ (fun _ => True) (Ask.storage f) :=
  Twins.reading (fun n n' hn => h n.storage n'.storage hn.storage) fun _ _ _ _ _ => trivial

theorem blind_touch (t : Touch) : Blind caller e₀ (fun _ => True) (Ask.touch t) :=
  Twins.write fun _ _ h => ⟨⟨h.engine, h.storage, h.now⟩, h.cache⟩

theorem blind_touchRead {α : Type} (contract : String) (recorded : Storage → Recorded α) :
    Blind caller e₀ (fun _ => True) (Ask.touchRead contract recorded) := by
  refine Twins.write fun n n' h => ?_
  have hkeep : ∀ ts ts', Same caller e₀ { n with touched := ts } { n' with touched := ts' } :=
    fun _ _ => ⟨⟨h.engine, h.storage, h.now⟩, h.cache⟩
  split
  · split
    · exact h
    · exact hkeep n.touched _
  · split
    · exact hkeep _ n'.touched
    · exact hkeep _ _

theorem blind_now : Blind caller e₀ (fun _ => True) Ask.now := by
  intro n n' h
  exact ⟨h.now.symm, trivial, h⟩

/-- An engine that remembers more of visible contracts, or alike of hidden ones, stays the same. -/
theorem blind_remember {f : Engine → Engine} (h : ∀ e e', SameEngine caller e₀ e e' → SameEngine caller e₀ (f e) (f e'))
    (hc : ∀ e, (f e).cache = e.cache) : Blind caller e₀ (fun _ => True) (Ask.remember f) :=
  Twins.write fun n n' hn => ⟨⟨h _ _ hn.engine, hn.storage, hn.now⟩, by rw [hc, hc]; exact hn.cache⟩

/-- So does a storage that is written alike. -/
theorem blind_store {f : Storage → Storage}
    (h : ∀ s s', SameStorage caller e₀ s s' → SameStorage caller e₀ (f s) (f s')) :
    Blind caller e₀ (fun _ => True) (Ask.store f) :=
  Twins.write fun _ _ hn => ⟨⟨hn.engine, h _ _ hn.storage, hn.now⟩, hn.cache⟩

theorem blind_ofExcept {α : Type} (r : Except PeqlError α) :
    Blind caller e₀ (fun a => r = .ok a) (Effects.ofExcept r) :=
  Twins.ofExcept r

/-- Whether the caller may see a contract. -/
theorem blind_visible (name : String) :
    Blind caller e₀ (fun r => e₀.visible name caller = .ok r) (Ask.engine fun e => e.visible name caller) :=
  blind_engine (fun e e' h => by rw [h.shows.visible, h.shows'.visible]) fun e h a ha => by rw [← h.visible, ha]

variable {name : String} {r : Registered} (hv : e₀.visible name caller = .ok r)

include hv

theorem blind_get : Blind caller e₀ (· = r) (Ask.engine fun e => e.get name) :=
  blind_engine (fun e e' h => by rw [h.shows.get hv, h.shows'.get hv]) fun e h a ha => by
    rw [h.get hv] at ha
    exact (Except.ok.inj ha).symm

theorem blind_bound : Blind caller e₀ (fun b => e₀.bound r = .ok b) (Ask.engine fun e => e.bound r) :=
  blind_engine (fun e e' h => by rw [h.shows.bound hv, h.shows'.bound hv]) fun e h a ha => by rw [← h.bound hv, ha]

end Steps

/-! ## Of the storage -/

/-- Storages stay the same when a directory changes alike in each. -/
theorem SameStorage.setDir {s s' : Storage} (h : SameStorage caller e₀ s s') (l : Location)
    {f : Dir StoredFile → Dir StoredFile} (hfiles : ∀ d d', d'.files = d.files → (f d').files = (f d).files)
    (hmanifests : ∀ d d' file, d'.manifests file = d.manifests file → (f d').manifests file = (f d).manifests file) :
    SameStorage caller e₀ (s.setDir l (f (s.dirs l))) (s'.setDir l (f (s'.dirs l))) where
  files := by
    intro name r l' hv hl
    by_cases hll : l' = l
    · subst hll
      simp only [Storage.setDir, Function.update_self]
      exact hfiles _ _ (h.files name r l' hv hl)
    · simp only [Storage.setDir, Function.update_of_ne hll]
      exact h.files name r l' hv hl
  recorded := by
    intro name r l' hv hl
    by_cases hll : l' = l
    · subst hll
      simp only [Storage.setDir, Function.update_self]
      exact hmanifests _ _ _ (h.recorded name r l' hv hl)
    · simp only [Storage.setDir, Function.update_of_ne hll]
      exact h.recorded name r l' hv hl
  tables := h.tables

/-- What is read of one's snapshots and the contract's facts is what is read of the other's. -/
theorem SameTable.read {α : Type} {name : String} {t t' : Option IcebergTable} (h : SameTable name t t')
    {f : Option IcebergTable → α}
    (hf : ∀ a b : IcebergTable, b.metadata = a.metadata →
      (∀ snapshot, b.facts snapshot (manifestFile name) = a.facts snapshot (manifestFile name)) →
      (∀ write, b.writeFacts write (manifestFile name) = a.writeFacts write (manifestFile name)) →
      f (some a) = f (some b)) : f t = f t' := by
  cases t with
  | none =>
    cases t' with
    | none => rfl
    | some b => exact h.elim
  | some a =>
    cases t' with
    | none => exact h.elim
    | some b => exact hf a b h.1 h.2.1 h.2.2

/-- Facts of one snapshot, saved in both. -/
theorem SameTable.saveFacts {name : String} {t t' : Option IcebergTable} (h : SameTable name t t') (snapshot : Int)
    (m : Manifest) :
    SameTable name (t.map fun t => t.saveFacts snapshot m) (t'.map fun t => t.saveFacts snapshot m) := by
  cases t with
  | none =>
    cases t' with
    | none => exact h
    | some t' => exact h.elim
  | some t =>
    cases t' with
    | none => exact h.elim
    | some t' =>
      obtain ⟨hm, hf, hw⟩ := h
      refine ⟨hm, fun s => ?_, hw⟩
      simp only [IcebergTable.saveFacts]
      by_cases hs : s = snapshot
      · subst hs
        simp only [Function.update_self]
        by_cases hfile : manifestFile name = manifestFile m.contract
        · rw [hfile, Function.update_self, Function.update_self]
        · rw [Function.update_of_ne hfile, Function.update_of_ne hfile]
          exact hf s
      · rw [Function.update_of_ne hs, Function.update_of_ne hs]
        exact hf s

/-- They do when facts are saved in both. -/
theorem SameStorage.saveFacts {s s' : Storage} (h : SameStorage caller e₀ s s') (table : String) (snapshot : Int)
    (m : Manifest) : SameStorage caller e₀ (s.saveFacts table snapshot m) (s'.saveFacts table snapshot m) where
  files := by
    rw [Storage.saveFacts_dirs, Storage.saveFacts_dirs]
    exact h.files
  recorded := by
    rw [Storage.saveFacts_dirs, Storage.saveFacts_dirs]
    exact h.recorded
  tables := by
    intro name r table' hv hl
    rw [Storage.saveFacts_tables, Storage.saveFacts_tables]
    by_cases ht : table' = table
    · subst ht
      simp only [if_true]
      exact (h.tables name r table' hv hl).saveFacts snapshot m
    · simp only [ht, if_false]
      exact h.tables name r table' hv hl

theorem blind_saveManifest (l : Location) (m : Manifest) : Blind caller e₀ (fun _ => True) (saveManifest l m) := by
  refine (blind_touch _).bind fun _ _ => blind_store fun s s' h => ?_
  refine h.setDir l (f := fun d => d.save m) (fun _ _ hd => hd) fun d d' file hd => ?_
  by_cases hfile : file = manifestFile m.contract
  · simp only [Dir.save, hfile, Function.update_self]
  · rw [Dir.manifests_save_of_ne _ _ hfile, Dir.manifests_save_of_ne _ _ hfile, hd]

theorem blind_saveFacts (table : String) (m : Manifest) : Blind caller e₀ (fun _ => True) (saveFacts table m) := by
  unfold saveFacts
  cases m.snapshotId with
  | none => exact Twins.fail _
  | some snapshot => exact (blind_touch _).bind fun _ _ => blind_store fun s s' h => h.saveFacts table snapshot m

/-! ## A visible contract's data -/

section Data

variable {name : String} {r : Registered} (hv : e₀.visible name caller = .ok r)

include hv

section Dirs

variable {l : Location} (hl : e₀.bound r = .ok (.files l))

include hl

theorem blind_listFiles : Blind caller e₀ (fun _ => True) (listFiles l) :=
  blind_storage fun s s' h => by rw [h.files name r l hv (location_of_bound hl)]

theorem blind_loadLocal : Blind caller e₀ (fun _ => True) (loadLocal l name) :=
  (blind_touchRead _ _).bind fun _ _ => blind_storage fun s s' h => by
    unfold Dir.load Dir.recorded
    rw [h.recorded name r l hv (location_of_bound hl)]

theorem blind_loadObject : Blind caller e₀ (fun _ => True) (loadObject l name) :=
  (blind_touchRead _ _).bind fun _ _ => blind_storage fun s s' h => by
    unfold Dir.loadObject Dir.recorded
    rw [h.recorded name r l hv (location_of_bound hl)]

end Dirs

section Table

variable {table : String} (hl : e₀.bound r = .ok (.files (.iceberg table)))

include hl

theorem blind_loadTable : Blind caller e₀ (fun _ => True) (loadTable table) :=
  blind_storage fun s s' h => by
    refine (h.tables name r table hv (location_of_bound hl)).read
      (f := fun t => (Except.ok (t.map IcebergTable.metadata) : Except PeqlError _)) ?_
    intro t t' hm _ _
    simp only [Option.map_some, hm]

theorem blind_loadFacts (snapshot : Int) : Blind caller e₀ (fun _ => True) (loadFacts table snapshot name) :=
  (blind_touchRead _ _).bind fun _ _ => blind_storage fun s s' h => by
    refine (h.tables name r table hv (location_of_bound hl)).read
      (f := readTable fun t => t.loadFacts table snapshot name) ?_
    intro t t' _ hf _
    dsimp only [readTable, IcebergTable.loadFacts]
    rw [hf]

theorem blind_loadWriteFacts (snapshot : TableSnapshot) :
    Blind caller e₀ (fun _ => True) (loadWriteFacts table snapshot name) := by
  have hload : Blind caller e₀ (fun _ => True) (Ask.storage fun s =>
      readTable (fun t => t.loadWriteFacts table snapshot name) (s.tables table)) := blind_storage fun s s' h => by
    refine (h.tables name r table hv (location_of_bound hl)).read
      (f := readTable fun t => t.loadWriteFacts table snapshot name) ?_
    intro t t' _ _ hw
    simp only [readTable, IcebergTable.loadWriteFacts, hw]
  unfold loadWriteFacts
  cases snapshot.writeId with
  | none => exact hload
  | some write => exact (blind_touchRead _ _).bind fun _ _ => hload

theorem blind_icebergSnapshot (at_ : Option Int) :
    Blind caller e₀ (fun _ => True) (icebergSnapshot table name at_) := by
  refine (blind_loadTable hv hl).bind fun t _ => ?_
  cases t with
  | none => exact Twins.fail _
  | some t =>
    cases at_ with
    | some s =>
      dsimp only
      split
      · exact Twins.fail _
      · exact Twins.ret trivial
    | none =>
      dsimp only
      split
      · exact Twins.ret trivial
      · exact Twins.fail _

theorem blind_factsBack (t : TableMetadata) (steps : Nat) (at_ : Option Int) (writes : List Pending) :
    Blind caller e₀ (fun _ => True) (factsBack table t name steps at_ writes) := by
  induction steps generalizing at_ writes with
  | zero => cases at_ <;> exact Twins.ret trivial
  | succ steps ih =>
    cases at_ with
    | none => exact Twins.ret trivial
    | some s =>
      unfold factsBack
      split
      · exact Twins.ret trivial
      · refine (blind_loadFacts hv hl s).bind fun m _ => ?_
        cases m with
        | some m => exact Twins.ret trivial
        | none =>
          refine (blind_loadWriteFacts hv hl _).bind fun w _ => ?_
          cases w with
          | none => exact Twins.ret trivial
          | some write =>
            dsimp only
            split
            · exact Twins.fail _
            · split
              · exact Twins.ret trivial
              · exact ih _ _

omit hv hl in
theorem blind_factsForward (table : String) (c : Compilation) (writes : List Pending) (known : Option Manifest) :
    Blind caller e₀ (fun _ => True) (factsForward R table c writes known) := by
  induction writes generalizing known with
  | nil => exact Twins.ret trivial
  | cons w rest ih =>
    obtain ⟨s, time, write⟩ := w
    unfold factsForward
    refine (blind_ofExcept _).bind fun m _ => ?_
    cases m with
    | none => exact Twins.ret trivial
    | some m => exact (blind_saveFacts table m).bind fun _ _ => ih _

/-- A contract's facts are made of its own: those recorded under its name, and its writes'. -/
theorem blind_icebergFacts (t : TableMetadata) (snapshot : Int) :
    Blind caller e₀ (fun _ => True) (icebergFacts R table t snapshot r) := by
  unfold icebergFacts
  rw [visible_name hv]
  refine (blind_factsBack hv hl t _ _ _).bind fun found _ => ?_
  cases found with
  | none => exact Twins.ret trivial
  | some found => exact blind_factsForward table _ _ _

end Table

omit hv in
theorem blind_validateRows (c : Compilation) (rows : Multiset Row) :
    Blind caller e₀ (fun _ => True) (validateRows R c rows) :=
  (blind_touch _).bind fun _ _ => (blind_ofExcept _).value fun _ _ => trivial

theorem blind_whole {l : Location} (hl : e₀.bound r = .ok (.files l)) (c : Compilation) (at_ : Option Int) :
    Blind caller e₀ (fun _ => True) (whole R name c l at_) := by
  have hfiles : Blind caller e₀ (fun _ => True) (do
      let files ← listFiles l
      let verdict ← validateRows R c (providedRows c.contract false files)
      let entries := files.map fun f => f.entryFor c.contract
      return ((⟨verdict, dataHash R.sha256 entries, none⟩ : DataVerdict), entries)) :=
    (blind_listFiles hv hl).bind fun _ _ => (blind_validateRows c _).bind fun _ _ => Twins.ret trivial
  unfold whole
  cases l with
  | iceberg table =>
    refine (blind_icebergSnapshot hv hl at_).bind fun t _ => ?_
    refine (blind_ofExcept _).bind fun rows _ => (blind_validateRows c rows).bind fun _ _ => ?_
    exact (blind_ofExcept _).bind fun _ _ => Twins.ret trivial
  | localDir root =>
    dsimp only
    split
    · exact Twins.fail _
    · exact hfiles
  | object url =>
    dsimp only
    split
    · exact Twins.fail _
    · exact hfiles

omit hv in
/-- A manifest kept under a name, in both. -/
theorem insert_same {m m' : Lookup String Manifest}
    (h : ∀ name r, e₀.visible name caller = .ok r → m' name = m name) (key : String) (v : Manifest) :
    ∀ name r, e₀.visible name caller = .ok r → m'.insert key v name = m.insert key v name := by
  intro name r hv
  rw [Lookup.insert_apply, Lookup.insert_apply, h name r hv]

omit hv in
theorem erase_same {m m' : Lookup String Manifest}
    (h : ∀ name r, e₀.visible name caller = .ok r → m' name = m name) (key : String) :
    ∀ name r, e₀.visible name caller = .ok r → m'.erase key name = m.erase key name := by
  intro name r hv
  by_cases hk : name = key
  · rw [hk, Lookup.erase_self, Lookup.erase_self]
  · rw [Lookup.erase_of_ne _ hk, Lookup.erase_of_ne _ hk, h name r hv]

omit hv in
theorem blind_rememberObject (key : String) (m : Manifest) : Blind caller e₀ (fun _ => True)
    (Ask.remember fun e => { e with objectManifests := e.objectManifests.insert key m }) :=
  blind_remember (fun _ _ h => { h with
    shows := ⟨h.shows.visible, h.shows.location, h.shows.tables⟩
    shows' := ⟨h.shows'.visible, h.shows'.location, h.shows'.tables⟩
    objectManifests := insert_same h.objectManifests key m }) fun _ => rfl

omit hv in
theorem blind_rememberIceberg (key : String) (m : Manifest) : Blind caller e₀ (fun _ => True)
    (Ask.remember fun e => { e with icebergManifests := e.icebergManifests.insert key m }) :=
  blind_remember (fun _ _ h => { h with
    shows := ⟨h.shows.visible, h.shows.location, h.shows.tables⟩
    shows' := ⟨h.shows'.visible, h.shows'.location, h.shows'.tables⟩
    icebergManifests := insert_same h.icebergManifests key m }) fun _ => rfl

omit hv in
theorem blind_forgetIceberg (key : String) : Blind caller e₀ (fun _ => True)
    (Ask.remember fun e => { e with icebergManifests := e.icebergManifests.erase key }) :=
  blind_remember (fun _ _ h => { h with
    shows := ⟨h.shows.visible, h.shows.location, h.shows.tables⟩
    shows' := ⟨h.shows'.visible, h.shows'.location, h.shows'.tables⟩
    icebergManifests := erase_same h.icebergManifests key }) fun _ => rfl

/-- A manifest of a visible contract is recorded alike. -/
theorem blind_record {l : Location} (hl : e₀.bound r = .ok (.files l)) (m : Manifest) :
    Blind caller e₀ (fun _ => True) (record name l m) := by
  unfold record
  cases l with
  | localDir root => exact blind_saveManifest _ m
  | object url => exact (blind_saveManifest _ m).bind fun _ _ => blind_rememberObject name m
  | iceberg table =>
    refine (blind_icebergSnapshot hv hl _).bind fun t _ => (blind_saveFacts table m).bind fun _ _ => ?_
    split
    · exact blind_rememberIceberg name m
    · exact Twins.ret trivial

/-- A visible contract's data is validated alike. -/
theorem blind_refresh (at_ : Option Int) : Blind caller e₀ (fun _ => True) (refresh R name at_) := by
  unfold refresh
  refine blind_now.bind fun _ _ => (blind_get hv).bind fun _ hr => ?_
  subst hr
  refine (blind_bound hv).bind fun b hb => ?_
  cases b with
  | table batches => exact Twins.fail _
  | files l =>
    refine (blind_whole hv hb _ _).bind fun _ _ => blind_now.bind fun _ _ => ?_
    exact (blind_record hv hb _).bind fun _ _ => Twins.ret trivial

/-! ## What a read is decided by -/

/-- Its manifest is read alike. -/
theorem blind_manifest : Blind caller e₀ (fun _ => True) (manifest name) := by
  unfold manifest
  refine (blind_get hv).bind fun _ hr => ?_
  subst hr
  refine (blind_bound hv).bind fun b hb => ?_
  split
  · exact blind_loadLocal hv hb
  · exact (blind_touch _).bind fun _ _ => blind_engine (fun e e' h => by rw [h.tableManifests name _ hv])
      fun _ _ _ _ => trivial
  · exact (blind_touch _).bind fun _ _ => blind_engine (fun e e' h => by rw [h.objectManifests name _ hv])
      fun _ _ _ _ => trivial
  · exact (blind_touch _).bind fun _ _ => blind_engine (fun e e' h => by rw [h.icebergManifests name _ hv])
      fun _ _ _ _ => trivial

theorem blind_manifestAsOf (snapshot : Int) : Blind caller e₀ (fun _ => True) (manifestAsOf R name snapshot) := by
  unfold manifestAsOf
  refine (blind_get hv).bind fun _ hr => ?_
  subst hr
  refine (blind_bound hv).bind fun b hb => ?_
  split
  · refine (blind_loadTable hv hb).bind fun t _ => ?_
    cases t with
    | none => exact Twins.fail _
    | some t =>
      dsimp only
      split
      · exact Twins.fail _
      · exact blind_icebergFacts hv hb t snapshot
  · exact Twins.fail _

/-- It is ensured alike. -/
theorem blind_ensureManifest : Blind caller e₀ (fun _ => True) (ensureManifest R name) := by
  have hrefresh : ∀ at_, Blind caller e₀ (fun _ => True) (do
      let _ ← refresh R name at_) :=
    fun at_ => (blind_refresh hv at_).bind fun _ _ => Twins.ret trivial
  unfold ensureManifest
  refine (blind_get hv).bind fun _ hr => ?_
  subst hr
  refine (blind_bound hv).bind fun b hb => ?_
  split
  · exact Twins.ret trivial
  · refine (blind_loadLocal hv hb).bind fun known _ => (blind_listFiles hv hb).bind fun files _ => ?_
    split
    · exact Twins.ret trivial
    · exact hrefresh none
  · refine (blind_loadObject hv hb).bind fun known _ => ?_
    cases known with
    | some m => exact blind_rememberObject name m
    | none =>
      refine (blind_listFiles hv hb).bind fun files _ => ?_
      split
      · exact Twins.ret trivial
      · exact hrefresh none
  · refine (blind_loadTable hv hb).bind fun t _ => ?_
    split
    · exact blind_forgetIceberg name
    · refine (blind_icebergFacts hv hb _ _).bind fun m _ => ?_
      cases m with
      | some m => exact blind_rememberIceberg name m
      | none => exact hrefresh _

theorem blind_ensureManifestAsOf (snapshot : Int) :
    Blind caller e₀ (fun _ => True) (ensureManifestAsOf R name snapshot) := by
  unfold ensureManifestAsOf
  refine (blind_manifestAsOf hv snapshot).bind fun m _ => ?_
  cases m with
  | some m => exact Twins.ret trivial
  | none => exact (blind_refresh hv _).bind fun _ _ => Twins.ret trivial

end Data

/-! ## Resolving -/

theorem blind_resolveWith (name : String) (onViolation : OnReadViolation) {m : Ask (Option Manifest)}
    (hm : ∀ r, e₀.visible name caller = .ok r → Blind caller e₀ (fun _ => True) m) :
    Blind caller e₀ (fun a => a.1.contract = name) (resolveWith R name caller onViolation m) := by
  unfold resolveWith
  refine (blind_visible name).bind fun r hv => ?_
  refine (blind_ofExcept _).bind fun _ _ => (blind_ofExcept _).bind fun refused _ => ?_
  cases refused with
  | some rule => exact Twins.fail _
  | none =>
    refine (hm r hv).bind fun m _ => ?_
    cases m with
    | none => exact Twins.fail _
    | some m =>
      refine (blind_engine (P := fun a : Resolution => a.contract = name) (fun e e' h => ?_) fun e _ a ha => ?_).bind
        fun a ha => Twins.ret ha
      · unfold resolution
        rw [h.shows.bound hv, h.shows'.bound hv, h.useStored]
      · rw [← visible_name hv]
        exact (resolution_ok ha).contract

/-- A reference is resolved alike, to the contract it names. -/
theorem blind_resolve (name : String) (onViolation : OnReadViolation) :
    Blind caller e₀ (fun a => a.1.contract = name) (resolve R name caller onViolation) :=
  blind_resolveWith name onViolation fun _ hv => blind_manifest hv

theorem blind_viewedRows {name : String} {r : Registered} (hv : e₀.visible name caller = .ok r)
    (resolution : Resolution) :
    Blind caller e₀ (fun _ => True) (viewedRows name r resolution) := by
  unfold viewedRows
  refine (blind_bound hv).bind fun b hb => ?_
  split
  · exact Twins.ret trivial
  · refine (blind_icebergSnapshot hv hb _).bind fun t _ => ?_
    exact (blind_ofExcept _).value fun _ _ => trivial
  · exact (blind_listFiles hv hb).bind fun _ _ => Twins.ret trivial

/-- The view of a contract is alike. -/
theorem blind_contractViewFor (name : String) (resolution : Resolution) :
    Blind caller e₀ (fun _ => True) (contractViewFor R name caller resolution) := by
  unfold contractViewFor
  refine (blind_visible name).bind fun r hv => (blind_viewedRows hv resolution).bind fun _ _ => ?_
  exact (blind_ofExcept _).bind fun _ _ => Twins.ret trivial

theorem blind_describeFor (name : String) : Blind caller e₀ (fun _ => True) (describeFor R name caller) := by
  unfold describeFor
  refine (blind_visible name).bind fun r _ => (blind_ofExcept _).bind fun refused _ => ?_
  cases refused with
  | some rule => exact Twins.fail _
  | none => exact Twins.ret trivial

theorem blind_authorizeWrite (name : String) : Blind caller e₀ (fun _ => True) (authorizeWrite name caller) := by
  unfold authorizeWrite
  refine (blind_visible name).bind fun r _ => ?_
  split
  · split
    · exact Twins.fail _
    · exact Twins.ret trivial
  · exact Twins.ret trivial

/-- The contracts a caller may see are listed from which they are alone. -/
theorem visibleList_eq {e e' : Engine} (h : ∀ name, e'.visible name caller = e.visible name caller) :
    (e'.store.list.filter fun r => (e'.visible r.name caller).isOk) =
      e.store.list.filter fun r => (e.visible r.name caller).isOk := by
  have hmem : ∀ (d : Engine) (r : Registered), (r ∈ d.store.list.filter fun r => (d.visible r.name caller).isOk) ↔
      d.visible r.name caller = .ok r := by
    intro d r
    rw [List.mem_filter, Contents.mem_list]
    unfold Engine.visible
    cases hc : d.store.current r.name with
    | none => simp
    | some r' =>
      by_cases hs : d.sees r' r.name caller
      · simp [hs, Except.isOk, Except.toBool]
      · simp [hs, Except.isOk, Except.toBool]
  have hsorted : ∀ d : Engine,
      (d.store.list.filter fun r => (d.visible r.name caller).isOk).Pairwise fun a b => a.name < b.name :=
    fun d => (Contents.sorted_list d.store).filter _
  have : Std.Irrefl fun a b : Registered => a.name < b.name := ⟨fun a => lt_irrefl a.name⟩
  have : Std.Antisymm fun a b : Registered => a.name < b.name :=
      ⟨fun a b hab hba => absurd (hab.trans hba) (lt_irrefl _)⟩
  refine (hsorted e').eq_of_mem_iff (hsorted e) fun r => ?_
  rw [hmem, hmem, h]

/-- The same contracts are listed. -/
theorem blind_listFor : Blind caller e₀ (fun _ => True) (listFor caller) :=
  blind_engine
    (fun e e' h => by rw [visibleList_eq fun name => (h.shows'.visible name).trans (h.shows.visible name).symm])
    fun _ _ _ _ => trivial

/-! ## Queries -/

/-- What is resolved so far is of contracts the caller may see. -/
def SeenParts (caller : Caller) (e₀ : Engine) (parts : List (String × String)) : Prop :=
  ∀ part ∈ parts, ∃ r, e₀.visible part.1 caller = .ok r

theorem blind_resolveAt {name : String} {r : Registered} (hv : e₀.visible name caller = .ok r)
    (onViolation : OnReadViolation) (snapshot : Option Int) :
    Blind caller e₀ (fun _ => True) (resolveAt R name caller onViolation snapshot) := by
  unfold resolveAt
  cases snapshot with
  | none => exact (blind_ensureManifest hv).bind fun _ _ => (blind_resolve name onViolation).value fun _ _ => trivial
  | some s =>
    refine (blind_ensureManifestAsOf hv s).bind fun m _ => ?_
    exact (blind_resolveWith name onViolation fun _ _ => Twins.ret trivial).value fun _ _ => trivial

theorem blind_resolveReference (asOf : AsOf) (onViolation : OnReadViolation) (t : TableRef) {done : Resolved}
    (hdone : SeenParts caller e₀ done.fingerprints) :
    Blind caller e₀ (fun d => SeenParts caller e₀ d.fingerprints)
      (resolveReference R caller asOf onViolation t done) := by
  unfold resolveReference
  dsimp only
  split
  · exact Twins.ret hdone
  split
  · exact Twins.fail _
  refine (blind_visible t.table).bind fun r hv => ?_
  refine (blind_engine (P := fun _ => True) (fun e e' h => by rw [h.frozen t.table r hv]) fun _ _ _ _ => trivial).bind
    fun frozen _ => ?_
  refine (blind_resolveAt hv onViolation _).bind fun a _ => (blind_contractViewFor t.table a.1).bind fun view _ => ?_
  refine (blind_get hv).bind fun _ hr => ?_
  subst hr
  refine (blind_ofExcept _).bind fun _ _ => (blind_ofExcept _).bind fun _ _ => Twins.ret ?_
  intro part hpart
  rcases List.mem_append.1 hpart with hpart | hpart
  · exact hdone part hpart
  · rw [List.mem_singleton.1 hpart]
    exact ⟨_, hv⟩

/-- Statements' references are resolved alike, one after another. -/
theorem blind_resolveReferences (asOf : AsOf) (onViolation : OnReadViolation) (refs : List TableRef) {done : Resolved}
    (hdone : SeenParts caller e₀ done.fingerprints) :
    Blind caller e₀ (fun d => SeenParts caller e₀ d.fingerprints)
      (resolveReferences R caller asOf onViolation refs done) := by
  induction refs generalizing done with
  | nil => exact Twins.ret hdone
  | cons t ts ih => exact (blind_resolveReference asOf onViolation t hdone).bind fun _ hd => ih hd

theorem blind_searchFunctions (resolutions : List Resolution) (searches : List Search) :
    Blind caller e₀ (fun _ => True) (searchFunctions R caller resolutions searches) := by
  induction searches with
  | nil => exact Twins.ret trivial
  | cons s rest ih =>
    unfold searchFunctions
    split
    · refine (blind_describeFor s.table).bind fun _ _ => (blind_ofExcept _).bind fun _ _ => ?_
      exact ih.bind fun _ _ => Twins.ret trivial
    · exact Twins.fail _

/-- A statement is prepared alike, and its key is of contracts the caller may see. -/
theorem blind_prepare (sql : String) (asOf : AsOf) (onViolation : OnReadViolation) :
    Blind caller e₀ (fun p => ∀ name ∈ p.cacheKey.contracts, ∃ r, e₀.visible name caller = .ok r)
      (prepare R sql caller asOf onViolation) := by
  unfold prepare
  refine (blind_ofExcept _).bind fun _ _ => (blind_ofExcept _).bind fun expanded _ => ?_
  refine (blind_ofExcept _).bind fun refs _ => ?_
  have hnone : SeenParts caller e₀ Resolved.none.fingerprints := fun part h => nomatch h
  refine (blind_resolveReferences asOf onViolation refs hnone).bind fun done hdone => ?_
  refine (blind_ofExcept _).bind fun _ _ => (blind_searchFunctions done.resolutions _).bind fun udfs _ => ?_
  refine (blind_ofExcept _).bind fun _ _ => (blind_ofExcept _).bind fun _ _ => ?_
  refine (blind_ofExcept _).bind fun _ _ => (blind_ofExcept _).bind fun _ _ => Twins.ret ?_
  intro name hname
  obtain ⟨part, hpart, rfl⟩ := List.mem_map.1 hname
  exact hdone part hpart

/-- What is answered and recorded of a call shows the caller no other contracts. -/
theorem ShowsAs.keep {e : Engine} (h : ShowsAs caller e₀ e) (f : Engine → Engine)
    (hstore : (f e).store = e.store) (hlocation : (f e).location = e.location) (htables : (f e).tables = e.tables) :
    ShowsAs caller e₀ (f e) where
  visible := by
    intro name
    rw [← h.visible name]
    unfold Engine.visible Engine.sees
    rw [hstore]
  location := hlocation.trans h.location
  tables := by
    intro name r hv
    rw [htables]
    exact h.tables name r hv

theorem blind_setBudgets (book : Book) :
    Blind caller e₀ (fun _ => True) (Ask.remember fun e => { e with budgets := book }) :=
  blind_remember (fun _ _ h => { h with
    shows := h.shows.keep (fun e => { e with budgets := book }) rfl rfl rfl
    shows' := h.shows'.keep (fun e => { e with budgets := book }) rfl rfl rfl
    budgets := rfl }) fun _ => rfl

/-- The cache is no part of what must be the same. -/
theorem SameEngine.setCache {e e' : Engine} (h : SameEngine caller e₀ e e') (c c' : Option QueryCache) :
    SameEngine caller e₀ { e with cache := c } { e' with cache := c' } :=
  { h with
    shows := h.shows.keep (fun e => { e with cache := c }) rfl rfl rfl
    shows' := h.shows'.keep (fun e => { e with cache := c' }) rfl rfl rfl }

/-- Nor are the records. -/
theorem SameEngine.setAudit {e e' : Engine} (h : SameEngine caller e₀ e e') (records records' : List AuditRecord) :
    SameEngine caller e₀ { e with audit := records } { e' with audit := records' } :=
  { h with
    shows := h.shows.keep (fun e => { e with audit := records }) rfl rfl rfl
    shows' := h.shows'.keep (fun e => { e with audit := records' }) rfl rfl rfl }

/-- The ledger is one in both, and stays so. -/
theorem blind_charge (charges : List (String × ℚ)) : Blind caller e₀ (fun _ => True) (charge caller charges) := by
  unfold charge
  split
  · exact Twins.ret trivial
  intro n n' h
  have hbook : n'.engine.budgets.chargeAll s!"{caller.tenant}/{caller.id}" charges n'.engine.budgetFault =
      n.engine.budgets.chargeAll s!"{caller.tenant}/{caller.id}" charges n.engine.budgetFault := by
    rw [h.engine.budgets, h.engine.budgetFault]
  have htail : ∀ charged : Except PeqlError (Lookup String ℚ) × Book, Blind caller e₀ (fun _ => True) (do
      Ask.remember fun e => { e with budgets := charged.2 }
      Effects.ofExcept charged.1) := by
    intro charged
    refine (blind_setBudgets charged.2).bind fun _ _ => ?_
    exact (blind_ofExcept _).value fun _ _ => trivial
  have hrun := htail (n.engine.budgets.chargeAll s!"{caller.tenant}/{caller.id}" charges n.engine.budgetFault) n n' h
  simp only [bind_apply, Effects.get_apply] at hrun ⊢
  rw [hbook]
  exact hrun

theorem blind_planned (p : Prepared) : Blind caller e₀ (fun _ => True) (planned R p caller) :=
  (blind_ofExcept _).bind fun _ _ => (blind_charge p.charges).bind fun _ _ => Twins.ret trivial

/-- What the cache answers under a key is one in both. -/
theorem blind_cached {key : CacheKey} (hkey : ∀ name ∈ key.contracts, ∃ r, e₀.visible name caller = .ok r) :
    Blind caller e₀ (fun _ => True) (cached key) := by
  intro n n' h
  have hcache := h.cache
  cases hc : n.engine.cache with
  | none =>
    cases hc' : n'.engine.cache with
    | none =>
      have hn : cached key n = .ok none n := by
        unfold cached
        rw [bind_apply]
        simp only [Effects.get_apply, hc]
        rfl
      have hn' : cached key n' = .ok none n' := by
        unfold cached
        rw [bind_apply]
        simp only [Effects.get_apply, hc']
        rfl
      rw [hn, hn']
      exact ⟨rfl, trivial, h⟩
    | some c' =>
      rw [hc, hc'] at hcache
      exact hcache.elim
  | some c =>
    cases hc' : n'.engine.cache with
    | none =>
      rw [hc, hc'] at hcache
      exact hcache.elim
    | some c' =>
      rw [hc, hc'] at hcache
      obtain ⟨httl, hheld⟩ := hcache
      have hn : ∀ (m : Node) d, m.engine.cache = some d → cached key m =
          .ok (d.get m.now key).1 { m with engine := { m.engine with cache := some (d.get m.now key).2 } } := by
        intro m d hd
        unfold cached
        rw [bind_apply]
        simp only [Effects.get_apply, hd]
        rfl
      have hexpired : c'.expired n'.now key = c.expired n.now key := by
        unfold QueryCache.expired
        rw [hheld key hkey, httl, h.now]
      rw [hn n c hc, hn n' c' hc']
      refine ⟨?_, trivial, ⟨⟨h.engine.setCache _ _, h.storage, h.now⟩, ?_⟩⟩
      · rw [QueryCache.get_fst, QueryCache.get_fst, hexpired, hheld key hkey]
      · refine ⟨by rw [QueryCache.get_ttl, QueryCache.get_ttl, httl], fun k hk => ?_⟩
        rw [QueryCache.held_get, QueryCache.held_get, hexpired, hheld k hk]

/-- Two runs of a call that ends what is shared but for the caches. -/
abbrev BlindLast {α : Type} (caller : Caller) (e₀ : Engine) (x : Ask α) : Prop :=
  Twins (SameButCache caller e₀) (SameButCache caller e₀) (fun _ => True) x

theorem last_engine {α : Type} {f : Engine → Except PeqlError α} (h : ∀ e e', SameEngine caller e₀ e e' → f e = f e') :
    BlindLast caller e₀ (Ask.engine f) :=
  Twins.reading (fun n n' hn => h n.engine n'.engine hn.engine) fun _ _ _ _ _ => trivial

theorem last_now : BlindLast caller e₀ Ask.now := by
  intro n n' h
  exact ⟨h.now.symm, trivial, h⟩

theorem last_sign (envelope : Envelope) : BlindLast caller e₀ (sign envelope) :=
  last_engine fun e e' h => by rw [h.signer]

theorem last_cachePut (key : CacheKey) (batches : List Batch) : BlindLast caller e₀ (cachePut R key batches) :=
  fun _ _ h => ⟨rfl, trivial, ⟨h.engine.setCache _ _, h.storage, h.now⟩⟩

theorem last_audit (auditId sql : String) (outcome : Outcome) (rows : Nat) (charges : List (String × ℚ))
    (contracts : List String) : BlindLast caller e₀ (audit R auditId sql caller outcome rows charges contracts) := by
  intro n n' h
  cases hn : n.engine.auditFault with
  | some err =>
    rw [audit_failed R hn, audit_failed R (h.engine.auditFault.trans hn)]
    exact ⟨rfl, h⟩
  | none =>
    rw [audit_recorded R hn, audit_recorded R (h.engine.auditFault.trans hn)]
    exact ⟨rfl, trivial, ⟨h.engine.setAudit _ _, h.storage, h.now⟩⟩

theorem blind_answerCached (sql auditId : String) (p : Prepared) (batches : List Batch) :
    BlindLast caller e₀ (answerCached R sql caller auditId p batches) :=
  last_now.bind fun _ _ => (last_sign _).bind fun _ _ => Twins.ret trivial

/-- Two runs of a call that begins over one cache and ends with the rest. -/
abbrev BlindTo {α : Type} (caller : Caller) (e₀ : Engine) (x : Ask α) : Prop :=
  Twins (Same caller e₀) (SameButCache caller e₀) (fun _ => True) x

/-- Nodes that are the same are the same but for their caches. -/
theorem same_toSameButCache {n n' : Node} (h : Same caller e₀ n n') : SameButCache caller e₀ n n' := h.toSameButCache

theorem blind_answer (sql auditId : String) (p : Prepared) : BlindTo caller e₀ (answer R sql caller auditId p) := by
  unfold answer
  refine (blind_planned p).bindTo (fun _ _ => same_toSameButCache) fun planned _ => ?_
  refine (blind_ofExcept _).bindTo (fun _ _ => same_toSameButCache) fun found _ => ?_
  refine Twins.strengthen ?_ fun _ _ => same_toSameButCache
  refine (last_cachePut p.cacheKey found.1).bind fun _ _ => last_now.bind fun _ _ => ?_
  exact (last_sign _).bind fun _ _ => Twins.ret trivial

/-- A query runs alike. -/
theorem blind_run (sql auditId : String) (asOf : AsOf) (onViolation : OnReadViolation) :
    BlindTo caller e₀ (run R sql caller auditId asOf onViolation) := by
  unfold run
  refine (blind_prepare sql asOf onViolation).bindTo (fun _ _ => same_toSameButCache) fun p hkey => ?_
  refine (blind_cached hkey).bindTo (fun _ _ => same_toSameButCache) fun found _ => ?_
  cases found with
  | some batches =>
    exact (blind_answerCached sql auditId p batches).strengthen fun _ _ => same_toSameButCache
  | none => exact blind_answer sql auditId p

/-- A call and the record of its outcome. -/
theorem blind_audited {α : Type} (auditId sql : String) (tell : α → Telling) {call : Ask α}
    (h : BlindTo caller e₀ call) : BlindTo caller e₀ (audited R auditId sql caller tell call) := by
  unfold audited
  refine h.attempt.bind fun out _ => ?_
  cases out with
  | ok a => exact (last_audit auditId sql _ _ _ _).bind fun _ _ => (Twins.ofExcept _).value fun _ _ => trivial
  | error e => exact (last_audit auditId sql _ _ _ _).bind fun _ _ => (Twins.ofExcept _).value fun _ _ => trivial

theorem blind_query (auditId sql : String) (asOf : AsOf) (onViolation : OnReadViolation) :
    BlindTo caller e₀ (query R auditId sql caller asOf onViolation) :=
  blind_audited auditId sql _ (blind_run sql auditId asOf onViolation)

theorem blind_plan (auditId sql : String) (asOf : AsOf) (onViolation : OnReadViolation) :
    BlindTo caller e₀ (plan R auditId sql caller asOf onViolation) := by
  refine blind_audited auditId sql _ ?_
  exact ((blind_prepare sql asOf onViolation).bind fun p _ => blind_planned p).weaken (fun _ => id)
    fun _ _ => same_toSameButCache

theorem blind_check (auditId sql : String) (onViolation : OnReadViolation) :
    BlindTo caller e₀ (check R auditId sql caller onViolation) := by
  have hprepare : BlindTo caller e₀ (prepare R sql caller [] onViolation) :=
    (blind_prepare sql [] onViolation).weaken (fun _ _ => trivial) fun _ _ => same_toSameButCache
  unfold check
  refine hprepare.attempt.bind fun out _ => ?_
  cases out with
  | ok p => exact Twins.ret trivial
  | error e =>
    have haudit : BlindLast caller e₀ (audit R auditId sql caller (.ofError e) 0 [] []) :=
      last_audit auditId sql _ _ _ _
    exact haudit.bind fun _ _ => Twins.fail e

/-! ## An invisible contract is as an absent one -/

/-- The calls made on a caller's behalf. -/
inductive CallerCall
  | query (auditId sql : String) (asOf : AsOf) (onViolation : OnReadViolation)
  | plan (auditId sql : String) (asOf : AsOf) (onViolation : OnReadViolation)
  | view (auditId name : String) (onViolation : OnReadViolation)
  | viewAsOf (auditId name : String) (snapshot : Int) (onViolation : OnReadViolation)
  | check (auditId sql : String) (onViolation : OnReadViolation)
  | describe (name : String)
  | authorizeWrite (name : String)
  | listFor

/-- What such a call gives. -/
inductive Given
  | rows (r : QueryResult)
  | planned (p : Planned)
  | checked (c : Checked)
  | columns (cs : List ColumnDef)
  | authorized
  | contracts (rs : List Registered)

/-- The call, as the engine makes it. -/
def askFor (R : Runtime) (caller : Caller) : CallerCall → Ask Given
  | .query auditId sql asOf onViolation => Given.rows <$> query R auditId sql caller asOf onViolation
  | .plan auditId sql asOf onViolation => Given.planned <$> plan R auditId sql caller asOf onViolation
  | .view auditId name onViolation => Given.planned <$> view R auditId name caller onViolation
  | .viewAsOf auditId name snapshot onViolation => Given.planned <$> viewAsOf R auditId name caller snapshot onViolation
  | .check auditId sql onViolation => Given.checked <$> check R auditId sql caller onViolation
  | .describe name => Given.columns <$> describeFor R name caller
  | .authorizeWrite name => (fun _ => Given.authorized) <$> authorizeWrite name caller
  | .listFor => Given.contracts <$> listFor caller

/-- Every call of the caller's is blind to what the caller may not see. -/
theorem blind_ask (c : CallerCall) : BlindTo caller e₀ (askFor R caller c) := by
  have hmap : ∀ {α : Type} {x : Ask α} (f : α → Given), BlindTo caller e₀ x → BlindTo caller e₀ (f <$> x) :=
    fun f hx => hx.bind fun _ _ => Twins.ret trivial
  have hall : ∀ {α : Type} {x : Ask α}, Blind caller e₀ (fun _ => True) x → BlindTo caller e₀ x :=
    fun hx => hx.weaken (fun _ => id) fun _ _ => same_toSameButCache
  cases c with
  | query auditId sql asOf onViolation => exact hmap _ (blind_query auditId sql asOf onViolation)
  | plan auditId sql asOf onViolation => exact hmap _ (blind_plan auditId sql asOf onViolation)
  | view auditId name onViolation => exact hmap _ (blind_plan auditId (selectAll name) [] onViolation)
  | viewAsOf auditId name snapshot onViolation =>
    exact hmap _ (blind_plan auditId (selectAll name) [(name, snapshot)] onViolation)
  | check auditId sql onViolation => exact hmap _ (blind_check auditId sql onViolation)
  | describe name => exact hmap _ (hall (blind_describeFor name))
  | authorizeWrite name => exact hmap _ (hall (blind_authorizeWrite name))
  | listFor => exact hmap _ (hall blind_listFor)

/-- Two engines over their storages that differ only in contracts a caller may not see give it one result of every
call. -/
theorem indistinguishable (R : Runtime) (caller : Caller) (c : CallerCall) {n n' : Node}
    (h : Same caller n.engine n n') : Effects.outcome (askFor R caller c) n' = Effects.outcome (askFor R caller c) n :=
  (blind_ask c).outcome_eq h

/-- The amounts, of one tenant's and published to no other. -/
def ownedAmounts : Registered :=
  ⟨{ amountContract with contract := { amountContract.contract with owner := some "acme" } }⟩

def globexCaller : Caller := ⟨"eve", "globex", "research", []⟩

/-- An engine that has the amounts, and one that does not. -/
def withAmounts : Node := ⟨freshEngine (Contents.empty.put ownedAmounts) fun _ => some amountsDir, emptyStorage, 5, []⟩

def withoutAmounts : Node := ⟨freshEngine .empty fun _ => some amountsDir, emptyStorage, 5, []⟩

theorem visible_withAmounts (name : String) :
    withAmounts.engine.visible name globexCaller = .error (.unknownContract name) := by
  unfold Engine.visible
  cases hc : withAmounts.engine.store.current name with
  | none => rfl
  | some r =>
    have hr : r ∈ [ownedAmounts] := Contents.current_mem hc
    obtain rfl := List.mem_singleton.1 hr
    rfl

theorem visible_withoutAmounts (name : String) :
    withoutAmounts.engine.visible name globexCaller = .error (.unknownContract name) := rfl

/-- Two engines differ in a contract of another tenant. -/
theorem same_amounts : Same globexCaller withoutAmounts.engine withoutAmounts withAmounts := by
  have hnone : ∀ {p : Prop} {name r}, withoutAmounts.engine.visible name globexCaller = .ok r → p :=
    fun h => nomatch h
  have hshows : ShowsAs globexCaller withoutAmounts.engine withAmounts.engine :=
    ⟨fun name => by rw [visible_withAmounts, visible_withoutAmounts], rfl, fun _ _ h => hnone h⟩
  have hengine : SameEngine globexCaller withoutAmounts.engine withoutAmounts.engine withAmounts.engine := {
    shows := ⟨fun _ => rfl, rfl, fun _ _ _ => rfl⟩
    shows' := hshows
    tableManifests := fun _ _ h => hnone h
    objectManifests := fun _ _ h => hnone h
    icebergManifests := fun _ _ h => hnone h
    frozen := fun _ _ h => hnone h
    useStored := rfl
    budgets := rfl
    budgetFault := rfl
    auditFault := rfl
    signer := rfl }
  have hstorage : SameStorage globexCaller withoutAmounts.engine withoutAmounts.storage withAmounts.storage :=
    ⟨fun _ _ _ h => hnone h, fun _ _ _ h => hnone h, fun _ _ _ h => hnone h⟩
  exact ⟨⟨hengine, hstorage, rfl⟩, trivial⟩

theorem indistinguishable_amounts :
    Effects.outcome
      (askFor amountsRuntime globexCaller (.query "a1" (selectAll "acme/amounts") [] .exclude)) withAmounts =
      Effects.outcome (askFor amountsRuntime globexCaller (.query "a1" (selectAll "acme/amounts") [] .exclude))
        withoutAmounts :=
  indistinguishable amountsRuntime globexCaller _ same_amounts

end Peql
