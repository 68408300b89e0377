import Peql.Engine.Snapshots
import Peql.Engine.Tells

/-!
# What a call knows of the data

A call that reads, validates or resolves a contract's data keeps everything recorded telling of the data (`Steady`), and
the manifest it takes or makes tells of the files it is about: those of the directory, or of the snapshot. What is
recorded beside that, under the compilation the call is of, may be watched through the call (`Saves`).
-/

namespace Peql

open Effects

variable {R : Runtime} {V : Compilation → Prop} {rd : Compilation → Reading}

/-- The data a read of a place is of: the files there, or those of the snapshot named or current. -/
def liveFiles (s : Storage) (l : Location) (at_ : Option Int) : List StoredFile :=
  match l with
  | .iceberg table =>
    match (s.tables table).map IcebergTable.metadata with
    | some t => t.filesAt (at_.or t.current)
    | none => []
  | .localDir _ | .object _ => (s.dirs l).files

/-- What is recorded under a contract's name for that data. -/
def recordedFor (s : Storage) (l : Location) (at_ : Option Int) (name : String) : Recorded Manifest :=
  match l with
  | .iceberg table =>
    match s.tables table with
    | some t =>
      match at_.or t.metadata.current with
      | some snapshot => t.facts snapshot (manifestFile name)
      | none => .absent
    | none => .absent
  | .localDir _ | .object _ => (s.dirs l).recorded name

/-- The live files are the same. -/
theorem SameData.liveFiles {s s' : Storage} (h : SameData s s') (l : Location) (at_ : Option Int) :
    liveFiles s' l at_ = liveFiles s l at_ := by
  unfold Peql.liveFiles
  cases l with
  | iceberg table =>
    dsimp only
    rw [h.metadata table]
  | localDir root => exact h.dirs _
  | object url => exact h.dirs _

/-- What is watched of the storage is kept when facts computed under a compilation are recorded. -/
structure Saves (U : Storage → Prop) (hash : String) : Prop where
  save : ∀ s l m, m.compilationHash = hash → U s → U (s.setDir l ((s.dirs l).save m))
  saveFacts : ∀ s table snapshot m, m.compilationHash = hash → U s → U (s.saveFacts table snapshot m)

/-- A call over some data, begun at `n₀`: the data and what the engine is set up with are as they were, everything
recorded tells of the data, and what is watched holds. -/
structure Steady (V : Compilation → Prop) (rd : Compilation → Reading) (U : Storage → Prop) (n₀ n : Node) : Prop where
  told : Told V rd n.storage
  data : SameData n₀.storage n.storage
  watched : U n.storage
  store : n.engine.store = n₀.engine.store
  location : n.engine.location = n₀.engine.location
  tables : n.engine.tables = n₀.engine.tables

variable {U : Storage → Prop} {n₀ n : Node}

namespace Steady

theorem get (h : Steady V rd U n₀ n) (name : String) : n.engine.get name = n₀.engine.get name := by
  unfold Engine.get
  rw [h.store]

theorem bound (h : Steady V rd U n₀ n) (reg : Registered) : n.engine.bound reg = n₀.engine.bound reg := by
  unfold Engine.bound
  rw [h.tables, h.location]

theorem visible (h : Steady V rd U n₀ n) (name : String) (caller : Caller) :
    n.engine.visible name caller = n₀.engine.visible name caller := by
  unfold Engine.visible Engine.sees
  rw [h.store]

/-- A table there is one there was, with its snapshots. -/
theorem metadata (h : Steady V rd U n₀ n) {table : String} {t : IcebergTable} (ht : n.storage.tables table = some t) :
    ∃ t₀, n₀.storage.tables table = some t₀ ∧ t₀.metadata = t.metadata := by
  have hm := h.data.metadata table
  rw [ht] at hm
  obtain ⟨t₀, ht₀, hmeta⟩ := Option.map_eq_some_iff.1 hm.symm
  exact ⟨t₀, ht₀, hmeta⟩

theorem touched (h : Steady V rd U n₀ n) (ts : List Touch) : Steady V rd U n₀ { n with touched := ts } :=
  ⟨h.told, h.data, h.watched, h.store, h.location, h.tables⟩

/-- The engine remembers other manifests. -/
theorem remember (h : Steady V rd U n₀ n) {e : Engine} (hstore : e.store = n.engine.store)
    (hlocation : e.location = n.engine.location) (htables : e.tables = n.engine.tables) :
    Steady V rd U n₀ { n with engine := e } :=
  ⟨h.told, h.data, h.watched, hstore.trans h.store, hlocation.trans h.location, htables.trans h.tables⟩

/-- Something is recorded that tells of the data it is recorded for. -/
theorem stored (h : Steady V rd U n₀ n) {s : Storage} (htold : Told V rd s) (hdata : SameData n.storage s) (hU : U s) :
    Steady V rd U n₀ { n with storage := s } :=
  ⟨htold, h.data.trans hdata, hU, h.store, h.location, h.tables⟩

end Steady

/-! ## Reads and writes -/

theorem steady_touch (t : Touch) : Effects.Keeps (Steady V rd U n₀) (Ask.touch t) :=
    Effects.Keeps.write fun _ h => h.touched _

theorem steady_touchRead {α : Type} (contract : String) (recorded : Storage → Recorded α) :
    Effects.Keeps (Steady V rd U n₀) (Ask.touchRead contract recorded) := Effects.Keeps.write fun n h => by
  split
  · exact h
  · exact h.touched _

theorem steady_get (name : String) :
    Ends (Steady V rd U n₀) (Ask.engine fun e => e.get name)
      (fun reg n => Steady V rd U n₀ n ∧ n₀.engine.get name = .ok reg) (fun _ => Steady V rd U n₀) := by
  intro n hn
  rw [Ask.engine_apply, hn.get]
  cases hreg : n₀.engine.get name with
  | ok reg => exact ⟨hn, rfl⟩
  | error e => exact hn

theorem steady_bound (reg : Registered) :
    Ends (Steady V rd U n₀) (Ask.engine fun e => e.bound reg)
      (fun b n => Steady V rd U n₀ n ∧ n₀.engine.bound reg = .ok b) (fun _ => Steady V rd U n₀) := by
  intro n hn
  rw [Ask.engine_apply, hn.bound]
  cases hb : n₀.engine.bound reg with
  | ok b => exact ⟨hn, rfl⟩
  | error e => exact hn

/-- What is read of the storage. -/
theorem steady_storage {α : Type} (f : Storage → Except PeqlError α) :
    Ends (Steady V rd U n₀) (Ask.storage f) (fun a n => Steady V rd U n₀ n ∧ f n.storage = .ok a)
      (fun _ => Steady V rd U n₀) := by
  intro n hn
  rw [Ask.storage_apply]
  cases hf : f n.storage with
  | ok a => exact ⟨hn, hf⟩
  | error e => exact hn

/-- A table loaded is the table. -/
theorem steady_loadTable (table : String) :
    Ends (Steady V rd U n₀) (loadTable table)
      (fun t n => Steady V rd U n₀ n ∧ t = (n₀.storage.tables table).map IcebergTable.metadata)
      (fun _ => Steady V rd U n₀) := by
  refine (steady_storage _).mono (fun _ => id) (fun t n h => ⟨h.1, ?_⟩) fun _ _ => id
  rw [← h.1.data.metadata table]
  exact (Except.ok.inj h.2).symm

/-- The files listed are the files. -/
theorem steady_listFiles (l : Location) :
    Ends (Steady V rd U n₀) (listFiles l) (fun files n => Steady V rd U n₀ n ∧ files = (n₀.storage.dirs l).files)
      (fun _ => Steady V rd U n₀) := by
  refine (steady_storage _).mono (fun _ => id) (fun files n h => ⟨h.1, ?_⟩) fun _ _ => id
  rw [← h.1.data.dirs l]
  exact (Except.ok.inj h.2).symm

/-- What is loaded of a contract beside its files tells of them. -/
def LoadedBeside (V : Compilation → Prop) (rd : Compilation → Reading) (U : Storage → Prop) (n₀ : Node) (l : Location)
    (name : String) (known : Option Manifest) (n : Node) : Prop :=
  Steady V rd U n₀ n ∧ ∀ m, known = some m →
    (n.storage.dirs l).recorded name = .facts m ∧ Tells V rd (n₀.storage.dirs l).files m

/-- A manifest found beside files is of those files. -/
theorem Steady.loadedBeside (h : Steady V rd U n₀ n) {l : Location} {name : String} {known : Option Manifest}
    (hm : ∀ m, known = some m → (n.storage.dirs l).recorded name = .facts m) :
    LoadedBeside V rd U n₀ l name known n := by
  refine ⟨h, fun m hk => ⟨hm m hk, ?_⟩⟩
  rw [← h.data.dirs l]
  exact h.told.beside l _ m (hm m hk)

/-- A manifest loaded from a directory is of its files. -/
theorem steady_loadLocal (l : Location) (name : String) :
    Ends (Steady V rd U n₀) (loadLocal l name) (LoadedBeside V rd U n₀ l name) (fun _ => Steady V rd U n₀) := by
  refine Ends.bind (steady_touchRead _ _) fun _ => ?_
  refine (steady_storage _).mono (fun _ => id) (fun known n h => h.1.loadedBeside ?_) fun _ _ => id
  rintro m rfl
  exact Dir.load_facts h.2

/-- So is one loaded from an object store. -/
theorem steady_loadObject (l : Location) (name : String) :
    Ends (Steady V rd U n₀) (loadObject l name) (LoadedBeside V rd U n₀ l name) (fun _ => Steady V rd U n₀) := by
  refine Ends.bind (steady_touchRead _ _) fun _ => ?_
  refine (steady_storage _).mono (fun _ => id) (fun known n h => h.1.loadedBeside ?_) fun _ _ => id
  rintro m rfl
  exact Dir.loadObject_facts h.2

variable {hash : String} (hU : Saves U hash)

include hU in
/-- What is saved beside files tells of them. -/
theorem steady_saveManifest {l : Location} {m : Manifest} (hm : Tells V rd (n₀.storage.dirs l).files m)
    (hh : m.compilationHash = hash) : Effects.Keeps (Steady V rd U n₀) (saveManifest l m) := by
  refine (steady_touch _).bind fun _ => Effects.Keeps.write fun n hn => ?_
  have htells : Tells V rd (n.storage.dirs l).files m := by rwa [hn.data.dirs l]
  exact hn.stored (hn.told.save htells) (.setDir rfl) (hU.save _ _ _ hh hn.watched)

include hU in
/-- What is saved of a snapshot tells of it. -/
theorem steady_saveFacts {table : String} {t : IcebergTable} {snapshot : Int} {sn : TableSnapshot} {m : Manifest}
    (ht : n₀.storage.tables table = some t) (hsn : t.metadata.snapshotById snapshot = some sn)
    (hid : m.snapshotId = some snapshot) (hm : Tells V rd sn.files m) (hh : m.compilationHash = hash) :
    Effects.Keeps (Steady V rd U n₀) (saveFacts table m) := by
  unfold saveFacts
  rw [hid]
  refine (steady_touch _).bind fun _ => Effects.Keeps.write fun n hn => ?_
  have hmeta := hn.data.metadata table
  rw [ht] at hmeta
  obtain ⟨t', ht', hmeta'⟩ := Option.map_eq_some_iff.1 hmeta
  have hsn' : t'.metadata.snapshotById snapshot = some sn := by rwa [hmeta']
  exact hn.stored (hn.told.saveFacts ht' hsn' hid hm) (.saveFacts _ _ _ _) (hU.saveFacts _ _ _ _ hh hn.watched)

/-! ## The facts of a snapshot -/

section Facts

variable {table : String} {t₀ : IcebergTable} (ht₀ : n₀.storage.tables table = some t₀)

include ht₀

theorem Steady.found (h : Steady V rd U n₀ n) :
    ∃ t, n.storage.tables table = some t ∧ t.metadata = t₀.metadata := by
  have hm := h.data.metadata table
  rw [ht₀] at hm
  obtain ⟨t, ht, hmeta⟩ := Option.map_eq_some_iff.1 hm
  exact ⟨t, ht, hmeta⟩

/-- Facts loaded of a snapshot tell of its files. -/
theorem steady_loadFacts (snapshot : Int) (name : String) :
    Ends (Steady V rd U n₀) (loadFacts table snapshot name)
      (fun found n => Steady V rd U n₀ n ∧ ∀ m, found = some m →
        n.storage.factsAt table snapshot name = .facts m ∧ m.snapshotId = some snapshot ∧
          Tells V rd (t₀.metadata.filesAt (some snapshot)) m)
      (fun _ => Steady V rd U n₀) := by
  refine Ends.bind (steady_touchRead _ _) fun _ => ?_
  refine (steady_storage _).mono (fun _ => id) (fun found n h => ⟨h.1, ?_⟩) fun _ _ => id
  rintro m rfl
  obtain ⟨hn, hload⟩ := h
  obtain ⟨t, ht, hmeta⟩ := hn.found ht₀
  rw [ht] at hload
  dsimp only at hload
  have hfacts : t.facts snapshot (manifestFile name) = .facts m := by
    unfold IcebergTable.loadFacts at hload
    cases hr : t.facts snapshot (manifestFile name) with
    | absent => rw [hr] at hload; cases hload
    | otherFormat => rw [hr] at hload; cases hload
    | corrupt cause => rw [hr] at hload; cases hload
    | facts m' =>
      rw [hr] at hload
      dsimp only at hload
      split at hload
      · cases hload
        rfl
      · cases hload
  obtain ⟨sn, hsn, hid, htells⟩ := hn.told.facts table t snapshot _ m ht hfacts
  refine ⟨by unfold Storage.factsAt; rw [ht]; exact hfacts, hid, ?_⟩
  rw [hmeta] at hsn
  rw [TableMetadata.filesAt_some hsn]
  exact htells

/-- Facts loaded of the write of a snapshot say what it did to the files of the one before. -/
theorem steady_loadWriteFacts {sn : TableSnapshot} (hsn : sn ∈ t₀.metadata.snapshots) (name : String) :
    Ends (Steady V rd U n₀) (loadWriteFacts table sn name)
      (fun found n => Steady V rd U n₀ n ∧ ∀ f, found = some f →
        Wrote V rd (t₀.metadata.filesAt sn.parent) f sn.files)
      (fun _ => Steady V rd U n₀) := by
  have hread : Ends (Steady V rd U n₀) (Ask.storage fun s =>
      match s.tables table with
      | some t => t.loadWriteFacts table sn name
      | none => .ok none)
      (fun found n => Steady V rd U n₀ n ∧ ∀ f, found = some f →
        Wrote V rd (t₀.metadata.filesAt sn.parent) f sn.files)
      (fun _ => Steady V rd U n₀) := by
    refine (steady_storage _).mono (fun _ => id) (fun found n h => ⟨h.1, ?_⟩) fun _ _ => id
    rintro f rfl
    obtain ⟨hn, hload⟩ := h
    obtain ⟨t, ht, hmeta⟩ := hn.found ht₀
    rw [ht] at hload
    unfold IcebergTable.loadWriteFacts at hload
    cases hid : sn.writeId with
    | none => rw [hid] at hload; cases hload
    | some write =>
      rw [hid] at hload
      dsimp only at hload
      cases hr : t.writeFacts write (manifestFile name) with
      | absent => rw [hr] at hload; cases hload
      | otherFormat => rw [hr] at hload; cases hload
      | corrupt cause => rw [hr] at hload; cases hload
      | facts f' =>
        rw [hr] at hload
        cases hload
        rw [← hmeta]
        exact hn.told.writes table t sn write _ f ht (hmeta ▸ hsn) hid hr
  unfold loadWriteFacts
  cases sn.writeId with
  | none => exact hread
  | some write => exact Ends.bind (steady_touchRead _ _) fun _ => hread

omit ht₀

/-- Writes to be combined lead, snapshot by snapshot, from one snapshot, or none, and its files to another. -/
def Leads (V : Compilation → Prop) (rd : Compilation → Reading) (t : TableMetadata) (target : Int) :
    Option Int → List StoredFile → List Pending → Prop
  | at_, before, [] => at_ = some target ∧ before = t.filesAt (some target)
  | _, before, (s, _, f) :: rest =>
    ∃ sn, t.snapshotById s = some sn ∧ Wrote V rd before f sn.files ∧ Leads V rd t target (some s) sn.files rest

/-- What is known of the snapshot the writes lead from: nothing, for an append to no files or an overwrite. -/
def KnownOf (V : Compilation → Prop) (rd : Compilation → Reading) (at_ : Option Int) (before : List StoredFile)
    (writes : List Pending) : Option Manifest → Prop
  | some b => Tells V rd before b ∧ b.snapshotId = at_
  | none => writes ≠ [] ∧ ∀ w ∈ writes.head?, w.2.2.written = .append → before = []

include ht₀

/-- On the way back: what is found leads to the snapshot, and where it is the snapshot's own facts, nothing is left to
combine. -/
theorem steady_factsBack {target : Int} {name : String} (steps : Nat) {at_ : Option Int} {writes : List Pending}
    (hlead : Leads V rd t₀.metadata target at_ (t₀.metadata.filesAt at_) writes) :
    Ends (Steady V rd U n₀) (factsBack table t₀.metadata name steps at_ writes)
      (fun r n => Steady V rd U n₀ n ∧ ∀ known rest, r = some (known, rest) →
        (∃ at_ before, Leads V rd t₀.metadata target at_ before rest ∧ KnownOf V rd at_ before rest known) ∧
          ∀ m, rest = [] → known = some m → n.storage.factsAt table target name = .facts m)
      (fun _ => Steady V rd U n₀) := by
  have hstart : ∀ n writes, Steady V rd U n₀ n → Leads V rd t₀.metadata target none [] writes →
      Steady V rd U n₀ n ∧ ∀ known rest, some (none, writes) = some (known, rest) →
        (∃ at_ before, Leads V rd t₀.metadata target at_ before rest ∧ KnownOf V rd at_ before rest known) ∧
          ∀ m, rest = [] → known = some m → n.storage.factsAt table target name = .facts m := by
    intro n writes hn hlead
    refine ⟨hn, ?_⟩
    rintro known rest ⟨⟩
    have hne : writes ≠ [] := by
      rintro rfl
      cases hlead.1
    exact ⟨⟨_, _, hlead, hne, fun _ _ _ => rfl⟩, fun _ _ h => by cases h⟩
  induction steps generalizing at_ writes with
  | zero =>
    cases at_ with
    | none => exact fun n hn => hstart n writes hn hlead
    | some s => exact fun n hn => ⟨hn, fun _ _ h => by cases h⟩
  | succ steps ih =>
    cases at_ with
    | none => exact fun n hn => hstart n writes hn hlead
    | some s =>
      unfold factsBack
      cases hs : t₀.metadata.snapshotById s with
      | none => exact fun n hn => ⟨hn, fun _ _ h => by cases h⟩
      | some sn =>
        have hfiles := TableMetadata.filesAt_some hs
        refine Ends.bind (steady_loadFacts ht₀ s name) fun found => ?_
        cases found with
        | some m =>
          rintro n ⟨hn, hm⟩
          obtain ⟨hrecorded, hid, htells⟩ := hm m rfl
          refine ⟨hn, ?_⟩
          rintro known rest ⟨⟩
          refine ⟨⟨_, _, hlead, htells, hid⟩, fun m' hrest hknown => ?_⟩
          subst hrest
          cases hknown
          cases hlead.1
          exact hrecorded
        | none =>
          dsimp only
          have hmem : sn ∈ t₀.metadata.snapshots := List.mem_of_find?_eq_some hs
          refine Ends.bind ((steady_loadWriteFacts ht₀ hmem name).mono (fun _ h => h.1) (fun _ _ => id)
            fun _ _ => id) fun found => ?_
          cases found with
          | none => exact fun n hn => ⟨hn.1, fun _ _ h => by cases h⟩
          | some f =>
            dsimp only
            cases sn.time with
            | none => exact fun n hn => hn.1
            | some time =>
              dsimp only
              have hlead' : Wrote V rd (t₀.metadata.filesAt sn.parent) f sn.files →
                  Leads V rd t₀.metadata target sn.parent (t₀.metadata.filesAt sn.parent) ((s, time, f) :: writes) :=
                fun hf => ⟨sn, hs, hf, hfiles ▸ hlead⟩
              by_cases hover : f.written = .overwrite
              · rw [if_pos hover]
                rintro n ⟨hn, hf⟩
                refine ⟨hn, ?_⟩
                rintro known rest ⟨⟩
                refine ⟨⟨_, _, hlead' (hf f rfl), List.cons_ne_nil _ _, fun w hw happend => ?_⟩, fun _ h => by cases h⟩
                cases hw
                cases hover.symm.trans happend
              · rw [if_neg hover]
                rintro n ⟨hn, hf⟩
                exact ih (hlead' (hf f rfl)) n hn

include hU in
/-- On the way forward: each write's facts tell of its snapshot, and the last of the one they lead to. -/
theorem steady_factsForward (hR : Counts R V rd) {c : Compilation} (hc : V c)
    (hhash : c.contract.compilationHash = hash)
    {target : Int} {writes : List Pending} {at_ : Option Int} {before : List StoredFile} {known : Option Manifest}
    (hlead : Leads V rd t₀.metadata target at_ before writes) (hknown : KnownOf V rd at_ before writes known) :
    Ends (Steady V rd U n₀) (factsForward R table c writes known)
      (fun r n => Steady V rd U n₀ n ∧ ∀ m, r = some m → Tells V rd (t₀.metadata.filesAt (some target)) m ∧
        m.snapshotId = some target ∧ (writes = [] ∧ known = some m ∨ m.compilationHash = hash))
      (fun _ => Steady V rd U n₀) := by
  induction writes generalizing at_ before known with
  | nil =>
    refine fun n hn => ⟨hn, ?_⟩
    rintro m rfl
    obtain ⟨rfl, rfl⟩ := hlead
    exact ⟨hknown.1, hknown.2, .inl ⟨rfl, rfl⟩⟩
  | cons write rest ih =>
    obtain ⟨s, time, f⟩ := write
    obtain ⟨sn, hsn, hf, hrest⟩ := hlead
    unfold factsForward
    refine Ends.bind (Q := fun r n => Steady V rd U n₀ n ∧ ∀ m, r = some m → Tells V rd sn.files m ∧
      m.compilationHash = hash ∧ m.snapshotId = some s)
      (Ends.ofExcept (fun r hr n hn => ⟨hn, ?_⟩) fun _ _ _ => id) fun after => ?_
    · rintro m rfl
      have hsome : ∀ b, known = some b → Tells V rd before b := by
        rintro b rfl
        exact hknown.1
      have hnone : known = none → f.written = .append → before = [] := by
        rintro rfl
        exact hknown.2 (s, time, f) rfl
      obtain ⟨htells, hh, hid, _⟩ := tells_after hR hc hf hsome hnone hr
      exact ⟨htells, hh.trans hhash, hid⟩
    · cases after with
      | none => exact fun n hn => ⟨hn.1, fun _ h => by cases h⟩
      | some m =>
        rintro n ⟨hn, hm⟩
        obtain ⟨htells, hh, hid⟩ := hm m rfl
        have hsave := steady_saveFacts hU ht₀ hsn hid htells hh
        have hknown' : KnownOf V rd (some s) sn.files rest (some m) := ⟨htells, hid⟩
        have hnext : Ends (Steady V rd U n₀) (factsForward R table c rest (some m))
            (fun r n => Steady V rd U n₀ n ∧ ∀ m, r = some m → Tells V rd (t₀.metadata.filesAt (some target)) m ∧
              m.snapshotId = some target ∧ ((s, time, f) :: rest = [] ∧ known = some m ∨ m.compilationHash = hash))
            (fun _ => Steady V rd U n₀) := by
          refine (ih hrest hknown').mono (fun _ => id) (fun r n h => ⟨h.1, fun m' hr => ?_⟩) fun _ _ => id
          obtain ⟨htells', hid', hlast⟩ := h.2 m' hr
          refine ⟨htells', hid', .inr ?_⟩
          rcases hlast with ⟨_, hsome⟩ | hlast
          · cases hsome
            exact hh
          · exact hlast
        exact Ends.bind hsave (fun _ => hnext) n hn

include hU in
/-- What is known of a snapshot tells of its files; it is what was recorded for it, or of the compilation asked for. -/
theorem steady_icebergFacts (hR : Counts R V rd) {reg : Registered} (hc : V reg.compilation)
    (hhash : reg.compilation.contract.compilationHash = hash) (target : Int) :
    Ends (Steady V rd U n₀) (icebergFacts R table t₀.metadata target reg)
      (fun r n => Steady V rd U n₀ n ∧ ∀ m, r = some m → Tells V rd (t₀.metadata.filesAt (some target)) m ∧
        m.snapshotId = some target ∧
          (n.storage.factsAt table target reg.name = .facts m ∨ m.compilationHash = hash))
      (fun _ => Steady V rd U n₀) := by
  have hstart : Leads V rd t₀.metadata target (some target) (t₀.metadata.filesAt (some target)) [] := ⟨rfl, rfl⟩
  unfold icebergFacts
  refine Ends.bind (steady_factsBack ht₀ _ hstart) fun found => ?_
  cases found with
  | none => exact fun n hn => ⟨hn.1, fun _ h => nomatch h⟩
  | some found =>
    obtain ⟨known, rest⟩ := found
    rintro n ⟨hn, hfound⟩
    obtain ⟨⟨at_, before, hlead, hknown⟩, hown⟩ := hfound known rest rfl
    cases rest with
    | nil =>
      cases known with
      | none => exact absurd rfl hknown.1
      | some m =>
        refine ⟨hn, ?_⟩
        rintro m' ⟨⟩
        obtain ⟨rfl, rfl⟩ := hlead
        exact ⟨hknown.1, hknown.2, .inl (hown m rfl rfl)⟩
    | cons w rest =>
      refine (steady_factsForward hU ht₀ hR hc hhash hlead hknown).mono (fun _ => id)
        (fun r n h => ⟨h.1, fun m hr => ?_⟩)
        (fun _ _ => id) n hn
      obtain ⟨htells, hid, hlast⟩ := h.2 m hr
      exact ⟨htells, hid, .inr (hlast.resolve_left fun h => nomatch h.1)⟩

end Facts

/-! ## A validation of the whole data -/

/-- A snapshot of the data, where it has snapshots: the one named, or the current one. -/
def AtSnapshot (s : Storage) (l : Location) (at_ snapshotId : Option Int) : Prop :=
  match l with
  | .iceberg table => ∃ t id sn, s.tables table = some t ∧ at_.or t.metadata.current = some id ∧
      t.metadata.snapshotById id = some sn ∧ snapshotId = some id
  | .localDir _ | .object _ => True

/-- The live files at a snapshot are the snapshot's. -/
theorem AtSnapshot.files {s : Storage} {table : String} {at_ : Option Int} {t : IcebergTable} {id : Int}
    (ht : s.tables table = some t) (hid : at_.or t.metadata.current = some id) :
    liveFiles s (.iceberg table) at_ = t.metadata.filesAt (some id) := by
  unfold liveFiles
  simp only [ht, Option.map_some, hid]

/-- The snapshot asked for is found in the table. -/
theorem steady_icebergSnapshot (table name : String) (at_ : Option Int) :
    Ends (Steady V rd U n₀) (icebergSnapshot table name at_)
      (fun r n => Steady V rd U n₀ n ∧ ∃ t, n₀.storage.tables table = some t ∧ r.1 = t.metadata ∧
        at_.or t.metadata.current = some r.2)
      (fun _ => Steady V rd U n₀) := by
  unfold icebergSnapshot
  refine Ends.bind (steady_loadTable table) fun found => ?_
  cases found with
  | none => exact fun n hn => hn.1
  | some md =>
    have hfound : ∀ n, Steady V rd U n₀ n ∧ some md = (n₀.storage.tables table).map IcebergTable.metadata →
        ∃ t, n₀.storage.tables table = some t ∧ md = t.metadata := by
      rintro n ⟨_, hmd⟩
      obtain ⟨t, ht, hmeta⟩ := Option.map_eq_some_iff.1 hmd.symm
      exact ⟨t, ht, hmeta.symm⟩
    cases at_ with
    | some s =>
      dsimp only
      split
      · exact fun n hn => hn.1
      · intro n hn
        obtain ⟨t, ht, hmd⟩ := hfound n hn
        exact ⟨hn.1, t, ht, hmd, rfl⟩
    | none =>
      dsimp only
      split
      · next s hs =>
        intro n hn
        obtain ⟨t, ht, hmd⟩ := hfound n hn
        exact ⟨hn.1, t, ht, hmd, by rw [← hmd]; exact hs⟩
      · exact fun n hn => hn.1

/-- A verdict is parcel's. -/
theorem steady_validateRows (c : Compilation) (rows : Multiset Row) :
    Ends (Steady V rd U n₀) (validateRows R c rows) (fun v n => Steady V rd U n₀ n ∧ R.validate c rows = .ok v)
      (fun _ => Steady V rd U n₀) :=
  Ends.bind (steady_touch _) fun _ => Ends.ofExcept (fun _ hv _ hn => ⟨hn, hv⟩) fun _ _ _ => id

/-- A validation of the whole data finds what tells of it. -/
theorem steady_whole (hR : Counts R V rd) {c : Compilation} (hc : V c) (name : String) (l : Location)
    (at_ : Option Int) :
    Ends (Steady V rd U n₀) (whole R name c l at_)
      (fun r n => Steady V rd U n₀ n ∧ AtSnapshot n₀.storage l at_ r.1.snapshotId ∧ ∀ writtenAt decidedAt,
        Tells V rd (liveFiles n₀.storage l at_)
          (wholeManifest R.sha256 c r.1.verdict r.2 writtenAt decidedAt r.1.snapshotId))
      (fun _ => Steady V rd U n₀) := by
  have hfiles : ∀ l, Ends (Steady V rd U n₀) (do
      let files ← listFiles l
      let verdict ← validateRows R c (providedRows c.contract false files)
      let entries := files.map fun f => f.entryFor c.contract
      return (⟨verdict, dataHash R.sha256 entries, none⟩, entries) : Ask (DataVerdict × List FileEntry))
      (fun r n => Steady V rd U n₀ n ∧ ∀ writtenAt decidedAt, Tells V rd (n₀.storage.dirs l).files
        (wholeManifest R.sha256 c r.1.verdict r.2 writtenAt decidedAt r.1.snapshotId))
      (fun _ => Steady V rd U n₀) := by
    intro l
    refine Ends.bind (steady_listFiles l) fun files => ?_
    rintro n ⟨hn, rfl⟩
    refine Ends.bind (steady_validateRows c _) (fun verdict => ?_) n hn
    exact fun n hn => ⟨hn.1, fun _ _ => tells_whole hR hc hn.2 _ _ _⟩
  unfold whole
  cases l with
  | iceberg table =>
    dsimp only
    refine Ends.bind (steady_icebergSnapshot table name at_) fun found => ?_
    obtain ⟨md, snapshot⟩ := found
    rintro n ⟨hn, t, ht, hmd, hid⟩
    dsimp only at hmd hid ⊢
    subst hmd
    refine Ends.bind (Q := fun rows n => Steady V rd U n₀ n ∧
      t.metadata.provider table c.contract false snapshot = .ok rows)
      (Ends.ofExcept (fun _ h _ hn => ⟨hn, h⟩) fun _ _ _ => id) (fun rows => ?_) n hn
    rintro n ⟨hn, hrows⟩
    unfold TableMetadata.provider at hrows
    cases hsn : t.metadata.snapshotById snapshot with
    | none => rw [hsn] at hrows; cases hrows
    | some sn =>
      rw [hsn] at hrows
      dsimp only at hrows
      have hlive : liveFiles n₀.storage (.iceberg table) at_ = sn.files :=
        (AtSnapshot.files ht hid).trans (TableMetadata.filesAt_some hsn)
      split at hrows
      · cases hrows
      cases hrows
      refine Ends.bind (steady_validateRows c _) (fun verdict => ?_) n hn
      rintro n ⟨hn, hv⟩
      have hread : t.metadata.files table snapshot = .ok sn.files := by
        unfold TableMetadata.files
        rw [hsn]
      rw [hread]
      refine ⟨hn, ⟨t, snapshot, sn, ht, hid, hsn, rfl⟩, fun _ _ => ?_⟩
      rw [hlive]
      exact tells_whole hR hc hv _ _ _
  | localDir root =>
    dsimp only
    split
    · exact fun _ hn => hn
    · exact (hfiles _).mono (fun _ => id) (fun _ _ h => ⟨h.1, trivial, h.2⟩) fun _ _ => id
  | object url =>
    dsimp only
    split
    · exact fun _ hn => hn
    · exact (hfiles _).mono (fun _ => id) (fun _ _ h => ⟨h.1, trivial, h.2⟩) fun _ _ => id

/-- What a validation records, the engine remembers: of an object store, and of a table's current snapshot. -/
def Remembers (s : Storage) (l : Location) (name : String) (m : Manifest) (e : Engine) : Prop :=
  match l with
  | .localDir _ => True
  | .object _ => e.objectManifests name = some m
  | .iceberg table => ∀ t, s.tables table = some t → t.metadata.current = m.snapshotId →
      e.icebergManifests name = some m

include hU in
/-- A manifest that tells of the files is recorded where they are. -/
theorem steady_record {l : Location} {at_ : Option Int} {m : Manifest} (name : String)
    (hm : Tells V rd (liveFiles n₀.storage l at_) m) (hat : AtSnapshot n₀.storage l at_ m.snapshotId)
    (hh : m.compilationHash = hash) :
    Ends (Steady V rd U n₀) (record name l m)
      (fun _ n => Steady V rd U n₀ n ∧ Remembers n₀.storage l name m n.engine) (fun _ => Steady V rd U n₀) := by
  unfold record
  cases l with
  | localDir root =>
    exact (steady_saveManifest hU hm hh).mono (fun _ => id) (fun _ _ h => ⟨h, trivial⟩) fun _ _ => id
  | object url =>
    refine Ends.bind (steady_saveManifest hU hm hh) fun _ n hn => ⟨hn.remember rfl rfl rfl, ?_⟩
    exact Lookup.insert_self ..
  | iceberg table =>
    obtain ⟨t, id, sn, ht, hid, hsn, hsnap⟩ := hat
    have htells : Tells V rd sn.files m := by
      rw [AtSnapshot.files ht hid, TableMetadata.filesAt_some hsn] at hm
      exact hm
    dsimp only
    refine Ends.bind (steady_icebergSnapshot table name m.snapshotId) fun found => ?_
    obtain ⟨md, snapshot⟩ := found
    rintro n ⟨hn, t', ht', hmd, hid'⟩
    cases ht.symm.trans ht'
    dsimp only at hmd hid' ⊢
    subst hmd
    have hsnapshot : snapshot = id := by
      rw [hsnap] at hid'
      exact (Option.some.inj hid').symm
    subst hsnapshot
    refine Ends.bind (steady_saveFacts hU ht hsn hsnap htells hh) (fun _ => ?_) n hn
    split
    · intro n hn
      exact ⟨hn.remember rfl rfl rfl, fun _ _ _ => Lookup.insert_self ..⟩
    · next hcur =>
      refine fun n hn => ⟨hn, fun t'' ht'' hc => ?_⟩
      cases ht.symm.trans ht''
      exact absurd (hc.trans hsnap) hcur

/-- What `refresh` gives of a contract's data. -/
structure Refreshed (V : Compilation → Prop) (rd : Compilation → Reading) (s : Storage) (l : Location)
    (at_ : Option Int) (hash name : String) (m : Manifest) (e : Engine) : Prop where
  tells : Tells V rd (liveFiles s l at_) m
  computed : m.compilationHash = hash
  atSnapshot : AtSnapshot s l at_ m.snapshotId
  remembers : Remembers s l name m e

include hU in
/-- A validation records what tells of the files it read. -/
theorem steady_refresh (hR : Counts R V rd) {reg : Registered} (hc : V reg.compilation)
    (hhash : reg.compilation.contract.compilationHash = hash) {name : String} {l : Location}
    (hreg : n₀.engine.get name = .ok reg) (hl : n₀.engine.bound reg = .ok (.files l)) (at_ : Option Int) :
    Ends (Steady V rd U n₀) (refresh R name at_)
      (fun r n => Steady V rd U n₀ n ∧ Refreshed V rd n₀.storage l at_ hash name r.2 n.engine)
      (fun _ => Steady V rd U n₀) := by
  unfold refresh
  refine Ends.bind (Q := fun _ => Steady V rd U n₀) (fun _ hn => hn) fun writtenAt => ?_
  refine Ends.bind (steady_get name) fun found => ?_
  rintro n ⟨hn, hfound⟩
  cases hreg.symm.trans hfound
  refine Ends.bind (steady_bound reg) (fun b => ?_) n hn
  rintro n ⟨hn, hb⟩
  cases hl.symm.trans hb
  dsimp only
  refine Ends.bind (steady_whole hR hc name l at_) (fun found => ?_) n hn
  obtain ⟨verdict, files⟩ := found
  rintro n ⟨hn, hat, htells⟩
  dsimp only at hat htells ⊢
  refine Ends.bind (Q := fun _ => Steady V rd U n₀) (fun _ hn => hn) (fun decidedAt => ?_) n hn
  refine Ends.bind (steady_record hU name (htells writtenAt decidedAt) hat hhash) fun _ n hn => ?_
  exact ⟨hn.1, htells writtenAt decidedAt, hhash, hat, hn.2⟩

/-! ## Resolving -/

/-- What is watched of a contract's data while it is resolved: `W` holds of what was recorded for it, and of what the
call computes. -/
structure Watches (U : Storage → Prop) (W : Manifest → Prop) (l : Location) (at_ : Option Int) (name hash : String) :
    Prop where
  saves : Saves U hash
  recorded : ∀ s m, U s → recordedFor s l at_ name = .facts m → W m
  computed : ∀ m, m.compilationHash = hash → W m

/-- What the engine remembers of an object store from which data and manifest are gone is no manifest. -/
def Unremembered (n : Node) (l : Location) (name : String) : Prop :=
  match l with
  | .object _ => (n.storage.dirs l).loadObject name = .ok none → (n.storage.dirs l).files = [] →
      n.engine.objectManifests name = none
  | .localDir _ | .iceberg _ => True

/-- The snapshot a manifest is of: the one named, or the current one. -/
def SnapshotIs (s : Storage) (l : Location) (at_ snapshotId : Option Int) : Prop :=
  match l with
  | .iceberg table => ∃ t id, s.tables table = some t ∧ at_.or t.metadata.current = some id ∧ snapshotId = some id
  | .localDir _ | .object _ => True

/-- A manifest at a snapshot is of it. -/
theorem AtSnapshot.is {s : Storage} {l : Location} {at_ snapshotId : Option Int} (h : AtSnapshot s l at_ snapshotId) :
    SnapshotIs s l at_ snapshotId := by
  cases l with
  | iceberg table =>
    obtain ⟨t, id, _, ht, hid, _, hsnap⟩ := h
    exact ⟨t, id, ht, hid, hsnap⟩
  | localDir root => exact trivial
  | object url => exact trivial

/-- The files of the snapshot a manifest is of are those a read of it is of. -/
theorem SnapshotIs.liveFiles {s : Storage} {l : Location} {at_ snapshotId : Option Int}
    (h : SnapshotIs s l at_ snapshotId) : liveFiles s l snapshotId = Peql.liveFiles s l at_ := by
  cases l with
  | localDir root => rfl
  | object url => rfl
  | iceberg table =>
    obtain ⟨t, id, ht, hid, rfl⟩ := h
    unfold Peql.liveFiles
    simp only [ht, Option.map_some, hid, Option.some_or]

/-- A manifest that tells of the data read, and of which `W` holds. -/
structure Decides (V : Compilation → Prop) (rd : Compilation → Reading) (W : Manifest → Prop) (s : Storage)
    (l : Location) (at_ : Option Int) (m : Manifest) : Prop where
  tells : Tells V rd (liveFiles s l at_) m
  snapshot : SnapshotIs s l at_ m.snapshotId
  watched : W m

/-- Whatever the engine now remembers of a contract's data decides a read of it. -/
def RememberedOf (V : Compilation → Prop) (rd : Compilation → Reading) (W : Manifest → Prop) (s : Storage)
    (l : Location) (name : String) (e : Engine) : Prop :=
  match l with
  | .localDir _ => True
  | .object _ => ∀ m, e.objectManifests name = some m → Decides V rd W s l none m
  | .iceberg _ => ∀ m, e.icebergManifests name = some m → Decides V rd W s l none m

variable {W : Manifest → Prop} {l : Location} {at_ : Option Int} {reg : Registered} {name : String}

/-- A load of a manifest in an object store changes neither the engine nor the storage. -/
theorem loadObject_asBefore (n₀ : Node) (l : Location) (name : String) :
    Ends (fun n => n.engine = n₀.engine ∧ n.storage = n₀.storage) (loadObject l name)
      (fun found n => (n.engine = n₀.engine ∧ n.storage = n₀.storage) ∧
        (n₀.storage.dirs l).loadObject name = .ok found) (fun _ _ => True) := by
  have htouch : Ends (fun n : Node => n.engine = n₀.engine ∧ n.storage = n₀.storage)
      (Ask.touchRead name fun s => (s.dirs l).recorded name)
      (fun _ n => n.engine = n₀.engine ∧ n.storage = n₀.storage) (fun _ _ => True) := by
    intro n hn
    have hleft : ∀ (absent : Bool) (n' : Node), n' = (if absent then n else
        { n with touched := n.touched ++ [.manifestRead name] }) →
        n'.engine = n₀.engine ∧ n'.storage = n₀.storage := by
      rintro absent _ rfl
      cases absent with
      | true => exact hn
      | false => exact hn
    exact hleft _ _ rfl
  refine Ends.bind htouch fun _ n hn => ?_
  rw [Ask.storage_apply, hn.2]
  cases (n₀.storage.dirs l).loadObject name with
  | ok found => exact ⟨hn, rfl⟩
  | error e => trivial

theorem steady_loadObjectFrom (l : Location) (name : String) :
    Ends (fun n => Steady V rd U n₀ n ∧ n.engine = n₀.engine ∧ n.storage = n₀.storage) (loadObject l name)
      (fun known n => LoadedBeside V rd U n₀ l name known n ∧ (n.engine = n₀.engine ∧ n.storage = n₀.storage) ∧
        (n₀.storage.dirs l).loadObject name = .ok known)
      (fun _ => Steady V rd U n₀) :=
  ((steady_loadObject l name).and (loadObject_asBefore n₀ l name)).mono (fun _ => id) (fun _ _ => id) fun _ _ h => h.1

/-- What is recorded beside files is watched. -/
theorem Watches.recordedBeside (hW : Watches U W l at_ name hash) (hl : ∀ table, l ≠ .iceberg table) {s : Storage}
    (hs : U s) {m : Manifest} (hm : (s.dirs l).recorded name = .facts m) : W m := by
  refine hW.recorded s m hs ?_
  cases l with
  | iceberg table => exact absurd rfl (hl table)
  | localDir root => exact hm
  | object url => exact hm

/-- So is what is recorded of a snapshot. -/
theorem Watches.recordedAt {table : String} (hW : Watches U W (.iceberg table) at_ name hash) {s : Storage} (hs : U s)
    {t : IcebergTable} (ht : s.tables table = some t) {snapshot : Int} (hat : at_.or t.metadata.current = some snapshot)
    {m : Manifest} (hm : s.factsAt table snapshot name = .facts m) : W m := by
  refine hW.recorded s m hs ?_
  unfold Storage.factsAt at hm
  unfold recordedFor
  simp only [ht, hat] at hm ⊢
  exact hm

/-- `ensure_manifest` sees to it that what the engine remembers of a contract's data decides a read of it. -/
theorem steady_ensureManifest (hR : Counts R V rd) (hW : Watches U W l none name hash) (hc : V reg.compilation)
    (hhash : reg.compilation.contract.compilationHash = hash) (hname : reg.name = name)
    (hreg : n₀.engine.get name = .ok reg) (hl : n₀.engine.bound reg = .ok (.files l))
    (hun : Unremembered n₀ l name) (htold : Steady V rd U n₀ n₀) :
    Ends (fun n => n = n₀) (ensureManifest R name)
      (fun _ n => Steady V rd U n₀ n ∧ RememberedOf V rd W n₀.storage l name n.engine) (fun _ => Steady V rd U n₀) := by
  have hrefresh : ∀ at_, Ends (Steady V rd U n₀) (do
      let _ ← refresh R name at_
      pure () : Ask Unit)
      (fun _ n => Steady V rd U n₀ n ∧ ∃ m, Refreshed V rd n₀.storage l at_ hash name m n.engine)
      (fun _ => Steady V rd U n₀) := fun at_ =>
    Ends.bind (steady_refresh hW.saves hR hc hhash hreg hl at_) fun r n hn => ⟨hn.1, r.2, hn.2⟩
  rintro n rfl
  unfold ensureManifest
  rw [bind_apply, Ask.engine_apply, hreg]
  dsimp only
  rw [bind_apply, Ask.engine_apply, hl]
  cases l with
  | localDir root =>
    dsimp only
    refine Ends.bind (steady_loadLocal _ _) (fun known => ?_) n htold
    refine Ends.bind ((steady_listFiles _).mono (fun _ h => h.1) (fun _ _ h => h.1) fun _ _ => id) fun files => ?_
    split
    · exact fun _ hn => ⟨hn, trivial⟩
    · exact (hrefresh none).mono (fun _ => id) (fun _ _ h => ⟨h.1, trivial⟩) fun _ _ => id
  | object url =>
    dsimp only
    refine Ends.bind (steady_loadObjectFrom (.object url) name) (fun known => ?_) n ⟨htold, rfl, rfl⟩
    cases known with
    | some m =>
      rintro n' ⟨⟨hn', hm⟩, _⟩
      obtain ⟨hrecorded, htells⟩ := hm m rfl
      refine ⟨hn'.remember rfl rfl rfl, fun m' hm' => ?_⟩
      obtain rfl := Option.some.inj ((Lookup.insert_self ..).symm.trans hm')
      exact ⟨htells, trivial, hW.recordedBeside (fun _ h => nomatch h) hn'.watched hrecorded⟩
    | none =>
      rintro n' ⟨⟨hn', _⟩, ⟨hengine, hstorage⟩, hnone⟩
      have hlist : listFiles (.object url) n' = .ok (n'.storage.dirs (.object url)).files n' := rfl
      dsimp only
      rw [bind_apply, hlist]
      dsimp only
      by_cases hempty : (n'.storage.dirs (.object url)).files.isEmpty
      · rw [if_pos hempty]
        refine ⟨hn', fun m' hm' => ?_⟩
        rw [hstorage] at hempty
        rw [hengine, hun hnone (List.isEmpty_iff.1 hempty)] at hm'
        cases hm'
      · rw [if_neg hempty]
        refine (hrefresh none).mono (fun _ => id) (fun _ n hn => ?_) (fun _ _ => id) n' hn'
        obtain ⟨hn, m, hm⟩ := hn
        refine ⟨hn, fun m' hm' => ?_⟩
        obtain rfl := Option.some.inj (hm.remembers.symm.trans hm')
        exact ⟨hm.tells, trivial, hW.computed _ hm.computed⟩
  | iceberg table =>
    dsimp only
    refine Ends.bind (steady_loadTable table) (fun found => ?_) n htold
    rintro n' ⟨hn', rfl⟩
    cases ht : n.storage.tables table with
    | none => exact ⟨hn'.remember rfl rfl rfl, fun m' hm' => nomatch (Lookup.erase_self ..).symm.trans hm'⟩
    | some t =>
      cases hcur : t.metadata.current with
      | none =>
        simp only [Option.map_some, Option.bind_some, hcur, Option.map_none]
        exact ⟨hn'.remember rfl rfl rfl, fun m' hm' => nomatch (Lookup.erase_self ..).symm.trans hm'⟩
      | some s =>
        simp only [Option.map_some, Option.bind_some, hcur]
        have hlive : liveFiles n.storage (.iceberg table) none = t.metadata.filesAt (some s) :=
          AtSnapshot.files ht hcur
        refine Ends.bind (steady_icebergFacts hW.saves ht hR hc hhash s) (fun found => ?_) n' hn'
        cases found with
        | some m =>
          rintro n'' ⟨hn'', hm⟩
          obtain ⟨htells, hid, hknown⟩ := hm m rfl
          refine ⟨hn''.remember rfl rfl rfl, fun m' hm' => ?_⟩
          obtain rfl := Option.some.inj ((Lookup.insert_self ..).symm.trans hm')
          refine ⟨hlive ▸ htells, ⟨t, s, ht, hcur, hid⟩, ?_⟩
          rcases hknown with hrecorded | hcomputed
          · obtain ⟨t', ht', hmeta⟩ := hn''.found ht
            have hat : (none : Option Int).or t'.metadata.current = some s := by rw [hmeta]; exact hcur
            exact hW.recordedAt hn''.watched ht' hat (hname ▸ hrecorded)
          · exact hW.computed _ hcomputed
        | none =>
          dsimp only
          refine (hrefresh (some s)).mono (fun _ h => h.1) (fun _ n₁ hn₁ => ?_) fun _ _ => id
          obtain ⟨hn₁, m, hm⟩ := hn₁
          refine ⟨hn₁, fun m' hm' => ?_⟩
          obtain ⟨t', id, sn, ht', hid, _, hsnap⟩ := hm.atSnapshot
          cases ht.symm.trans ht'
          cases hid
          have hremembered := hm.remembers t ht (hcur.trans hsnap.symm)
          obtain rfl := Option.some.inj (hremembered.symm.trans hm')
          refine ⟨?_, ⟨t, s, ht, hcur, hsnap⟩, hW.computed _ hm.computed⟩
          have hnamed : liveFiles n.storage (.iceberg table) (some s) = t.metadata.filesAt (some s) :=
            AtSnapshot.files ht rfl
          have htells := hm.tells
          rw [hnamed] at htells
          rw [hlive]
          exact htells

end Peql
