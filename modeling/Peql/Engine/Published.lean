import Peql.Engine.History

/-!
# What a finished write leaves

`finish_write` of a write whose files and id are its own: the data becomes what the write makes of it, in one step, and
what is recorded afterwards tells of the data (`finishWrite_ends`). Under a directory or a prefix every manifest there
is recorded again or removed; of a table, the write's facts are recorded first, under an id that no snapshot has yet,
and say what the snapshot did once it is committed.
-/

namespace Peql

open Effects

variable {R : Runtime} {V : Compilation → Prop} {rd : Compilation → Reading} {n₀ : Node}

/-- A table changed where it was set is the table changed. -/
theorem changeTable_setTable (s : Storage) (table : String) (t : IcebergTable) (f : IcebergTable → IcebergTable) :
    (s.setTable table t).changeTable table f = s.setTable table (f t) := by
  unfold Storage.changeTable
  rw [Storage.setTable_self]
  unfold Storage.setTable
  dsimp only
  rw [Function.update_idem]

theorem setTable_eq_self {s : Storage} {table : String} {t : IcebergTable} (h : s.tables table = some t) :
    s.setTable table t = s := by
  unfold Storage.setTable
  rw [← h, Function.update_eq_self]

/-- Another table's data, and that of directories and prefixes, is not the table's. -/
theorem liveFiles_setTable_of_ne {s : Storage} {l : Location} {table : String} (hl : l ≠ .iceberg table)
    (t : IcebergTable) (at_ : Option Int) : liveFiles (s.setTable table t) l at_ = liveFiles s l at_ := by
  unfold liveFiles
  cases l with
  | localDir root => rfl
  | object url => rfl
  | iceberg table' =>
    have hne : table' ≠ table := fun h => hl (by rw [h])
    dsimp only
    rw [Storage.setTable_of_ne _ hne]

/-- Facts saved leave the live files. -/
theorem liveFiles_setTable {s : Storage} {table : String} {t t' : IcebergTable} (ht : s.tables table = some t)
    (hm : t'.metadata = t.metadata) (l : Location) (at_ : Option Int) :
    liveFiles (s.setTable table t') l at_ = liveFiles s l at_ := by
  by_cases hl : l = .iceberg table
  · subst hl
    unfold liveFiles
    dsimp only
    rw [Storage.setTable_self, ht, Option.map_some, Option.map_some, hm]
  · exact liveFiles_setTable_of_ne hl t' at_

/-- A table whose current files are those it had. -/
theorem liveFiles_setTable_same {s : Storage} {table : String} {t : IcebergTable}
    (h : t.metadata.filesAt t.metadata.current = liveFiles s (.iceberg table) none) (l : Location) :
    liveFiles (s.setTable table t) l none = liveFiles s l none := by
  by_cases hl : l = .iceberg table
  · subst hl
    rw [← h]
    unfold liveFiles
    dsimp only
    rw [Storage.setTable_self]
    rfl
  · exact liveFiles_setTable_of_ne hl t none

/-! ## What a write knows before it publishes -/

/-- Nothing of the engine or the storage has changed. -/
structure AsWas (n₀ n : Node) : Prop where
  engine : n.engine = n₀.engine
  storage : n.storage = n₀.storage

theorem asWas_touch (t : Touch) : Effects.Keeps (AsWas n₀) (Ask.touch t) := Effects.Keeps.write fun _ h => ⟨h.1, h.2⟩

theorem asWas_touchRead {α : Type} (contract : String) (recorded : Storage → Recorded α) :
    Effects.Keeps (AsWas n₀) (Ask.touchRead contract recorded) := Effects.Keeps.write fun _ h => by
  split
  · exact h
  · exact ⟨h.1, h.2⟩

/-- Reading storage leaves it as it was. -/
theorem asWas_storage {α : Type} (f : Storage → Except PeqlError α) :
    Ends (AsWas n₀) (Ask.storage f) (fun a n => AsWas n₀ n ∧ f n₀.storage = .ok a) (fun _ => AsWas n₀) := by
  intro n hn
  rw [Ask.storage_apply, hn.storage]
  cases hf : f n₀.storage with
  | ok a => exact ⟨hn, rfl⟩
  | error e => exact hn

/-- A manifest loaded from beside the files is the one recorded there. -/
theorem asWas_loadLocal (l : Location) (name : String) :
    Ends (AsWas n₀) (loadLocal l name)
      (fun known n => AsWas n₀ n ∧ ∀ m, known = some m → (n₀.storage.dirs l).recorded name = .facts m)
      (fun _ => AsWas n₀) := by
  refine Ends.bind (asWas_touchRead _ _) fun _ => ?_
  refine (asWas_storage _).mono (fun _ => id) (fun known n h => ⟨h.1, ?_⟩) fun _ _ => id
  rintro m rfl
  exact Dir.load_facts h.2

/-- A manifest loaded from an object store is the one recorded or the one remembered. -/
theorem asWas_loadObject (l : Location) (name : String) :
    Ends (AsWas n₀) (loadObject l name)
      (fun known n => AsWas n₀ n ∧ ∀ m, known = some m → (n₀.storage.dirs l).recorded name = .facts m)
      (fun _ => AsWas n₀) := by
  refine Ends.bind (asWas_touchRead _ _) fun _ => ?_
  refine (asWas_storage _).mono (fun _ => id) (fun known n h => ⟨h.1, ?_⟩) fun _ _ => id
  rintro m rfl
  exact Dir.loadObject_facts h.2

namespace Begun

variable (w : Begun)

/-- Facts of the write's own files, under a contract. -/
structure OwnFacts (V : Compilation → Prop) (rd : Compilation → Reading) (b : Registered × WriteFacts) : Prop where
  compiled : V b.1.compilation
  written : b.2.written = w.written
  removed : b.2.removed = w.removed
  contract : b.2.facts.contract = b.1.name
  tells : Tells V rd w.files b.2.facts

variable {w}

/-- A write's facts tell of its own files. -/
theorem writeFacts_ends (hR : Counts R V rd) {reg : Registered} (hc : V reg.compilation) (writtenAt : Int) :
    Ends (AsWas n₀) (w.writeFacts R reg.compilation writtenAt)
      (fun r n => AsWas n₀ n ∧ w.OwnFacts V rd (reg, r.2)) (fun _ => AsWas n₀) := by
  have hvalidate : Ends (AsWas n₀)
      (validateRows R reg.compilation (providedRows reg.compilation.contract false w.files))
      (fun v n => AsWas n₀ n ∧
        R.validate reg.compilation (providedRows reg.compilation.contract false w.files) = .ok v)
      (fun _ => AsWas n₀) :=
    Ends.bind (asWas_touch _) fun _ => Ends.ofExcept (fun _ hv _ hn => ⟨hn, hv⟩) fun _ _ _ => id
  refine Ends.bind hvalidate fun verdict n hn => ⟨hn.1, ?_⟩
  exact ⟨hc, rfl, rfl, rfl, tells_own hR hc hn.2 writtenAt⟩

/-- So they do under every contract bound to the data. -/
theorem factsUnder_ends (hR : Counts R V rd) (writtenAt : Int) {regs : List Registered}
    (hregs : ∀ reg ∈ regs, V reg.compilation) :
    Ends (AsWas n₀) (w.factsUnder R writtenAt regs)
      (fun bs n => AsWas n₀ n ∧ bs.map Prod.fst = regs ∧ ∀ b ∈ bs, w.OwnFacts V rd b) (fun _ => AsWas n₀) := by
  induction regs with
  | nil => exact fun n hn => ⟨hn, rfl, fun _ hb => by cases hb⟩
  | cons reg rest ih =>
    unfold factsUnder
    refine Ends.bind (writeFacts_ends hR (hregs reg (List.mem_cons_self ..)) writtenAt) fun r => ?_
    rintro n ⟨hn, hown⟩
    refine Ends.bind (ih fun reg' hr => hregs reg' (List.mem_cons_of_mem _ hr)) (fun bs m hm => ?_) n hn
    obtain ⟨hm, hmap, hbs⟩ := hm
    exact ⟨hm, by rw [List.map_cons, hmap], List.forall_mem_cons.2 ⟨hown, hbs⟩⟩

/-! ## Files in a directory, or under a prefix -/

/-- What is known of some files before the write: a manifest that tells of them, or, for an append that finds none,
that there are none. -/
def KnownOfFiles (w : Begun) (V : Compilation → Prop) (rd : Compilation → Reading) (files : List StoredFile) :
    Before → Prop
  | some (some m) => Tells V rd files m
  | some none => w.written = .append → files = []
  | none => True

/-- What is known before is of the files before. -/
theorem knownBefore_ends (htold : Told V rd n₀.storage) (reg : Registered) :
    Ends (AsWas n₀) (w.knownBefore reg)
      (fun before n => AsWas n₀ n ∧ w.KnownOfFiles V rd (n₀.storage.dirs w.location).files before)
      (fun _ => AsWas n₀) := by
  generalize hl : w.location = l
  -- a manifest found is what is known, and otherwise the files are listed
  have hnext : ∀ {load : Ask (Option Manifest)} {next : Option Manifest → Ask Before},
      Ends (AsWas n₀) load
        (fun known n => AsWas n₀ n ∧ ∀ m, known = some m → (n₀.storage.dirs l).recorded reg.name = .facts m)
        (fun _ => AsWas n₀) →
      (∀ m, next (some m) = pure (some (some m))) →
      (next none = do
        let files ← listFiles l
        pure (if files.isEmpty then some none else none)) →
      Ends (AsWas n₀) (load >>= next)
        (fun before n => AsWas n₀ n ∧ w.KnownOfFiles V rd (n₀.storage.dirs l).files before) (fun _ => AsWas n₀) := by
    intro load next hload hsome hnone
    refine Ends.bind hload fun known => ?_
    cases known with
    | some m =>
      rw [hsome]
      exact fun n hn => ⟨hn.1, htold.beside _ _ m (hn.2 m rfl)⟩
    | none =>
      rw [hnone]
      refine Ends.bind ((asWas_storage _).mono (fun _ h => h.1) (fun _ _ => id) fun _ _ => id) fun files => ?_
      rintro n ⟨hn, hfiles⟩
      obtain rfl := Except.ok.inj hfiles
      by_cases hempty : (n₀.storage.dirs l).files.isEmpty
      · rw [if_pos hempty]
        exact ⟨hn, fun _ => List.isEmpty_iff.1 hempty⟩
      · rw [if_neg hempty]
        exact ⟨hn, trivial⟩
  unfold knownBefore
  rw [hl]
  cases hw : w.written with
  | overwrite => exact fun n hn => ⟨hn, fun h => by cases hw.symm.trans h⟩
  | append | rewrite =>
    cases l with
    | object url => exact hnext (asWas_loadObject _ _) (fun _ => rfl) rfl
    | localDir root => exact hnext (asWas_loadLocal _ _) (fun _ => rfl) rfl
    | iceberg table => exact hnext (asWas_loadLocal _ _) (fun _ => rfl) rfl

/-- So it is for every contract. -/
theorem knownBefores_ends (htold : Told V rd n₀.storage) (bound : List (Registered × WriteFacts)) :
    Ends (AsWas n₀) (w.knownBefores bound)
      (fun known n => AsWas n₀ n ∧ known.map Prod.fst = bound ∧
        ∀ x ∈ known, w.KnownOfFiles V rd (n₀.storage.dirs w.location).files x.2)
      (fun _ => AsWas n₀) := by
  induction bound with
  | nil => exact fun n hn => ⟨hn, rfl, fun _ hx => by cases hx⟩
  | cons b rest ih =>
    unfold knownBefores
    refine Ends.bind (knownBefore_ends htold b.1) fun before => ?_
    rintro n ⟨hn, hknown⟩
    refine Ends.bind ih (fun known m hm => ?_) n hn
    obtain ⟨hm, hmap, hall⟩ := hm
    exact ⟨hm, by rw [List.map_cons, hmap], List.forall_mem_cons.2 ⟨hknown, hall⟩⟩

/-- A write that replaces no files it names has facts after it, or none, whatever was known before. -/
theorem factsAfter_tells (hR : Counts R V rd) (hdata : w.written ≠ .rewrite) {b : Registered × WriteFacts}
    (hb : w.OwnFacts V rd b) {files : List StoredFile} {before : Before} (hknown : w.KnownOfFiles V rd files before)
    (writtenAt : Int) :
    ∃ after, factsAfter R b.1 b.2 writtenAt before = .ok after ∧
      ∀ m, after = some m → Tells V rd (w.filesOver files) m ∧ m.contract = b.1.name := by
  have hwrote : Wrote V rd files b.2 (w.filesOver files) := by
    unfold filesOver
    cases hw : w.written with
    | append => exact .append (hb.written.trans hw) hb.tells
    | overwrite => exact .overwrite (hb.written.trans hw) hb.tells
    | rewrite => exact absurd hw hdata
  cases before with
  | none => exact ⟨none, rfl, fun _ h => by cases h⟩
  | some known =>
    have hok : ∃ after, afterWrite R.sha256 R.parsers b.1.compilation known b.2 writtenAt none = .ok after := by
      unfold afterWrite
      rw [hb.written]
      dsimp only
      split
      · exact ⟨_, rfl⟩
      cases hw : w.written with
      | overwrite => exact ⟨_, rfl⟩
      | append =>
        cases known with
        | none => exact ⟨_, rfl⟩
        | some m =>
          dsimp only
          split
          · exact ⟨_, rfl⟩
          · exact ⟨_, rfl⟩
      | rewrite => exact absurd hw hdata
    obtain ⟨after, hafter⟩ := hok
    refine ⟨after, hafter, ?_⟩
    rintro m rfl
    have hsome : ∀ m', known = some m' → Tells V rd files m' := by
      rintro m' rfl
      exact hknown
    have hnone : known = none → b.2.written = .append → files = [] := by
      rintro rfl happend
      exact hknown (hb.written.symm.trans happend)
    obtain ⟨htells, _, _, hcontract⟩ := tells_after hR hb.compiled hwrote hsome hnone hafter
    exact ⟨htells, (hcontract (hb.written.symm ▸ hdata)).trans hb.contract⟩

/-- The files of a directory are `new`, and what is recorded beside them tells of them, but under the contracts still to
be recorded. -/
structure Recording (w : Begun) (V : Compilation → Prop) (rd : Compilation → Reading) (n₀ : Node)
    (new : List StoredFile) (todo : List Registered) (n : Node) : Prop where
  store : n.engine.store = n₀.engine.store
  location : n.engine.location = n₀.engine.location
  tables : n.engine.tables = n₀.engine.tables
  storageTables : n.storage.tables = n₀.storage.tables
  elsewhere : ∀ l, l ≠ w.location → n.storage.dirs l = n₀.storage.dirs l
  files : (n.storage.dirs w.location).files = new
  recorded : ∀ file m, (n.storage.dirs w.location).manifests file = .facts m →
    (∃ reg ∈ todo, manifestFile reg.name = file) ∨ Tells V rd new m

variable {new : List StoredFile} {todo : List Registered} {n : Node}

/-- Remembering a manifest records nothing. -/
theorem Recording.remember (h : Recording w V rd n₀ new todo n) {e : Engine} (hstore : e.store = n.engine.store)
    (hlocation : e.location = n.engine.location) (htables : e.tables = n.engine.tables) :
    Recording w V rd n₀ new todo { n with engine := e } :=
  ⟨hstore.trans h.store, hlocation.trans h.location, htables.trans h.tables, h.storageTables, h.elsewhere, h.files,
    h.recorded⟩

/-- A contract's manifest after the write is put in place, or what it had is removed. -/
theorem Recording.setDir {reg : Registered} (h : Recording w V rd n₀ new (reg :: todo) n) {d : Dir StoredFile}
    (hfiles : d.files = (n.storage.dirs w.location).files)
    (hothers : ∀ file, file ≠ manifestFile reg.name → d.manifests file = (n.storage.dirs w.location).manifests file)
    (hown : ∀ m, d.manifests (manifestFile reg.name) = .facts m → Tells V rd new m) :
    Recording w V rd n₀ new todo { n with storage := n.storage.setDir w.location d } where
  store := h.store
  location := h.location
  tables := h.tables
  storageTables := h.storageTables
  elsewhere l hl := (Storage.setDir_of_ne _ hl d).trans (h.elsewhere l hl)
  files := by
    show ((n.storage.setDir w.location d).dirs w.location).files = new
    rw [Storage.setDir_self, hfiles, h.files]
  recorded file m hm := by
    change ((n.storage.setDir w.location d).dirs w.location).manifests file = .facts m at hm
    rw [Storage.setDir_self] at hm
    by_cases hfile : file = manifestFile reg.name
    · subst hfile
      exact .inr (hown m hm)
    · rw [hothers file hfile] at hm
      rcases h.recorded file m hm with ⟨reg', hreg', hname⟩ | htells
      · rcases List.mem_cons.1 hreg' with rfl | hreg'
        · exact absurd hname.symm hfile
        · exact .inl ⟨reg', hreg', hname⟩
      · exact .inr htells

/-- One contract's facts are recorded, or removed. -/
theorem recordAfter_ends {reg : Registered} {after : Option Manifest}
    (hafter : ∀ m, after = some m → Tells V rd new m ∧ m.contract = reg.name) :
    Ends (Recording w V rd n₀ new (reg :: todo)) (w.recordAfter reg.name after)
      (fun _ => Recording w V rd n₀ new todo) (fun _ _ => False) := by
  generalize hl : w.location = l
  unfold recordAfter
  rw [hl]
  cases after with
  | some m =>
    obtain ⟨htells, hcontract⟩ := hafter m rfl
    have hsave : Ends (Recording w V rd n₀ new (reg :: todo)) (saveManifest l m)
        (fun _ => Recording w V rd n₀ new todo) (fun _ _ => False) := by
      refine Ends.bind (Q := fun _ => Recording w V rd n₀ new (reg :: todo)) (fun n hn => ?_) fun _ n hn => ?_
      · exact ⟨hn.store, hn.location, hn.tables, hn.storageTables, hn.elsewhere, hn.files, hn.recorded⟩
      · subst hl
        refine hn.setDir rfl (fun file hfile => Dir.manifests_save_of_ne _ _ (hcontract.symm ▸ hfile)) fun m' hm' => ?_
        have hself : Recorded.facts m = .facts m' := by
          rw [← hm', ← hcontract]
          exact (Dir.recorded_save_self _ m).symm
        obtain rfl := Recorded.facts.inj hself
        exact htells
    cases l with
    | object url => exact Ends.bind hsave fun _ _ hn => hn.remember rfl rfl rfl
    | localDir root => exact Ends.bind hsave fun _ _ hn => hn
    | iceberg table => exact Ends.bind hsave fun _ _ hn => hn
  | none =>
    have hremove : Ends (Recording w V rd n₀ new (reg :: todo))
        (Ask.store fun s => s.setDir l ((s.dirs l).remove reg.name))
        (fun _ => Recording w V rd n₀ new todo) (fun _ _ => False) := fun n hn => by
      subst hl
      refine hn.setDir rfl (fun file hfile => Dir.manifests_remove_of_ne _ _ hfile) fun m hm => ?_
      have habsent : (((n.storage.dirs w.location).remove reg.name).manifests (manifestFile reg.name)) = .absent :=
        Function.update_self ..
      cases habsent.symm.trans hm
    cases l with
    | object url => exact Ends.bind hremove fun _ _ hn => hn.remember rfl rfl rfl
    | localDir root => exact Ends.bind hremove fun _ _ hn => hn
    | iceberg table => exact Ends.bind hremove fun _ _ hn => hn

/-- All of them are. -/
theorem recordAll_ends (hR : Counts R V rd) (hdata : w.written ≠ .rewrite) {files : List StoredFile} (writtenAt : Int)
    {known : List ((Registered × WriteFacts) × Before)} (own : Option Manifest)
    (hknown : ∀ x ∈ known, w.OwnFacts V rd x.1 ∧ w.KnownOfFiles V rd files x.2) :
    Ends (Recording w V rd n₀ (w.filesOver files) (known.map fun x => x.1.1)) (w.recordAll R writtenAt known own)
      (fun _ => Recording w V rd n₀ (w.filesOver files) []) (fun _ _ => False) := by
  induction known generalizing own with
  | nil => exact fun n hn => hn
  | cons x rest ih =>
    obtain ⟨⟨reg, facts⟩, before⟩ := x
    obtain ⟨⟨hfacts, hbefore⟩, hrest⟩ := List.forall_mem_cons.1 hknown
    obtain ⟨after, hafter, htells⟩ := factsAfter_tells hR hdata hfacts hbefore writtenAt
    rw [List.map_cons]
    unfold recordAll
    refine Ends.bind (Q := fun a n => a = after ∧
      Recording w V rd n₀ (w.filesOver files) (reg :: rest.map fun x => x.1.1) n)
      (Ends.ofExcept (fun a ha n hn => ⟨Except.ok.inj (ha.symm.trans hafter), hn⟩)
        fun e he _ _ => by cases he.symm.trans hafter) fun a => ?_
    rintro n ⟨rfl, hn⟩
    exact Ends.bind (recordAfter_ends htells) (fun _ => ih _ hrest) n hn

/-- What a finished write leaves of the engine and of what is recorded, whether it gave a report or an error. -/
structure Left (w : Begun) (V : Compilation → Prop) (rd : Compilation → Reading) (n₀ n : Node) : Prop where
  told : Told V rd n.storage
  store : n.engine.store = n₀.engine.store
  grew : Grew (fun id => w.writeId = some id) (fun p => p ∈ w.files.map fun f => f.path) n₀.storage n.storage
  /-- A rewrite leaves the rows of all data as they are. -/
  rewrites : w.written = .rewrite → ∀ l, SameRows (liveFiles n.storage l none) (liveFiles n₀.storage l none)
  elsewhere : ∀ l, l ≠ w.location → liveFiles n.storage l none = liveFiles n₀.storage l none

theorem Left.of_asWas (h : AsWas n₀ n) (htold : Told V rd n₀.storage)
    (hrooted : ∀ table t, n₀.storage.tables table = some t → t.metadata.Rooted) : Left w V rd n₀ n where
  told := h.storage ▸ htold
  store := by rw [h.engine]
  grew := by
    rw [h.storage]
    exact Grew.refl hrooted
  rewrites _ l := by
    rw [h.storage]
    exact .refl _
  elsewhere _ _ := by rw [h.storage]

/-- When all are recorded, nothing is left that is wrong. -/
theorem Recording.left (h : Recording w V rd n₀ new [] n) (hdata : w.written ≠ .rewrite)
    (htold : Told V rd n₀.storage) (hrooted : ∀ table t, n₀.storage.tables table = some t → t.metadata.Rooted) :
    Left w V rd n₀ n where
  told := by
    refine ⟨fun l file m hm => ?_, ?_, ?_⟩
    · by_cases hl : l = w.location
      · subst hl
        rw [h.files]
        rcases h.recorded file m hm with ⟨_, hreg, _⟩ | htells
        · cases hreg
        · exact htells
      · rw [h.elsewhere l hl] at hm ⊢
        exact htold.beside l file m hm
    · rw [h.storageTables]
      exact htold.facts
    · rw [h.storageTables]
      exact htold.writes
  store := h.store
  grew := (Grew.refl hrooted).same (fun _ => by rw [h.storageTables]) fun _ => by rw [h.storageTables]
  rewrites hw := absurd hw hdata
  elsewhere l hl := by
    unfold liveFiles
    rw [h.storageTables, h.elsewhere l hl]

/-- `publish_write` under a directory or a prefix, by an engine that records, or removes, every manifest there. -/
theorem publishFiles_ends (hR : Counts R V rd) (hdata : w.written ≠ .rewrite) (htold : Told V rd n₀.storage)
    {bound : List (Registered × WriteFacts)} (hbound : ∀ b ∈ bound, w.OwnFacts V rd b)
    (hcovers : ∀ file m, (n₀.storage.dirs w.location).manifests file = .facts m →
      ∃ b ∈ bound, manifestFile b.1.name = file) (writtenAt : Int) :
    Ends (AsWas n₀) (w.publishFiles R bound writtenAt)
      (fun _ n => ∃ new, Recording w V rd n₀ new [] n) (fun _ => AsWas n₀) := by
  unfold publishFiles
  refine Ends.bind (knownBefores_ends htold bound) fun known => ?_
  rintro n ⟨hn, hmap, hknown⟩
  have hnames : (known.map fun x => x.1.1) = bound.map Prod.fst := by rw [← hmap, List.map_map]; rfl
  have hput : Ends (fun m => m = n) (Ask.store fun s => s.setFiles w.location (w.filesOver (s.dirs w.location).files))
      (fun _ => Recording w V rd n₀ (w.filesOver (n₀.storage.dirs w.location).files) (bound.map Prod.fst))
      (fun _ => AsWas n₀) := by
    rintro m rfl
    show Recording w V rd n₀ _ _ { m with storage := m.storage.setDir w.location _ }
    rw [hn.storage]
    refine ⟨by rw [hn.engine], by rw [hn.engine], by rw [hn.engine], rfl, fun l hl => Storage.setDir_of_ne _ hl _, ?_,
      fun file m' hm' => .inl ?_⟩
    · show ((n₀.storage.setDir w.location _).dirs w.location).files = _
      rw [Storage.setDir_self]
    · change ((n₀.storage.setDir w.location _).dirs w.location).manifests file = .facts m' at hm'
      rw [Storage.setDir_self] at hm'
      obtain ⟨b, hb, hfile⟩ := hcovers file m' hm'
      exact ⟨b.1, List.mem_map_of_mem hb, hfile⟩
  refine Ends.bind hput (fun _ => ?_) n rfl
  rw [← hnames]
  refine (recordAll_ends hR hdata writtenAt none fun x hx => ⟨hbound _ ?_, hknown x hx⟩).mono (fun _ => id)
    (fun _ _ h => ⟨_, h⟩) fun _ _ h => h.elim
  rw [← hmap]
  exact List.mem_map_of_mem hx

/-! ## A table -/

/-- A table with facts of a write saved under its id. -/
structure Saved (w : Begun) (V : Compilation → Prop) (rd : Compilation → Reading) (id : String)
    (t t' : IcebergTable) : Prop where
  metadata : t'.metadata = t.metadata
  facts : t'.facts = t.facts
  others : ∀ id', id' ≠ id → t'.writeFacts id' = t.writeFacts id'
  own : ∀ file f, t'.writeFacts id file = .facts f →
    f.written = w.written ∧ f.removed = w.removed ∧ Tells V rd w.files f.facts

variable {id : String} {t t' : IcebergTable}

/-- One more contract's facts of the write are saved. -/
theorem Saved.save (h : Saved w V rd id t t') {b : Registered × WriteFacts} (hb : w.OwnFacts V rd b) :
    Saved w V rd id t (t'.saveWriteFacts id b.2) where
  metadata := h.metadata
  facts := h.facts
  others id' hid := (Function.update_of_ne hid ..).trans (h.others id' hid)
  own file f hf := by
    unfold IcebergTable.saveWriteFacts at hf
    dsimp only at hf
    rw [Function.update_self] at hf
    by_cases hfile : file = manifestFile b.2.facts.contract
    · subst hfile
      rw [Function.update_self] at hf
      obtain rfl := Recorded.facts.inj hf
      exact ⟨hb.written, hb.removed, hb.tells⟩
    · rw [Function.update_of_ne hfile] at hf
      exact h.own file f hf

/-- The storage with a table of it as the write's facts leave it. -/
def SavedIn (w : Begun) (V : Compilation → Prop) (rd : Compilation → Reading) (table id : String) (t : IcebergTable)
    (n₀ n : Node) : Prop :=
  n.engine = n₀.engine ∧ ∃ t', n.storage = n₀.storage.setTable table t' ∧ Saved w V rd id t t'

/-- Saving them keeps the rest. -/
theorem saveAllWriteFacts_keeps {table : String} {bound : List (Registered × WriteFacts)}
    (hbound : ∀ b ∈ bound, w.OwnFacts V rd b) :
    Effects.Keeps (SavedIn w V rd table id t n₀) (saveAllWriteFacts table id bound) := by
  induction bound with
  | nil => exact Effects.Keeps.ret _
  | cons b rest ih =>
    obtain ⟨hb, hrest⟩ := List.forall_mem_cons.1 hbound
    refine Effects.Keeps.bind (Effects.Keeps.write ?_) fun _ => ih hrest
    rintro n ⟨hengine, t', hstorage, hsaved⟩
    refine ⟨hengine, t'.saveWriteFacts id b.2, ?_, hsaved.save hb⟩
    show n.storage.changeTable table _ = _
    rw [hstorage]
    exact changeTable_setTable ..

/-- The facts of a write that has not committed are of no snapshot. -/
theorem Saved.told (h : Saved w V rd id t t') (htold : Told V rd n₀.storage) {table : String}
    (ht : n₀.storage.tables table = some t) (hunused : ∀ sn ∈ t.metadata.snapshots, sn.writeId ≠ some id) :
    Told V rd (n₀.storage.setTable table t') := by
  refine htold.setTable (fun snapshot file m hm => ?_) fun sn id' file f hsn hid' hf => ?_
  · rw [h.facts] at hm
    rw [h.metadata]
    exact htold.facts table t snapshot file m ht hm
  · rw [h.metadata] at hsn ⊢
    have hne : id' ≠ id := by
      rintro rfl
      exact hunused sn hsn hid'
    rw [h.others id' hne] at hf
    exact htold.writes table t sn id' file f ht hsn hid' hf

theorem Saved.grew {paths : String → Prop} (h : Saved w V rd id t t')
    (hrooted : ∀ table t, n₀.storage.tables table = some t → t.metadata.Rooted) {table : String}
    (ht : n₀.storage.tables table = some t) : Grew (· = id) paths n₀.storage (n₀.storage.setTable table t') := by
  refine Grew.setTable hrooted (fun t₀ ht₀ => ?_) ?_ (fun sn hsn => ?_) fun id' file => ?_
  · cases ht.symm.trans ht₀
    rw [h.metadata]
  · rw [h.metadata]
    exact hrooted table t ht
  · exact .inl ⟨t, ht, h.metadata ▸ hsn⟩
  · by_cases hid : id' = id
    · exact .inl hid
    · exact .inr (.inr ⟨t, ht, by rw [h.others id' hid]⟩)

/-- What a commit puts in the table: the files there, and those of the write. -/
theorem mem_filesOver {before : List StoredFile} {f : StoredFile} (h : f ∈ w.filesOver before) :
    f ∈ before ∨ f ∈ w.files := by
  unfold filesOver at h
  cases hw : w.written with
  | append =>
    rw [hw] at h
    exact List.mem_append.1 h
  | overwrite =>
    rw [hw] at h
    exact .inr h
  | rewrite =>
    rw [hw] at h
    exact (List.mem_append.1 h).imp_left fun hf => List.mem_of_mem_filter hf

/-- The files after a write have paths of their own. -/
theorem nodup_filesOver {before : List StoredFile} (hbefore : (before.map fun f => f.path).Nodup)
    (hown : (w.files.map fun f => f.path).Nodup) (hapart : ∀ f ∈ w.files, ∀ g ∈ before, g.path ≠ f.path) :
    ((w.filesOver before).map fun f => f.path).Nodup := by
  have happend : ∀ kept : List StoredFile, kept.Sublist before →
      ((kept ++ w.files).map fun f => f.path).Nodup := fun kept hkept => by
    rw [List.map_append]
    refine List.nodup_append'.2 ⟨hbefore.sublist (hkept.map _), hown, ?_⟩
    intro p hp hp'
    obtain ⟨g, hg, rfl⟩ := List.mem_map.1 hp
    obtain ⟨f, hf, hpath⟩ := List.mem_map.1 hp'
    exact hapart f hf g (hkept.subset hg) hpath.symm
  unfold filesOver
  cases w.written with
  | append => exact happend before (List.Sublist.refl _)
  | overwrite => exact hown
  | rewrite => exact happend _ List.filter_sublist

section Committed

variable (hs : w.Sound V n₀.storage) {table : String} (hloc : w.location = .iceberg table)
  (ht : n₀.storage.tables table = some t)
  (hrooted : ∀ table t, n₀.storage.tables table = some t → t.metadata.Rooted)

include hs ht hrooted

/-- A snapshot committed has one parent, and its files are its own. -/
theorem rooted_committed {sid : Int} {time : Option Int} (hnew : t.metadata.snapshotById sid = none) :
    (t.metadata.push (w.snapshotOver t.metadata sid time)).Rooted := by
  have hroot := hrooted table t ht
  refine hroot.push hnew rfl (nodup_filesOver (hroot.nodup_filesAt _) hs.nodup fun f hf g hg hpath => ?_) fun f hf => ?_
  · obtain ⟨u, hu, hgu⟩ := TableMetadata.mem_filesAt hg
    exact hs.fresh f hf ⟨table, t, u, ht, hu, hpath ▸ List.mem_map_of_mem hgu⟩
  · rcases mem_filesOver hf with hold | hown
    · exact .inl (TableMetadata.mem_filesAt hold)
    · refine .inr fun u hu g hg hpath => hs.fresh f hown ⟨table, t, u, ht, hu, ?_⟩
      exact hpath ▸ List.mem_map_of_mem hg

/-- A commit adds one snapshot, whose write's facts are saved. -/
theorem Saved.grew_committed (h : Saved w V rd id t t') (hid : w.writeId = some id) {sid : Int} {time : Option Int}
    (hnew : t.metadata.snapshotById sid = none) :
    Grew (fun id => w.writeId = some id) (fun p => p ∈ w.files.map fun f => f.path) n₀.storage
      (n₀.storage.setTable table { t' with metadata := t.metadata.push (w.snapshotOver t.metadata sid time) }) := by
  refine Grew.setTable hrooted (fun t₀ ht₀ => ?_) (rooted_committed hs ht hrooted hnew) (fun sn hsn => ?_)
    fun id' file => ?_
  · cases ht.symm.trans ht₀
    exact List.prefix_append ..
  · rcases List.mem_append.1 hsn with hold | hsnew
    · exact .inl ⟨t, ht, hold⟩
    · obtain rfl := List.mem_singleton.1 hsnew
      refine .inr ⟨fun _ hsid => hsid, fun f hf => ?_⟩
      rcases mem_filesOver hf with hold | hown
      · obtain ⟨u, hu, hfu⟩ := TableMetadata.mem_filesAt hold
        exact .inr ⟨table, t, u, ht, hu, List.mem_map_of_mem hfu⟩
      · exact .inl (List.mem_map_of_mem hown)
  · by_cases hne : id' = id
    · exact .inl (hne ▸ hid)
    · exact .inr (.inr ⟨t, ht, congrFun (h.others id' hne) file⟩)

include hloc

/-- The facts saved under the write's id say what its snapshot did. -/
theorem Saved.told_committed (h : Saved w V rd id t t') (htold : Told V rd n₀.storage) (hid : w.writeId = some id)
    {sid : Int} {time : Option Int} (hcommits : w.CommitsOver t.metadata) :
    Told V rd (n₀.storage.setTable table
      { t' with metadata := t.metadata.push (w.snapshotOver t.metadata sid time) }) := by
  have hroot := hrooted table t ht
  refine htold.setTable (fun snapshot file m hm => ?_) fun sn id' file f hsn hid' hf => ?_
  · change t'.facts snapshot file = .facts m at hm
    rw [h.facts] at hm
    obtain ⟨sn, hsn, hsid, htells⟩ := htold.facts table t snapshot file m ht hm
    exact ⟨sn, TableMetadata.snapshotById_push_of hsn, hsid, htells⟩
  · change t'.writeFacts id' file = .facts f at hf
    show Wrote V rd ((t.metadata.push _).filesAt sn.parent) f sn.files
    rcases List.mem_append.1 hsn with hold | hsnew
    · have hne : id' ≠ id := by
        rintro rfl
        exact (hs.unused table t id' ht hid).1 sn hold hid'
      rw [h.others id' hne] at hf
      rw [TableMetadata.filesAt_push (hroot.parents sn hold)]
      exact htold.writes table t sn id' file f ht hold hid' hf
    · obtain rfl := List.mem_singleton.1 hsnew
      obtain rfl : id = id' := Option.some.inj (hid.symm.trans hid')
      obtain ⟨hwritten, hremoved, htells⟩ := h.own file f hf
      show Wrote V rd ((t.metadata.push _).filesAt t.metadata.current) f
        (w.filesOver (t.metadata.filesAt t.metadata.current))
      rw [TableMetadata.filesAt_push hroot.current]
      exact hs.wrote hloc ht hroot hcommits hwritten hremoved htells

/-- A rewrite that commits leaves the rows of the table as they were, whatever was committed since it began. -/
theorem rewrites_committed {sid : Int} {time : Option Int} (hcommits : w.CommitsOver t.metadata)
    (hnew : t.metadata.snapshotById sid = none) (hw : w.written = .rewrite) (l : Location) :
    SameRows (liveFiles (n₀.storage.setTable table
        { t' with metadata := t.metadata.push (w.snapshotOver t.metadata sid time) }) l none)
      (liveFiles n₀.storage l none) := by
  by_cases hl : l = .iceberg table
  · subst hl
    have hbefore : liveFiles n₀.storage (.iceberg table) none = t.metadata.filesAt t.metadata.current := by
      unfold liveFiles
      dsimp only
      rw [ht]
      rfl
    have hafter : liveFiles (n₀.storage.setTable table
        { t' with metadata := t.metadata.push (w.snapshotOver t.metadata sid time) }) (.iceberg table) none =
          w.filesOver (t.metadata.filesAt t.metadata.current) := by
      unfold liveFiles
      dsimp only
      rw [Storage.setTable_self]
      exact TableMetadata.filesAt_some (TableMetadata.snapshotById_push_self hnew)
    rw [hbefore, hafter]
    unfold filesOver
    rw [hw]
    exact (hs.rewritten hloc ht (hrooted table t ht) hcommits hw).rewritten
  · rw [liveFiles_setTable_of_ne hl]
    exact .refl _

end Committed

/-- What a call leaves stays as good when another moves no data. -/
theorem Left.unmoved {n₁ : Node} (h : Left w V rd n₀ n₁) (hn : Unmoved V rd n₁ n) : Left w V rd n₀ n where
  told := hn.told
  store := hn.store.trans h.store
  grew := h.grew.same hn.data.metadata hn.data.writeFacts
  rewrites hw l := by
    rw [hn.data.liveFiles]
    exact h.rewrites hw l
  elsewhere l hl := by
    rw [hn.data.liveFiles]
    exact h.elsewhere l hl

theorem unmoved_keepFacts (hR : Counts R V rd) {table : String}
    (ht : n₀.storage.tables table = some t) (sid : Int) {bound : List (Registered × WriteFacts)}
    (hbound : ∀ b ∈ bound, w.OwnFacts V rd b) (own : Option Manifest) :
    Effects.Keeps (Unmoved V rd n₀) (w.keepFacts R table t.metadata sid bound own) := by
  induction bound generalizing own with
  | nil => exact Effects.Keeps.ret _
  | cons b rest ih =>
    obtain ⟨hb, hrest⟩ := List.forall_mem_cons.1 hbound
    unfold keepFacts
    refine Effects.Keeps.bind (unmoved_icebergFacts hR ht hb.compiled sid).attempt fun found => ?_
    cases found.toOption.join with
    | none => exact (unmoved_rememberIceberg _).bind fun _ => ih hrest _
    | some m =>
      dsimp only
      split
      · exact (unmoved_rememberIceberg _).bind fun _ => ih hrest _
      · exact ih hrest _

/-- `publish_write` of a table: what is recorded tells of the data whether the commit goes through or not. -/
theorem publishTable_ends (hR : Counts R V rd) (htold : Told V rd n₀.storage)
    (hrooted : ∀ table t, n₀.storage.tables table = some t → t.metadata.Rooted) (hs : w.Sound V n₀.storage)
    {commit : TableMetadata → Except PeqlError (Int × Option Int)} (hanswers : Answers w commit) {table : String}
    (hloc : w.location = .iceberg table) {bound : List (Registered × WriteFacts)}
    (hbound : ∀ b ∈ bound, w.OwnFacts V rd b) :
    Ends (AsWas n₀) (w.publishTable R table commit bound) (fun _ => Left w V rd n₀) (fun _ => Left w V rd n₀) := by
  have hleft : ∀ n, AsWas n₀ n → Left w V rd n₀ n := fun n hn => Left.of_asWas hn htold hrooted
  unfold publishTable
  cases hi : w.iceberg with
  | none => exact hleft
  | some begun =>
    have hid : w.writeId = some begun.id := by
      unfold writeId
      rw [hi]
      rfl
    have hload : Ends (AsWas n₀) (loadTable table)
        (fun found n => AsWas n₀ n ∧ found = (n₀.storage.tables table).map IcebergTable.metadata)
        (fun _ => AsWas n₀) :=
      (asWas_storage _).mono (fun _ => id) (fun _ _ h => ⟨h.1, (Except.ok.inj h.2).symm⟩) fun _ _ => id
    refine Ends.bind (hload.mono (fun _ => id) (fun _ _ => id) fun _ n => hleft n) fun found => ?_
    rintro n ⟨hn, rfl⟩
    cases ht : n₀.storage.tables table with
    | none => exact hleft n hn
    | some t =>
      have hunused := hs.unused table t begun.id ht hid
      have hsaved : SavedIn w V rd table begun.id t n₀ n := by
        refine ⟨hn.engine, t, by rw [setTable_eq_self ht, hn.storage], rfl, rfl, fun _ _ => rfl, fun file f hf => ?_⟩
        cases (hunused.2 file).symm.trans hf
      have hkept : ∀ n, SavedIn w V rd table begun.id t n₀ n → Left w V rd n₀ n := by
        rintro n ⟨hengine, t', hstorage, h⟩
        have hlive : ∀ l, liveFiles n.storage l none = liveFiles n₀.storage l none := fun l => by
          rw [hstorage, liveFiles_setTable ht h.metadata]
        refine ⟨hstorage ▸ h.told htold ht hunused.1, by rw [hengine], ?_, fun _ l => ?_, fun l _ => hlive l⟩
        · rw [hstorage]
          exact (h.grew hrooted ht).mono (fun _ hids => hids ▸ hid) fun _ => id
        · rw [hlive l]
          exact .refl _
      refine Ends.bind ((saveAllWriteFacts_keeps hbound).mono (fun _ => id) (fun _ _ => id) fun _ => hkept)
        (fun _ => ?_) n hsaved
      refine Ends.bind (Q := fun a n => SavedIn w V rd table begun.id t n₀ n ∧ commit t.metadata = .ok a)
        (Ends.ofExcept (fun a ha n hn => ⟨hn, ha⟩) fun _ _ => hkept) ?_
      rintro ⟨sid, time⟩ n' ⟨⟨hengine, t', hstorage, h⟩, hcommit⟩
      obtain ⟨hcommits, hnew⟩ := hanswers t.metadata sid time hcommit
      let snapshot := w.snapshotOver t.metadata sid time
      let t₁ : IcebergTable := { t' with metadata := t.metadata.push snapshot }
      let n₁ : Node := { n' with storage := n₀.storage.setTable table t₁ }
      -- the snapshot is in the table, and nothing is recorded of it yet
      have hput : Left w V rd n₀ n₁ :=
        ⟨h.told_committed hs hloc ht hrooted htold hid hcommits, by rw [← hengine],
          h.grew_committed hs ht hrooted hid hnew,
          fun hw => rewrites_committed hs hloc ht hrooted hcommits hnew hw,
          fun l hl => liveFiles_setTable_of_ne (fun heq => hl (heq.trans hloc.symm)) t₁ none⟩
      have hpush : Ends (fun m => m = n')
          (Ask.store fun s => s.changeTable table fun found => { found with metadata := found.metadata.push snapshot })
          (fun _ m => m = n₁) (fun _ => Left w V rd n₀) := by
        rintro m rfl
        show { m with storage := m.storage.changeTable table _ } = n₁
        rw [hstorage, changeTable_setTable, h.metadata]
      have hfacts : Ends (fun m => m = n₁) (w.keepFacts R table (t.metadata.push snapshot) sid bound none)
          (fun _ => Left w V rd n₀) (fun _ => Left w V rd n₀) := by
        have ht₁ : n₁.storage.tables table = some t₁ := Storage.setTable_self ..
        refine (unmoved_keepFacts hR ht₁ sid hbound none).mono ?_ (fun _ _ => hput.unmoved) fun _ _ => hput.unmoved
        rintro m rfl
        exact unmoved_self hput.told
      refine Ends.bind hpush (fun _ => Ends.bind hfacts fun _ => Effects.Keeps.ret _) n' rfl

/-- `finish_write`: what is recorded tells of the data, wherever the call ends. -/
theorem finishWrite_ends (hR : Counts R V rd) (hV : n₀.engine.store.Of V) (htold : Told V rd n₀.storage)
    (hrooted : ∀ table t, n₀.storage.tables table = some t → t.metadata.Rooted) (hs : w.Sound V n₀.storage)
    {commit : TableMetadata → Except PeqlError (Int × Option Int)} (hanswers : Answers w commit)
    (hcovers : (∀ table, w.location ≠ .iceberg table) → ∀ file m,
      (n₀.storage.dirs w.location).manifests file = .facts m →
        ∃ reg ∈ w.bound n₀.engine, manifestFile reg.name = file) :
    Ends (AsWas n₀) (w.finishWrite R commit) (fun _ => Left w V rd n₀) (fun _ => Left w V rd n₀) := by
  have hleft : ∀ n, AsWas n₀ n → Left w V rd n₀ n := fun n hn => Left.of_asWas hn htold hrooted
  have hregs : ∀ reg ∈ (w.bound n₀.engine).tail, V reg.compilation := fun reg hreg =>
    hV reg.name reg (Contents.mem_list.1 (List.mem_of_mem_filter hreg))
  unfold finishWrite
  refine Ends.bind (Q := fun bound n => AsWas n₀ n ∧ bound = w.bound n₀.engine) (fun n hn => ?_) fun bound => ?_
  · rw [Ask.engine_apply, hn.engine]
    exact ⟨hn, rfl⟩
  rintro n ⟨hn, rfl⟩
  refine Ends.bind (P := AsWas n₀) (Q := fun _ => AsWas n₀) (fun _ hn => hn) (fun writtenAt => ?_) n hn
  refine Ends.bind ((writeFacts_ends hR hs.compiled writtenAt).mono (fun _ => id) (fun _ _ => id) fun _ => hleft)
    fun r => ?_
  rintro n ⟨hn, hown⟩
  refine Ends.bind (P := AsWas n₀) (Q := fun _ => AsWas n₀) (Ends.ofExcept (fun _ _ _ => id) fun _ _ => hleft)
    (fun _ => ?_) n hn
  refine Ends.bind ((factsUnder_ends hR writtenAt hregs).mono (fun _ => id) (fun _ _ => id) fun _ => hleft)
    fun others => ?_
  rintro n ⟨hn, hmap, hothers⟩
  have hbound : ∀ b ∈ (w.reg, r.2) :: others, w.OwnFacts V rd b := List.forall_mem_cons.2 ⟨hown, hothers⟩
  have hfiles : (∀ table, w.location ≠ .iceberg table) →
      Ends (AsWas n₀) (w.publishFiles R ((w.reg, r.2) :: others) writtenAt) (fun _ => Left w V rd n₀)
        (fun _ => Left w V rd n₀) := by
    intro hnone
    have hdata : w.written ≠ .rewrite := fun hw => by
      obtain ⟨table, _, _, hloc, _⟩ := hs.rewrites hw
      exact hnone table hloc
    refine (publishFiles_ends hR hdata htold hbound (fun file m hm => ?_) writtenAt).mono (fun _ => id)
      (fun _ _ h => ?_) fun _ => hleft
    · obtain ⟨reg, hreg, hname⟩ := hcovers hnone file m hm
      rcases List.mem_cons.1 hreg with rfl | hreg
      · exact ⟨_, List.mem_cons_self .., hname⟩
      · obtain ⟨b, hb, rfl⟩ := List.mem_map.1 (hmap ▸ (show reg ∈ (w.bound n₀.engine).tail from hreg))
        exact ⟨b, List.mem_cons_of_mem _ hb, hname⟩
    · obtain ⟨new, hrec⟩ := h
      exact hrec.left hdata htold hrooted
  cases hloc : w.location with
  | iceberg table =>
    refine Ends.bind (publishTable_ends hR htold hrooted hs hanswers hloc hbound) (fun _ => ?_) n hn
    exact Effects.Keeps.ret _
  | localDir root =>
    exact Ends.bind (hfiles fun _ h => by cases hloc.symm.trans h) (fun _ => Effects.Keeps.ret _) n hn
  | object url =>
    exact Ends.bind (hfiles fun _ h => by cases hloc.symm.trans h) (fun _ => Effects.Keeps.ret _) n hn

end Begun

end Peql
