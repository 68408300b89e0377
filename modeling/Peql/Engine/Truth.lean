import Peql.Engine.Published

/-!
# What is recorded is true

In every state a fleet reaches, everything recorded tells of the data it is recorded for: the manifest beside some files
of those files, the facts of a snapshot of the snapshot, the facts of a write of what the write did (`recorded_true`).
The steps are taken in any order; the writes to a directory or a prefix are finished by engines that have every contract
recorded there bound to it (`Covers`), and the writes to a table by any.
-/

namespace Peql

open Effects Runs

variable {R : Runtime} {V : Compilation → Prop} {rd : Compilation → Reading} {n₀ : Node}

/-! ## Beginning a write -/

/-- What a call that begins a write leaves: its table is there, perhaps with more columns. -/
structure Readied (V : Compilation → Prop) (rd : Compilation → Reading) (n₀ n : Node) : Prop where
  told : Told V rd n.storage
  engine : n.engine = n₀.engine
  grew : Grew (fun _ => False) (fun _ => False) n₀.storage n.storage
  live : ∀ l, liveFiles n.storage l none = liveFiles n₀.storage l none

/-- Where nothing has changed, the fleet is ready. -/
theorem AsWas.readied {n : Node} (h : AsWas n₀ n) (htold : Told V rd n₀.storage)
    (hrooted : ∀ table t, n₀.storage.tables table = some t → t.metadata.Rooted) : Readied V rd n₀ n where
  told := h.storage ▸ htold
  engine := h.engine
  grew := by
    rw [h.storage]
    exact Grew.refl hrooted
  live _ := by rw [h.storage]

theorem asWas_engine {α : Type} (f : Engine → Except PeqlError α) :
    Ends (AsWas n₀) (Ask.engine f) (fun a n => AsWas n₀ n ∧ f n₀.engine = .ok a) (fun _ => AsWas n₀) := by
  intro n hn
  rw [Ask.engine_apply, hn.engine]
  cases hf : f n₀.engine with
  | ok a => exact ⟨hn, rfl⟩
  | error e => exact hn

/-- A table loaded is the table. -/
theorem asWas_loadTable (table : String) :
    Ends (AsWas n₀) (loadTable table)
      (fun found n => AsWas n₀ n ∧ found = (n₀.storage.tables table).map IcebergTable.metadata) (fun _ => AsWas n₀) :=
  (asWas_storage _).mono (fun _ => id) (fun _ _ h => ⟨h.1, (Except.ok.inj h.2).symm⟩) fun _ _ => id

/-- The current snapshot of a table, where it has one. -/
theorem asWas_icebergSnapshot (table name : String) :
    Ends (AsWas n₀) (icebergSnapshot table name none)
      (fun r n => AsWas n₀ n ∧ ∃ t, n₀.storage.tables table = some t ∧ r.1 = t.metadata ∧ t.metadata.current = some r.2)
      (fun _ => AsWas n₀) := by
  unfold icebergSnapshot
  refine Ends.bind (asWas_loadTable table) fun found => ?_
  rintro n ⟨hn, rfl⟩
  cases ht : n₀.storage.tables table with
  | none => exact hn
  | some t =>
    cases hc : t.metadata.current with
    | none =>
      simp only [Option.map_some, hc]
      exact hn
    | some s =>
      simp only [Option.map_some, hc]
      exact ⟨hn, t, rfl, rfl, hc⟩

section Begins

variable (htold : Told V rd n₀.storage)
  (hrooted : ∀ table t, n₀.storage.tables table = some t → t.metadata.Rooted)

include htold hrooted

/-- A table created has no snapshot; one that is there keeps what is recorded of it. -/
theorem beginTable_ends (table : String) (cc : CompiledContract) :
    Ends (AsWas n₀) (beginTable table cc) (fun _ => Readied V rd n₀) (fun _ => AsWas n₀) := by
  unfold beginTable
  refine Ends.bind (asWas_loadTable table) fun found => ?_
  rintro n ⟨hn, rfl⟩
  cases ht : n₀.storage.tables table with
  | none =>
    show Readied V rd n₀ { n with storage := n.storage.setTable table _ }
    rw [hn.storage]
    have hlive : liveFiles n₀.storage (.iceberg table) none = [] := by
      unfold liveFiles
      dsimp only
      rw [ht]
      rfl
    refine ⟨htold.setTable (fun _ _ _ hm => ?_) (fun _ _ _ _ hsn => ?_), hn.engine, ?_,
      liveFiles_setTable_same hlive.symm⟩
    · cases hm
    · cases hsn
    · refine Grew.setTable hrooted (fun t₀ ht₀ => ?_) (TableMetadata.rooted_nil _) (fun _ hsn => ?_)
        fun _ _ => .inr (.inl rfl)
      · cases ht.symm.trans ht₀
      · cases hsn
  | some t =>
    have hroot := hrooted table t ht
    have hlive : liveFiles n₀.storage (.iceberg table) none = t.metadata.filesAt t.metadata.current := by
      unfold liveFiles
      dsimp only
      rw [ht]
      rfl
    have hchange : n.storage.changeTable table (fun found => { found with
        metadata := t.metadata.evolve (fileColumns cc true) }) = n₀.storage.setTable table { t with
        metadata := t.metadata.evolve (fileColumns cc true) } := by
      unfold Storage.changeTable
      rw [hn.storage, ht]
    show Readied V rd n₀ { n with storage := n.storage.changeTable table _ }
    rw [hchange]
    refine ⟨htold.setTable (fun s file m hm => htold.facts table t s file m ht hm)
      (fun sn id file f hsn hid hf => htold.writes table t sn id file f ht hsn hid hf), hn.engine, ?_,
      liveFiles_setTable_same hlive.symm⟩
    refine Grew.setTable hrooted (fun t₀ ht₀ => ?_) ⟨hroot.parents, hroot.current, hroot.nodup, hroot.paths⟩
      (fun sn hsn => .inl ⟨t, ht, hsn⟩) fun id file => .inr (.inr ⟨t, ht, rfl⟩)
    cases ht.symm.trans ht₀
    exact List.prefix_rfl

/-- A write begun: nothing is written yet, under the current version of its contract. -/
structure FreshWrite (n₀ : Node) (name : String) (rewrite : Option (Int × List String)) (id : String) (w : Begun) :
    Prop where
  registered : n₀.engine.get name = .ok w.reg
  bound : n₀.engine.bound w.reg = .ok (.files w.location)
  files : w.files = []
  writeId : ∀ id', w.writeId = some id' → id' = id
  written : w.written = .rewrite → rewrite ≠ none
  removed : w.removed = (rewrite.map Prod.snd).getD []

/-- Beginning a write changes no data. -/
theorem beginWrite_ends (name : String) (mode : WriteMode) (rewrite : Option (Int × List String))
    (onViolation : OnWriteViolation) (id : String) :
    Ends (AsWas n₀) (beginWrite name mode rewrite onViolation id)
      (fun w n => Readied V rd n₀ n ∧ FreshWrite n₀ name rewrite id w) (fun _ => AsWas n₀) := by
  unfold beginWrite
  refine Ends.bind (asWas_engine _) fun frozen => ?_
  rintro n ⟨hn, -⟩
  cases frozen with
  | some snapshot => exact hn
  | none =>
    refine Ends.bind (asWas_engine _) (fun reg => ?_) n hn
    rintro n ⟨hn, hreg⟩
    refine Ends.bind (asWas_engine _) (fun b => ?_) n hn
    rintro n ⟨hn, hb⟩
    have hplain : ∀ {l w} {e : PeqlError}, w.files = [] → w.reg = reg → w.location = l → w.iceberg = none →
        b = .files l → (w.written = .rewrite → rewrite ≠ none) → w.removed = (rewrite.map Prod.snd).getD [] →
        Ends (AsWas n₀) (if rewrite.isSome then throw e else pure w : Ask Begun)
          (fun w n => Readied V rd n₀ n ∧ FreshWrite n₀ name rewrite id w) (fun _ => AsWas n₀) := by
      rintro l w e hfiles rfl rfl hnone rfl hwritten hremoved
      split
      · exact fun _ hn => hn
      · refine fun _ hn => ⟨hn.readied htold hrooted, hreg, hb, hfiles, fun _ hid => ?_, hwritten, hremoved⟩
        unfold Begun.writeId at hid
        rw [hnone] at hid
        cases hid
    cases b with
    | table batches => exact hn
    | files l =>
      cases l with
      | iceberg table =>
        refine Ends.bind (beginTable_ends htold hrooted table _) (fun t m hm => ?_) n hn
        refine ⟨hm, hreg, hb, rfl, fun _ hid => (Option.some.inj hid).symm, fun hw hnone => ?_, rfl⟩
        subst hnone
        cases mode <;> cases hw
      | localDir root =>
        refine hplain rfl rfl rfl rfl rfl (fun hw hnone => ?_) rfl n hn
        subst hnone
        cases mode <;> cases hw
      | object url =>
        refine hplain rfl rfl rfl rfl rfl (fun hw hnone => ?_) rfl n hn
        subst hnone
        cases mode <;> cases hw

/-- A compaction begun rewrites the files of its table's current snapshot. -/
theorem beginCompact_ends (name : String) (smallFileBytes minSmallFiles : Nat) (id : String) :
    Ends (AsWas n₀) (beginCompact name smallFileBytes minSmallFiles id)
      (fun found n => ∀ w, found = some w → Readied V rd n₀ n ∧ ∃ table t sn rewrite,
        FreshWrite n₀ name rewrite id w ∧ w.location = .iceberg table ∧ n₀.storage.tables table = some t ∧
          sn ∈ t.metadata.snapshots ∧ t.metadata.filesAt t.metadata.current = sn.files ∧
          w.removed = sn.files.map fun f => f.path)
      (fun _ => AsWas n₀) := by
  unfold beginCompact
  refine Ends.bind (asWas_engine _) fun reg => ?_
  rintro n ⟨hn, hreg⟩
  refine Ends.bind (asWas_engine _) (fun b => ?_) n hn
  rintro n ⟨hn, hb⟩
  cases b with
  | table batches => exact hn
  | files l =>
  cases l with
  | localDir root => exact hn
  | object url => exact hn
  | iceberg table =>
  refine Ends.bind (asWas_icebergSnapshot table name) (fun r => ?_) n hn
  obtain ⟨md, s⟩ := r
  rintro n ⟨hn, t, ht, rfl, hcur⟩
  refine Ends.bind (Q := fun files n => AsWas n₀ n ∧ t.metadata.files table s = .ok files)
    (E := fun _ => AsWas n₀) (Ends.ofExcept (fun _ h _ hn => ⟨hn, h⟩) fun _ _ _ hn => hn) (fun files => ?_) n hn
  rintro n ⟨hn, hfiles⟩
  refine (?_ : Ends (AsWas n₀) _ _ _) n hn
  dsimp only
  split
  · exact fun _ _ w h => by cases h
  refine Ends.bind (beginWrite_ends htold hrooted _ _ _ _ _) fun w m hm => ?_
  rintro _ ⟨⟩
  obtain ⟨hready, hfresh⟩ := hm
  unfold TableMetadata.files at hfiles
  cases hsn : t.metadata.snapshotById s with
  | none =>
    rw [hsn] at hfiles
    cases hfiles
  | some sn =>
    rw [hsn] at hfiles
    cases hfiles
    have hloc : w.location = .iceberg table := by
      obtain rfl : reg = w.reg := Except.ok.inj (hreg.symm.trans hfresh.registered)
      have hb' := hb.symm.trans hfresh.bound
      injection hb' with hb'
      injection hb' with hb'
      exact hb'.symm
    refine ⟨hready, table, t, sn, _, hfresh, hloc, ht, TableMetadata.mem_snapshots_of_found hsn, ?_, hfresh.removed⟩
    rw [hcur, TableMetadata.filesAt_some hsn]

end Begins

/-! ## What every step keeps -/

/-- Two writes have no file's path and no id in common. -/
def Begun.Apart (w w' : Begun) : Prop :=
  (∀ f ∈ w.files, ∀ g ∈ w'.files, f.path ≠ g.path) ∧ ∀ id, w.writeId = some id → w'.writeId ≠ some id

theorem Begun.Apart.symm {w w' : Begun} (h : w.Apart w') : w'.Apart w :=
  ⟨fun f hf g hg hp => h.1 g hg f hf hp.symm, fun id hid hid' => h.2 id hid' hid⟩

namespace Fleet

variable {σ : Fleet}

structure Sound (V : Compilation → Prop) (rd : Compilation → Reading) (σ : Fleet) : Prop where
  told : Told V rd σ.storage
  compiled : ∀ k, ∀ reg ∈ (σ.engines k).store.versions, V reg.compilation
  rooted : ∀ table t, σ.storage.tables table = some t → t.metadata.Rooted
  writes : ∀ i w, σ.writes i = some w → w.begun.Sound V σ.storage
  apart : ∀ i j w w', i ≠ j → σ.writes i = some w → σ.writes j = some w' → w.begun.Apart w'.begun

namespace Sound

/-- The contracts of a sound fleet are those it may register. -/
theorem registers (h : σ.Sound V rd) (k : Nat) : (σ.engines k).store.Of V :=
  fun _ reg hreg => h.compiled k reg (Contents.current_mem hreg)

/-- The storage has grown, and the writes that are being made are of none of it. -/
theorem moved (h : σ.Sound V rd) {engines : Nat → Engine} {s : Storage} {ids paths : String → Prop}
    (hcompiled : ∀ k, ∀ reg ∈ (engines k).store.versions, V reg.compilation) (htold : Told V rd s)
    (hg : Grew ids paths σ.storage s)
    (hids : ∀ i w, σ.writes i = some w → ∀ id, w.begun.writeId = some id → ¬ ids id)
    (hpaths : ∀ i w, σ.writes i = some w → ∀ f ∈ w.begun.files, ¬ paths f.path) :
    Sound V rd ⟨engines, s, σ.writes⟩ where
  told := htold
  compiled := hcompiled
  rooted := hg.rooted
  writes i w hw := (h.writes i w hw).grew hg (hids i w hw) (hpaths i w hw)
  apart := h.apart

/-- A write is begun, goes on or is over. -/
theorem setWrite (h : σ.Sound V rd) (i : Nat) (o : Option OpenWrite)
    (hw : ∀ w, o = some w → w.begun.Sound V σ.storage ∧
      ∀ j w', j ≠ i → σ.writes j = some w' → w.begun.Apart w'.begun) : (σ.setWrite i o).Sound V rd := by
  refine ⟨h.told, h.compiled, h.rooted, fun j w hj => ?_, fun j j' w w' hne hj hj' => ?_⟩
  · rcases of_setWrite hj with ⟨rfl, ho⟩ | ⟨_, hold⟩
    · exact (hw w ho).1
    · exact h.writes j w hold
  · rcases of_setWrite hj with ⟨rfl, ho⟩ | ⟨hji, hold⟩
    · rcases of_setWrite hj' with ⟨rfl, _⟩ | ⟨hji', hold'⟩
      · exact absurd rfl hne
      · exact (hw w ho).2 j' w' hji' hold'
    · rcases of_setWrite hj' with ⟨rfl, ho'⟩ | ⟨_, hold'⟩
      · exact ((hw w' ho').2 j w hji hold).symm
      · exact h.apart j j' w w' hne hold hold'

/-- An engine's contracts after a call are those it had. -/
theorem compiled_after (h : σ.Sound V rd) {k : Nat} {e : Engine} (he : e.store = (σ.engines k).store) :
    ∀ k', ∀ reg ∈ (Function.update σ.engines k e k').store.versions, V reg.compilation := by
  intro k' reg hreg
  by_cases hk : k' = k
  · subst hk
    rw [Function.update_self, he] at hreg
    exact h.compiled k' reg hreg
  · rw [Function.update_of_ne hk] at hreg
    exact h.compiled k' reg hreg

/-- Contracts registered keep it sound. -/
theorem withStore (h : σ.Sound V rd) {k : Nat} {store : Contents}
    (hstore : ∀ reg ∈ store.versions, V reg.compilation) : (σ.withStore k store).Sound V rd := by
  refine ⟨h.told, fun k' reg hreg => ?_, h.rooted, h.writes, h.apart⟩
  by_cases hk : k' = k
  · subst hk
    rw [withStore_self] at hreg
    exact hstore reg hreg
  · rw [withStore_of_ne hk] at hreg
    exact h.compiled k' reg hreg

/-- A call that leaves the tables as they are, or readies one for a write. -/
theorem after (h : σ.Sound V rd) {k : Nat} {n : Node} (htold : Told V rd n.storage)
    (hstore : n.engine.store = (σ.engines k).store)
    (hg : Grew (fun _ => False) (fun _ => False) σ.storage n.storage) : (σ.after k n).Sound V rd :=
  h.moved (h.compiled_after hstore) htold hg (fun _ _ _ _ _ => id) fun _ _ _ _ _ => id

/-- A write just begun, under an id no write has had. -/
theorem begin (h : σ.Sound V rd) {k i : Nat} {now : Int} {name id : String} {rewrite : Option (Int × List String)}
    {w : Begun} {n : Node} (hready : Readied V rd (σ.node k now) n)
    (hfresh : FreshWrite (σ.node k now) name rewrite id w) (hid : ¬ σ.HasId id) {files : List StoredFile}
    (hfiles : σ.NewFiles files) {rows : Nat}
    (hrewrites : w.written = .rewrite → ∃ table t sn, w.location = .iceberg table ∧ σ.storage.tables table = some t ∧
      sn ∈ t.metadata.snapshots ∧ (w.removed = sn.files.map fun f => f.path) ∧ SameRows files sn.files) :
    ((σ.after k n).setWrite i (some ⟨k, { w with files := files, rows := rows }⟩)).Sound V rd := by
  have hafter : (σ.after k n).Sound V rd := h.after hready.told (by rw [hready.engine]; rfl) hready.grew
  refine hafter.setWrite i _ ?_
  rintro _ ⟨⟩
  have hsound : Begun.Sound V σ.storage { w with files := files, rows := rows } := by
    refine ⟨?_, hfiles.nodup, fun f hf hold => hfiles.fresh f hf (.inl hold), fun table t id' ht hw => ?_, hrewrites⟩
    · exact h.compiled k _ (Contents.current_mem (get_ok.1 hfresh.registered))
    · obtain rfl := hfresh.writeId id' hw
      refine ⟨fun sn hsn hsid => hid (.inl ⟨table, t, ht, .inl ⟨sn, hsn, hsid⟩⟩), fun file => ?_⟩
      cases hf : t.writeFacts id' file with
      | absent => rfl
      | corrupt | otherFormat | facts => exact absurd (.inl ⟨table, t, ht, .inr ⟨file, by rw [hf]; rfl⟩⟩) hid
  refine ⟨hsound.grew hready.grew (fun _ _ => not_false) fun _ _ => not_false,
    fun j w' _ hw' => ⟨fun f hf g hg hp => ?_, ?_⟩⟩
  · exact hfiles.fresh f hf (.inr ⟨j, w', hw', hp ▸ List.mem_map_of_mem hg⟩)
  · intro id' hw hw''
    obtain rfl := hfresh.writeId id' hw
    exact hid (.inr ⟨j, w', hw', hw''⟩)

/-- More files of a write, at paths no file has had. -/
theorem part (h : σ.Sound V rd) {i : Nat} {w : OpenWrite} {rows : List Row} {files : List StoredFile} {b : Begun}
    (hw : σ.writes i = some w) (hdata : w.begun.written ≠ .rewrite) (hnew : σ.NewFiles files)
    (hpart : w.begun.writePart R rows files = .ok b) : (σ.setWrite i (some ⟨w.engine, b⟩)).Sound V rd := by
  have hold := h.writes i w hw
  unfold Begun.writePart at hpart
  cases hrows : rowsOrError ((writePlan R.enrichment w.begun.reg.compilation).run ⟨R.kernel, fun _ _ => rows⟩ []) with
  | error e =>
    rw [hrows] at hpart
    cases hpart
  | ok computed =>
  rw [hrows] at hpart
  obtain rfl := Except.ok.inj hpart
  have happart : ∀ f ∈ w.begun.files, ∀ g ∈ files, f.path ≠ g.path := fun f hf g hg hp =>
    hnew.fresh g hg (.inr ⟨i, w, hw, hp ▸ List.mem_map_of_mem hf⟩)
  refine h.setWrite i _ ?_
  rintro _ ⟨⟩
  refine ⟨⟨hold.compiled, ?_, fun f hf hfile => ?_, hold.unused, fun hr => absurd hr hdata⟩,
    fun j w' hj hw' => ⟨fun f hf g hg hp => ?_, (h.apart i j w w' hj.symm hw hw').2⟩⟩
  · rw [List.map_append]
    refine List.nodup_append'.2 ⟨hold.nodup, hnew.nodup, fun p hp hp' => ?_⟩
    obtain ⟨f, hf, rfl⟩ := List.mem_map.1 hp
    obtain ⟨g, hg, hgp⟩ := List.mem_map.1 hp'
    exact happart f hf g hg hgp.symm
  · rcases List.mem_append.1 hf with hf | hf
    · exact hold.fresh f hf hfile
    · exact hnew.fresh f hf (.inl hfile)
  · rcases List.mem_append.1 hf with hf | hf
    · exact (h.apart i j w w' hj.symm hw hw').1 f hf g hg hp
    · exact hnew.fresh f hf (.inr ⟨j, w', hw', hp ▸ List.mem_map_of_mem hg⟩)

/-- A snapshot of other software, of files the table has or at paths no file has had. -/
theorem commit (h : σ.Sound V rd) {table : String} {sn : TableSnapshot} {t : IcebergTable}
    (ht : σ.storage.tables table = some t) (hnew : t.metadata.snapshotById sn.id = none)
    (hparent : sn.parent = t.metadata.current) (hforeign : sn.writeId = none)
    (hnodup : (sn.files.map fun f => f.path).Nodup)
    (hfiles : ∀ f ∈ sn.files, f ∈ t.metadata.filesAt t.metadata.current ∨ ¬ σ.HasPath f.path) :
    Sound V rd { σ with
      storage := σ.storage.changeTable table fun t => { t with metadata := t.metadata.push sn } } := by
  have hroot := h.rooted table t ht
  have hchange : (σ.storage.changeTable table fun t => { t with metadata := t.metadata.push sn }) =
      σ.storage.setTable table { t with metadata := t.metadata.push sn } := by
    unfold Storage.changeTable
    rw [ht]
  have hpushed : (t.metadata.push sn).Rooted := by
    refine hroot.push hnew hparent hnodup fun f hf => ?_
    rcases hfiles f hf with hold | hpath
    · exact .inl (TableMetadata.mem_filesAt hold)
    · refine .inr fun u hu g hg hp => hpath (.inl ⟨table, t, u, ht, hu, ?_⟩)
      exact hp ▸ List.mem_map_of_mem hg
  have htold : Told V rd (σ.storage.setTable table { t with metadata := t.metadata.push sn }) := by
    refine h.told.setTable (fun snapshot file m hm => ?_) fun u id file f hu hid hf => ?_
    · obtain ⟨u, hu, hid, htells⟩ := h.told.facts table t snapshot file m ht hm
      exact ⟨u, TableMetadata.snapshotById_push_of hu, hid, htells⟩
    · rcases List.mem_append.1 hu with hold | hsn
      · show Wrote V rd ((t.metadata.push sn).filesAt u.parent) f u.files
        rw [TableMetadata.filesAt_push (hroot.parents u hold)]
        exact h.told.writes table t u id file f ht hold hid hf
      · obtain rfl := List.mem_singleton.1 hsn
        cases hforeign.symm.trans hid
  have hgrew : Grew (fun _ => False) (fun p => ¬ σ.HasPath p) σ.storage
      (σ.storage.setTable table { t with metadata := t.metadata.push sn }) := by
    refine Grew.setTable h.rooted (fun t₀ ht₀ => ?_) hpushed (fun u hu => ?_) fun id file => .inr (.inr ⟨t, ht, rfl⟩)
    · cases ht.symm.trans ht₀
      exact List.prefix_append ..
    · rcases List.mem_append.1 hu with hold | hsn
      · exact .inl ⟨t, ht, hold⟩
      · obtain rfl := List.mem_singleton.1 hsn
        refine .inr ⟨fun id hid => (by cases hforeign.symm.trans hid), fun f hf => ?_⟩
        rcases hfiles f hf with hold | hpath
        · obtain ⟨v, hv, hfv⟩ := TableMetadata.mem_filesAt hold
          exact .inr ⟨table, t, v, ht, hv, List.mem_map_of_mem hfv⟩
        · exact .inl hpath
  rw [hchange]
  exact h.moved h.compiled htold hgrew (fun _ _ _ _ _ => not_false)
    fun i w hw f hf hnot => hnot (.inr ⟨i, w, hw, List.mem_map_of_mem hf⟩)

/-- A call that begins no write moves no data. -/
theorem called (hR : Counts R V rd) (h : σ.Sound V rd) (k : Nat) (now : Int) (call : EngineCall) :
    Unmoved V rd (σ.node k now) (final (call.make R) (σ.node k now)) :=
  (unmoved_call hR (h.registers k) call).final (unmoved_self h.told)

/-- What beginning a write leaves. -/
theorem begun (h : σ.Sound V rd) {k : Nat} {now : Int} {name id : String} {mode : WriteMode}
    {rewrite : Option (Int × List String)} {onViolation : OnWriteViolation} {w : Begun} {n : Node}
    (hbegun : beginWrite name mode rewrite onViolation id (σ.node k now) = .ok w n) :
    Readied V rd (σ.node k now) n ∧ FreshWrite (σ.node k now) name rewrite id w := by
  have hends : Ends (AsWas (σ.node k now)) (beginWrite name mode rewrite onViolation id)
      (fun w n => Readied V rd (σ.node k now) n ∧ FreshWrite (σ.node k now) name rewrite id w)
      (fun _ => AsWas (σ.node k now)) := beginWrite_ends h.told h.rooted _ _ _ _ _
  exact hends.of_ok ⟨rfl, rfl⟩ hbegun

/-- What beginning a compaction leaves. -/
theorem begunCompact (h : σ.Sound V rd) {k : Nat} {now : Int} {name id : String} {smallFileBytes minSmallFiles : Nat}
    {w : Begun} {n : Node}
    (hbegun : beginCompact name smallFileBytes minSmallFiles id (σ.node k now) = .ok (some w) n) :
    Readied V rd (σ.node k now) n ∧ ∃ table t sn rewrite, FreshWrite (σ.node k now) name rewrite id w ∧
      w.location = .iceberg table ∧ σ.storage.tables table = some t ∧ sn ∈ t.metadata.snapshots ∧
      t.metadata.filesAt t.metadata.current = sn.files ∧ w.removed = sn.files.map fun f => f.path := by
  have hends : Ends (AsWas (σ.node k now)) (beginCompact name smallFileBytes minSmallFiles id) _
      (fun _ => AsWas (σ.node k now)) := beginCompact_ends h.told h.rooted _ _ _ _
  exact hends.of_ok ⟨rfl, rfl⟩ hbegun w rfl

/-- What finishing a write leaves. -/
theorem finished (hR : Counts R V rd) (h : σ.Sound V rd) {i : Nat} (now : Int) {w : OpenWrite}
    {commit : TableMetadata → Except PeqlError (Int × Option Int)} (hw : σ.writes i = some w)
    (hanswers : Answers w.begun commit)
    (hcovers : (∀ table, w.begun.location ≠ .iceberg table) → ∀ file m,
      (σ.storage.dirs w.begun.location).manifests file = .facts m →
        ∃ reg ∈ w.begun.bound (σ.engines w.engine), manifestFile reg.name = file) :
    w.begun.Left V rd (σ.node w.engine now) (final (w.begun.finishWrite R commit) (σ.node w.engine now)) := by
  have hends : Ends (AsWas (σ.node w.engine now)) (w.begun.finishWrite R commit)
      (fun _ => w.begun.Left V rd (σ.node w.engine now)) (fun _ => w.begun.Left V rd (σ.node w.engine now)) :=
    Begun.finishWrite_ends hR (h.registers _) h.told h.rooted (h.writes i w hw) hanswers hcovers
  exact hends.final ⟨rfl, rfl⟩

/-- A write that is over, committed or not. -/
theorem finish (hR : Counts R V rd) (h : σ.Sound V rd) {i : Nat} {now : Int} {w : OpenWrite}
    {commit : TableMetadata → Except PeqlError (Int × Option Int)} (hw : σ.writes i = some w)
    (hanswers : Answers w.begun commit)
    (hcovers : (∀ table, w.begun.location ≠ .iceberg table) → ∀ file m,
      (σ.storage.dirs w.begun.location).manifests file = .facts m →
        ∃ reg ∈ w.begun.bound (σ.engines w.engine), manifestFile reg.name = file) :
    ((σ.after w.engine (final (w.begun.finishWrite R commit) (σ.node w.engine now))).setWrite i none).Sound V rd := by
  have hleft := h.finished hR now hw hanswers hcovers
  have hothers : ∀ {j w'}, (σ.setWrite i none).writes j = some w' → j ≠ i ∧ σ.writes j = some w' := fun hj =>
    (of_setWrite hj).resolve_left fun h => nomatch h.2
  have hover : (σ.setWrite i none).Sound V rd := h.setWrite i none fun _ hw => by cases hw
  refine hover.moved (h.compiled_after hleft.store) hleft.told hleft.grew (fun j w' hj => ?_) fun j w' hj f hf hp => ?_
  · obtain ⟨hji, hj⟩ := hothers hj
    exact (h.apart j i w' w hji hj hw).2
  · obtain ⟨hji, hj⟩ := hothers hj
    obtain ⟨g, hg, hgp⟩ := List.mem_map.1 hp
    exact (h.apart j i w' w hji hj hw).1 f hf g hg hgp.symm

/-- A step of a fleet whose recorded facts are true. -/
theorem step (hR : Counts R V rd) {a : FleetAction} {τ : Fleet} (h : σ.Sound V rd) (hcovers : Covers σ a)
    (hstep : FleetStep R V σ a τ) : τ.Sound V rd := by
  cases hstep with
  | registers compiled =>
    refine h.withStore fun reg hreg => ?_
    rcases Contents.mem_put hreg with rfl | hreg
    · exact compiled
    · exact h.compiled _ reg hreg
  | publishes k name audience => exact h.withStore (h.compiled k)
  | unpublishes k name audience => exact h.withStore (h.compiled k)
  | calls k now call =>
    have hn := h.called hR k now call
    exact h.after hn.told hn.store ((Grew.refl h.rooted).same hn.data.metadata hn.data.writeFacts)
  | begins free fresh begun =>
    obtain ⟨hready, hfresh⟩ := h.begun begun
    have hnone : σ.NewFiles [] := ⟨List.nodup_nil, fun _ hf => by cases hf⟩
    have hw : ∀ w' : Begun, w'.files = [] → { w' with files := [], rows := w'.rows } = w' := by
      rintro ⟨⟩ rfl
      rfl
    rw [← hw _ hfresh.files]
    exact h.begin hready hfresh fresh hnone fun hw => absurd rfl (hfresh.written hw)
  | compacts free fresh new begun location found copied =>
    obtain ⟨hready, table, t, sn, rewrite, hfresh, hloc, ht, hsn, hcur, hremoved⟩ := h.begunCompact begun
    refine h.begin hready hfresh fresh new fun _ => ⟨table, t, sn, hloc, ht, hsn, hremoved, ?_⟩
    cases location.symm.trans hloc
    cases found.symm.trans ht
    rw [← hcur]
    exact copied
  | writes held data new part => exact h.part held data new part
  | finishes held answers => exact h.finish hR held answers (hcovers _ held)
  | drops i => exact h.setWrite i none fun _ hw => by cases hw
  | commits found new parent foreign nodup files => exact h.commit found new parent foreign nodup files

/-- No step takes a snapshot from a table. -/
theorem later (hR : Counts R V rd) {a : FleetAction} {τ : Fleet} (h : σ.Sound V rd) (hcovers : Covers σ a)
    (hstep : FleetStep R V σ a τ) : σ.storage.Later τ.storage := by
  cases hstep with
  | registers | publishes | unpublishes | writes | drops => exact .refl _
  | calls k now call =>
    have hn := h.called hR k now call
    have hg : Grew (fun _ => False) (fun _ => False) σ.storage _ :=
      (Grew.refl h.rooted).same hn.data.metadata hn.data.writeFacts
    exact hg.kept
  | begins free fresh begun => exact (h.begun begun).1.grew.kept
  | compacts free fresh new begun location found copied => exact (h.begunCompact begun).1.grew.kept
  | finishes held answers => exact (h.finished hR _ held answers (hcovers _ held)).grew.kept
  | commits found => exact Storage.later_push found _

/-- The data of a place changes when a write to it is finished, or other software commits to its table, and with no
other step. -/
theorem live (hR : Counts R V rd) {a : FleetAction} {τ : Fleet} (h : σ.Sound V rd) (hcovers : Covers σ a)
    (hstep : FleetStep R V σ a τ) {l : Location}
    (hchanged : liveFiles τ.storage l none ≠ liveFiles σ.storage l none) :
    (∃ i now commit w, a = .finishes i now commit ∧ σ.writes i = some w ∧ w.begun.location = l) ∨
      ∃ table sn, a = .commits table sn ∧ l = .iceberg table := by
  cases hstep with
  | registers | publishes | unpublishes | writes | drops => exact absurd rfl hchanged
  | calls k now call => exact absurd ((h.called hR k now call).data.liveFiles l none) hchanged
  | begins free fresh begun => exact absurd ((h.begun begun).1.live l) hchanged
  | compacts free fresh new begun location found copied => exact absurd ((h.begunCompact begun).1.live l) hchanged
  | @finishes i now w commit held answers =>
    by_cases hl : w.begun.location = l
    · exact .inl ⟨i, now, commit, w, rfl, held, hl⟩
    · exact absurd ((h.finished hR now held answers (hcovers _ held)).elsewhere l fun heq => hl heq.symm) hchanged
  | @commits table sn t found new parent foreign nodup files =>
    by_cases hl : l = .iceberg table
    · exact .inr ⟨table, sn, rfl, hl⟩
    · refine absurd ?_ hchanged
      show liveFiles (σ.storage.changeTable table _) l none = _
      unfold Storage.changeTable
      rw [found]
      exact liveFiles_setTable_of_ne hl _ none

end Sound

end Fleet

/-! ## Every reachable state -/

/-- A fleet over data that others wrote, if any: no engine has recorded anything of it, and no write is open. -/
structure Fleet.Unrecorded (V : Compilation → Prop) (σ : Fleet) : Prop where
  dirs : ∀ l file m, (σ.storage.dirs l).manifests file ≠ .facts m
  facts : ∀ table t snapshot file m, σ.storage.tables table = some t → t.facts snapshot file ≠ .facts m
  writeFacts : ∀ table t id file f, σ.storage.tables table = some t → t.writeFacts id file ≠ .facts f
  rooted : ∀ table t, σ.storage.tables table = some t → t.metadata.Rooted
  compiled : ∀ k, ∀ reg ∈ (σ.engines k).store.versions, V reg.compilation
  idle : ∀ i, σ.writes i = none

/-- A fleet with nothing recorded is sound. -/
theorem Fleet.Unrecorded.sound {σ : Fleet} (h : σ.Unrecorded V) : σ.Sound V rd where
  told := ⟨fun l file m hm => absurd hm (h.dirs l file m),
    fun table t snapshot file m ht hm => absurd hm (h.facts table t snapshot file m ht),
    fun table t _ id file f ht _ _ hf => absurd hf (h.writeFacts table t id file f ht)⟩
  compiled := h.compiled
  rooted := h.rooted
  writes i w hw := by cases (h.idle i).symm.trans hw
  apart i _ w _ _ hw := by cases (h.idle i).symm.trans hw

/-- What a fleet's steps keep holds in every state they lead to, and no snapshot is taken from a table. -/
theorem Fleet.Sound.run (hR : Counts R V rd) {σ τ : Fleet} {as : List FleetAction} (h : σ.Sound V rd)
    (hrun : Run (Guarded Covers (FleetStep R V)) σ as τ) : τ.Sound V rd ∧ σ.storage.Later τ.storage :=
  hrun.inv_of_all (I := fun τ => τ.Sound V rd ∧ σ.storage.Later τ.storage)
    (fun _ _ _ hs hg hstep => ⟨hs.1.step hR hg hstep, hs.2.trans (hs.1.later hR hg hstep)⟩) ⟨h, .refl _⟩

/-- A validation of amounts counts them. -/
theorem counts_amounts : Counts amountsRuntime (· = amountContract) fun _ => amountReading where
  failures c hc rows v hv := by
    subst hc
    obtain rfl := Except.ok.inj hv
    rfl
  asserts c hc f hf := by
    subst hc
    obtain rfl := List.mem_singleton.1 hf
    exact List.mem_singleton_self _
  hashes c c' hc hc' _ := Eq.trans hc (Eq.symm hc')

def amountsFleet : Fleet := ⟨fun _ => amountsEngine, emptyStorage, fun _ => none⟩

theorem unrecorded_amounts : amountsFleet.Unrecorded (· = amountContract) where
  dirs _ _ _ hm := by cases hm
  facts _ _ _ _ _ ht := by cases ht
  writeFacts _ _ _ _ _ ht := by cases ht
  rooted _ _ ht := by cases ht
  compiled k reg hreg := by
    obtain rfl := List.mem_singleton.1 hreg
    rfl
  idle _ := rfl

/-- A catalog that takes one commit. -/
def commitsOnce (t : TableMetadata) : Except PeqlError (Int × Option Int) :=
  if (t.snapshotById 1).isNone then .ok (1, some 5) else .error (.iceberg "conflict")

/-- Where no table has a snapshot, and no write a file, files are new. -/
theorem Fleet.newFiles {σ : Fleet} {files : List StoredFile} (hnodup : (files.map fun f => f.path).Nodup)
    (htables : ∀ table t, σ.storage.tables table = some t → t.metadata.snapshots = [])
    (hwrites : ∀ i w, σ.writes i = some w → w.begun.files = []) : σ.NewFiles files := by
  refine ⟨hnodup, fun g _ => ?_⟩
  rintro (⟨table, t, sn, ht, hsn, _⟩ | ⟨i, w, hw, hp⟩)
  · rw [htables table t ht] at hsn
    cases hsn
  · rw [hwrites i w hw] at hp
    cases hp

theorem answers_commitsOnce {w : Begun} (h : w.written = .append) : Answers w commitsOnce := by
  intro t id time hcommit
  unfold commitsOnce at hcommit
  split at hcommit
  · next hnone =>
    cases hcommit
    refine ⟨?_, Option.isNone_iff_eq_none.1 hnone⟩
    unfold Begun.CommitsOver
    rw [h]
    trivial
  · cases hcommit

/-- The amounts' table is there, and a write to it has been begun. -/
theorem newFiles_amounts {σ : Fleet} {files : List StoredFile} (hnodup : (files.map fun f => f.path).Nodup)
    {t : IcebergTable} {w : OpenWrite} (hs : σ.storage = emptyStorage.setTable "amounts" t)
    (ht : t.metadata.snapshots = []) (hσ : σ.writes = Function.update (fun _ => none) 0 (some w))
    (hw : w.begun.files = []) : σ.NewFiles files := by
  refine Fleet.newFiles hnodup (fun table t' ht' => ?_) fun i w' hw' => ?_
  · rw [hs] at ht'
    rcases Storage.tables_setTable ht' with ⟨rfl, rfl⟩ | ht'
    · exact ht
    · cases ht'
  · rw [hσ] at hw'
    by_cases hi : i = 0
    · subst hi
      rw [Function.update_self] at hw'
      cases hw'
      exact hw
    · rw [Function.update_of_ne hi] at hw'
      cases hw'

end Peql
