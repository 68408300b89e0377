import Peql.Engine.Unmoved

/-!
# Histories of tables

Snapshots are only added, each over the current one, and a path is of one file for good (`TableMetadata.Rooted`). Every
step leaves the tables grown (`Grew`): by nothing, or by a snapshot whose files are the tables' already or come with the
step, with the facts of no write but the step's changed. So a write that is being made stays its own (`Begun.Sound`)
while other writes grow the tables.
-/

namespace Peql

open Effects

variable {V : Compilation → Prop} {rd : Compilation → Reading}

namespace TableMetadata

variable {t : TableMetadata} {s : TableSnapshot}

/-- Snapshots that were each made over one of them, or over nothing, and whose files a path tells apart. -/
structure Rooted (t : TableMetadata) : Prop where
  parents : ∀ s ∈ t.snapshots, ∀ p, s.parent = some p → (t.snapshotById p).isSome
  current : ∀ c, t.current = some c → (t.snapshotById c).isSome
  nodup : ∀ s ∈ t.snapshots, (s.files.map fun f => f.path).Nodup
  paths : ∀ s ∈ t.snapshots, ∀ s' ∈ t.snapshots, ∀ f ∈ s.files, ∀ g ∈ s'.files, f.path = g.path → f = g

theorem rooted_nil (columns : List String) : (⟨[], none, columns⟩ : TableMetadata).Rooted where
  parents _ hs := by cases hs
  current _ hc := by cases hc
  nodup _ hs := by cases hs
  paths _ hs := by cases hs

theorem mem_snapshots_of_found {id : Int} (h : t.snapshotById id = some s) : s ∈ t.snapshots :=
  List.mem_of_find?_eq_some h

theorem snapshotById_push_of {id : Int} {sn : TableSnapshot} (h : t.snapshotById id = some sn) :
    (t.push s).snapshotById id = some sn := by
  unfold snapshotById at h ⊢
  unfold push
  rw [List.find?_append, h]
  rfl

theorem snapshotById_push_self (h : t.snapshotById s.id = none) : (t.push s).snapshotById s.id = some s := by
  unfold snapshotById at h ⊢
  unfold push
  rw [List.find?_append, h]
  simp

/-- What a snapshot held, or no snapshot, another commit does not change. -/
theorem filesAt_push {at_ : Option Int} (h : ∀ id, at_ = some id → (t.snapshotById id).isSome) :
    (t.push s).filesAt at_ = t.filesAt at_ := by
  cases at_ with
  | none => rfl
  | some id =>
    obtain ⟨sn, hsn⟩ := Option.isSome_iff_exists.1 (h id rfl)
    rw [filesAt_some hsn, filesAt_some (snapshotById_push_of hsn)]

theorem mem_filesAt {at_ : Option Int} {f : StoredFile} (h : f ∈ t.filesAt at_) : ∃ s ∈ t.snapshots, f ∈ s.files := by
  cases at_ with
  | none => cases h
  | some id =>
    unfold filesAt at h
    cases hs : t.snapshotById id with
    | none =>
      simp only [hs] at h
      cases h
    | some s =>
      simp only [hs] at h
      exact ⟨s, mem_snapshots_of_found hs, h⟩

theorem Rooted.nodup_filesAt (h : t.Rooted) (at_ : Option Int) : ((t.filesAt at_).map fun f => f.path).Nodup := by
  cases at_ with
  | none => exact List.nodup_nil
  | some id =>
    cases hs : t.snapshotById id with
    | none =>
      simp only [filesAt, hs]
      exact List.nodup_nil
    | some s =>
      rw [filesAt_some hs]
      exact h.nodup s (mem_snapshots_of_found hs)

/-- A commit of files that are the table's already, or whose paths are new. -/
theorem Rooted.push (h : t.Rooted) (hid : t.snapshotById s.id = none) (hparent : s.parent = t.current)
    (hnodup : (s.files.map fun f => f.path).Nodup)
    (hfiles : ∀ f ∈ s.files, (∃ s' ∈ t.snapshots, f ∈ s'.files) ∨
      ∀ s' ∈ t.snapshots, ∀ g ∈ s'.files, g.path ≠ f.path) : (t.push s).Rooted := by
  have hmem : ∀ {u}, u ∈ (t.push s).snapshots → u ∈ t.snapshots ∨ u = s := fun hu => by
    simpa [TableMetadata.push] using hu
  have hkept : ∀ {p}, (t.snapshotById p).isSome → ((t.push s).snapshotById p).isSome := fun hp => by
    obtain ⟨sn, hsn⟩ := Option.isSome_iff_exists.1 hp
    rw [snapshotById_push_of hsn]
    rfl
  have hone : ∀ u ∈ t.snapshots, ∀ f ∈ u.files, ∀ g ∈ s.files, f.path = g.path → f = g := by
    intro u hu f hf g hg hp
    rcases hfiles g hg with ⟨s', hs', hg'⟩ | hnew
    · exact h.paths u hu s' hs' f hf g hg' hp
    · exact absurd hp (hnew u hu f hf)
  refine ⟨fun u hu p hp => ?_, fun c hc => ?_, fun u hu => ?_, fun u hu v hv f hf g hg hp => ?_⟩
  · rcases hmem hu with hu | rfl
    · exact hkept (h.parents u hu p hp)
    · exact hkept (h.current p (hparent.symm.trans hp))
  · have heq : s.id = c := Option.some.inj hc
    rw [← heq, snapshotById_push_self hid]
    rfl
  · rcases hmem hu with hu | rfl
    · exact h.nodup u hu
    · exact hnodup
  · rcases hmem hu with hut | hus
    · rcases hmem hv with hvt | hvs
      · exact h.paths u hut v hvt f hf g hg hp
      · exact hone u hut f hf g (hvs ▸ hg) hp
    · rcases hmem hv with hvt | hvs
      · exact (hone v hvt g hg f (hus ▸ hf) hp.symm).symm
      · exact List.inj_on_of_nodup_map hnodup (hus ▸ hf) (hvs ▸ hg) hp

end TableMetadata

/-- Some file of a table has the path. -/
def Storage.HasFile (s : Storage) (p : String) : Prop :=
  ∃ table t sn, s.tables table = some t ∧ sn ∈ t.metadata.snapshots ∧ p ∈ sn.files.map fun f => f.path

/-- Every table is there, with the snapshots it had and perhaps more after them. -/
def Storage.Later (s s' : Storage) : Prop :=
  ∀ table t, s.tables table = some t →
    ∃ t', s'.tables table = some t' ∧ t.metadata.snapshots <+: t'.metadata.snapshots

theorem Storage.Later.refl (s : Storage) : s.Later s := fun _ t ht => ⟨t, ht, List.prefix_rfl⟩

theorem Storage.Later.trans {s s' s'' : Storage} (h : s.Later s') (h' : s'.Later s'') : s.Later s'' := by
  intro table t ht
  obtain ⟨t', ht', hprefix⟩ := h table t ht
  obtain ⟨t'', ht'', hprefix'⟩ := h' table t' ht'
  exact ⟨t'', ht'', hprefix.trans hprefix'⟩

theorem Storage.later_push {s : Storage} {table : String} {t : IcebergTable} (ht : s.tables table = some t)
    (sn : TableSnapshot) :
    s.Later (s.changeTable table fun t => { t with metadata := t.metadata.push sn }) := by
  intro name t' ht'
  unfold Storage.changeTable
  rw [ht]
  by_cases hname : name = table
  · subst hname
    cases ht.symm.trans ht'
    exact ⟨_, Storage.setTable_self .., List.prefix_append ..⟩
  · exact ⟨t', by rw [Storage.setTable_of_ne _ hname, ht'], List.prefix_rfl⟩

/-- A snapshot is the same one in a later state of its table. -/
theorem Storage.Later.snapshot {s s' : Storage} (h : s.Later s') {table : String} {t : IcebergTable}
    (ht : s.tables table = some t) {id : Int} (hid : (t.metadata.snapshotById id).isSome) :
    ∃ t', s'.tables table = some t' ∧ t'.metadata.snapshotById id = t.metadata.snapshotById id := by
  obtain ⟨t', ht', rest, hrest⟩ := h table t ht
  refine ⟨t', ht', ?_⟩
  obtain ⟨sn, hsn⟩ := Option.isSome_iff_exists.1 hid
  unfold TableMetadata.snapshotById at hsn ⊢
  rw [← hrest, List.find?_append, hsn]
  rfl

/-! ## Tables that grow -/

/-- The tables of `s'` are those of `s`, and perhaps new ones, with perhaps more snapshots, of writes among `ids` and of
files the tables had or with paths among `paths`; the facts of other writes are as they were. -/
structure Grew (ids paths : String → Prop) (s s' : Storage) : Prop where
  kept : s.Later s'
  rooted : ∀ table t, s'.tables table = some t → t.metadata.Rooted
  snapshots : ∀ table t', s'.tables table = some t' → ∀ sn ∈ t'.metadata.snapshots,
    (∃ t, s.tables table = some t ∧ sn ∈ t.metadata.snapshots) ∨
      (∀ id, sn.writeId = some id → ids id) ∧ ∀ f ∈ sn.files, paths f.path ∨ s.HasFile f.path
  writeFacts : ∀ table t' id file, s'.tables table = some t' →
    ids id ∨ t'.writeFacts id file = .absent ∨
      ∃ t, s.tables table = some t ∧ t'.writeFacts id file = t.writeFacts id file

variable {s s' s'' : Storage} {ids paths : String → Prop}

theorem Grew.refl (hrooted : ∀ table t, s.tables table = some t → t.metadata.Rooted) : Grew ids paths s s where
  kept := .refl s
  rooted := hrooted
  snapshots _ t ht _ hsn := .inl ⟨t, ht, hsn⟩
  writeFacts _ t _ _ ht := .inr (.inr ⟨t, ht, rfl⟩)

theorem Grew.mono {ids' paths' : String → Prop} (h : Grew ids paths s s') (hids : ∀ id, ids id → ids' id)
    (hpaths : ∀ p, paths p → paths' p) : Grew ids' paths' s s' where
  kept := h.kept
  rooted := h.rooted
  snapshots table t' ht' sn hsn := (h.snapshots table t' ht' sn hsn).imp_right fun hnew =>
    ⟨fun id hid => hids id (hnew.1 id hid), fun f hf => (hnew.2 f hf).imp_left (hpaths _)⟩
  writeFacts table t' id file ht' := (h.writeFacts table t' id file ht').imp_left (hids id)

/-- Tables with the same snapshots and the same facts of writes. -/
theorem Grew.same (h : Grew ids paths s s')
    (hm : ∀ table, (s''.tables table).map IcebergTable.metadata = (s'.tables table).map IcebergTable.metadata)
    (hw : ∀ table, (s''.tables table).map IcebergTable.writeFacts = (s'.tables table).map IcebergTable.writeFacts) :
    Grew ids paths s s'' := by
  have hback : ∀ {table t''}, s''.tables table = some t'' →
      ∃ t', s'.tables table = some t' ∧ t''.metadata = t'.metadata ∧ t''.writeFacts = t'.writeFacts := by
    intro table t'' ht''
    have hmt := hm table
    have hwt := hw table
    rw [ht''] at hmt hwt
    obtain ⟨t', ht', hmeta⟩ := Option.map_eq_some_iff.1 hmt.symm
    rw [ht'] at hwt
    exact ⟨t', ht', hmeta.symm, Option.some.inj hwt⟩
  refine ⟨fun table t ht => ?_, fun table t'' ht'' => ?_, fun table t'' ht'' sn hsn => ?_,
    fun table t'' id file ht'' => ?_⟩
  · obtain ⟨t', ht', hprefix⟩ := h.kept table t ht
    have hmt := hm table
    rw [ht'] at hmt
    obtain ⟨t'', ht'', hmeta⟩ := Option.map_eq_some_iff.1 hmt
    exact ⟨t'', ht'', hmeta ▸ hprefix⟩
  · obtain ⟨t', ht', hmeta, -⟩ := hback ht''
    exact hmeta ▸ h.rooted table t' ht'
  · obtain ⟨t', ht', hmeta, -⟩ := hback ht''
    exact h.snapshots table t' ht' sn (hmeta ▸ hsn)
  · obtain ⟨t', ht', -, hfacts⟩ := hback ht''
    rw [hfacts]
    exact h.writeFacts table t' id file ht'

/-- A table is the one put in place, or was there. -/
theorem Storage.tables_setTable {table name : String} {t t' : IcebergTable}
    (h : (s.setTable table t').tables name = some t) : name = table ∧ t = t' ∨ s.tables name = some t := by
  by_cases hname : name = table
  · subst hname
    rw [Storage.setTable_self] at h
    exact .inl ⟨rfl, (Option.some.inj h).symm⟩
  · rw [Storage.setTable_of_ne _ hname] at h
    exact .inr h

/-- One table is replaced by a later state of it, or a new one put in place. -/
theorem Grew.setTable (hrooted : ∀ table t, s.tables table = some t → t.metadata.Rooted)
    {table : String} {t' : IcebergTable}
    (hkept : ∀ t, s.tables table = some t → t.metadata.snapshots <+: t'.metadata.snapshots) (hroot : t'.metadata.Rooted)
    (hsnapshots : ∀ sn ∈ t'.metadata.snapshots, (∃ t, s.tables table = some t ∧ sn ∈ t.metadata.snapshots) ∨
      (∀ id, sn.writeId = some id → ids id) ∧ ∀ f ∈ sn.files, paths f.path ∨ s.HasFile f.path)
    (hfacts : ∀ id file, ids id ∨ t'.writeFacts id file = .absent ∨
      ∃ t, s.tables table = some t ∧ t'.writeFacts id file = t.writeFacts id file) :
    Grew ids paths s (s.setTable table t') := by
  refine ⟨fun name t ht => ?_, fun name t ht => ?_, fun name t ht sn hsn => ?_, fun name t id file ht => ?_⟩
  · by_cases hname : name = table
    · subst hname
      exact ⟨t', Storage.setTable_self .., hkept t ht⟩
    · exact ⟨t, by rw [Storage.setTable_of_ne _ hname, ht], List.prefix_rfl⟩
  · rcases Storage.tables_setTable ht with ⟨rfl, rfl⟩ | ht
    · exact hroot
    · exact hrooted name t ht
  · rcases Storage.tables_setTable ht with ⟨rfl, rfl⟩ | ht
    · exact hsnapshots sn hsn
    · exact .inl ⟨t, ht, hsn⟩
  · rcases Storage.tables_setTable ht with ⟨rfl, rfl⟩ | ht
    · exact hfacts id file
    · exact .inr (.inr ⟨t, ht, rfl⟩)

/-- What is recorded of every other table stays; of this one it tells of its data. -/
theorem Told.setTable (h : Told V rd s) {table : String} {t' : IcebergTable}
    (hfacts : ∀ snapshot file m, t'.facts snapshot file = .facts m →
      ∃ sn, t'.metadata.snapshotById snapshot = some sn ∧ m.snapshotId = some snapshot ∧ Tells V rd sn.files m)
    (hwrites : ∀ sn id file f, sn ∈ t'.metadata.snapshots → sn.writeId = some id → t'.writeFacts id file = .facts f →
      Wrote V rd (t'.metadata.filesAt sn.parent) f sn.files) : Told V rd (s.setTable table t') where
  beside := h.beside
  facts name t snapshot file m ht hm := by
    rcases Storage.tables_setTable ht with ⟨rfl, rfl⟩ | ht
    · exact hfacts snapshot file m hm
    · exact h.facts name t snapshot file m ht hm
  writes name t sn id file f ht hsn hid hf := by
    rcases Storage.tables_setTable ht with ⟨rfl, rfl⟩ | ht
    · exact hwrites sn id file f hsn hid hf
    · exact h.writes name t sn id file f ht hsn hid hf

/-! ## Writes being made -/

namespace Begun

/-- The id of a write to a table. -/
def writeId (w : Begun) : Option String := w.iceberg.map IcebergBegun.id

/-- A write that is its own: under a compiled contract, with an id that no snapshot has and files at paths that no
table's file has; a rewrite has copied the rows of the files it replaces, which are a snapshot's. -/
structure Sound (V : Compilation → Prop) (s : Storage) (w : Begun) : Prop where
  compiled : V w.reg.compilation
  nodup : (w.files.map fun f => f.path).Nodup
  fresh : ∀ f ∈ w.files, ¬ s.HasFile f.path
  unused : ∀ table t id, s.tables table = some t → w.writeId = some id →
    (∀ sn ∈ t.metadata.snapshots, sn.writeId ≠ some id) ∧ ∀ file, t.writeFacts id file = .absent
  rewrites : w.written = .rewrite → ∃ table t sn, w.location = .iceberg table ∧ s.tables table = some t ∧
    sn ∈ t.metadata.snapshots ∧ (w.removed = sn.files.map fun f => f.path) ∧ SameRows w.files sn.files

variable {w : Begun}

/-- A write stays its own while the tables grow by what others write. -/
theorem Sound.grew (h : w.Sound V s) (hg : Grew ids paths s s')
    (hid : ∀ id, w.writeId = some id → ¬ ids id) (hpaths : ∀ f ∈ w.files, ¬ paths f.path) : w.Sound V s' where
  compiled := h.compiled
  nodup := h.nodup
  fresh := by
    rintro f hf ⟨table, t', sn, ht', hsn, hp⟩
    rcases hg.snapshots table t' ht' sn hsn with ⟨t, ht, hold⟩ | ⟨-, hfiles⟩
    · exact h.fresh f hf ⟨table, t, sn, ht, hold, hp⟩
    · obtain ⟨g, hgf, hpath⟩ := List.mem_map.1 hp
      rcases hfiles g hgf with hnew | hold
      · exact hpaths f hf (hpath ▸ hnew)
      · exact h.fresh f hf (hpath ▸ hold)
  unused table t' id ht' hw := by
    refine ⟨fun sn hsn hsid => ?_, fun file => ?_⟩
    · rcases hg.snapshots table t' ht' sn hsn with ⟨t, ht, hold⟩ | ⟨hids, -⟩
      · exact (h.unused table t id ht hw).1 sn hold hsid
      · exact hid id hw (hids id hsid)
    · rcases hg.writeFacts table t' id file ht' with hids | habsent | ⟨t, ht, heq⟩
      · exact absurd hids (hid id hw)
      · exact habsent
      · rw [heq]
        exact (h.unused table t id ht hw).2 file
  rewrites hw := by
    obtain ⟨table, t, sn, hloc, ht, hsn, hremoved, hrows⟩ := h.rewrites hw
    obtain ⟨t', ht', hprefix⟩ := hg.kept table t ht
    exact ⟨table, t', sn, hloc, ht', hprefix.subset hsn, hremoved, hrows⟩

/-- A rewrite that commits has the rows of the files it takes from the table. -/
theorem Sound.rewritten (h : w.Sound V s) {table : String} {t : IcebergTable} (hloc : w.location = .iceberg table)
    (ht : s.tables table = some t) (hroot : t.metadata.Rooted) (hcommits : w.CommitsOver t.metadata)
    (hw : w.written = .rewrite) :
    SameRows w.files ((t.metadata.filesAt t.metadata.current).filter fun f => f.path ∈ w.removed) := by
  unfold CommitsOver at hcommits
  rw [hw] at hcommits
  obtain ⟨table', t', sn, hloc', ht', hsn, hrem, hrows⟩ := h.rewrites hw
  cases hloc.symm.trans hloc'
  cases ht.symm.trans ht'
  -- the files of the snapshot rewritten are those of the current one it names
  refine hrows.trans (SameRows.of_perm ?_)
  rw [List.perm_ext_iff_of_nodup (hroot.nodup sn hsn).of_map ((hroot.nodup_filesAt _).of_map.filter _)]
  intro g
  rw [List.mem_filter, decide_eq_true_iff, hrem]
  constructor
  · intro hg
    have hpath : g.path ∈ sn.files.map fun f => f.path := List.mem_map_of_mem hg
    obtain ⟨g', hg', hsame⟩ := List.mem_map.1 (hcommits g.path (hrem ▸ hpath))
    obtain ⟨u, hu, hgu⟩ := TableMetadata.mem_filesAt hg'
    obtain rfl := hroot.paths u hu sn hsn g' hgu g hg hsame
    exact ⟨hg', hpath⟩
  · rintro ⟨hg, hpath⟩
    obtain ⟨g', hg', hsame⟩ := List.mem_map.1 hpath
    obtain ⟨u, hu, hgu⟩ := TableMetadata.mem_filesAt hg
    obtain rfl := hroot.paths sn hsn u hu g' hg' g hgu hsame
    exact hg'

/-- What a write made of its own files: what its facts say it did to the files it finds when it commits. -/
theorem Sound.wrote (h : w.Sound V s) {table : String} {t : IcebergTable} (hloc : w.location = .iceberg table)
    (ht : s.tables table = some t) (hroot : t.metadata.Rooted) (hcommits : w.CommitsOver t.metadata) {f : WriteFacts}
    (hwritten : f.written = w.written) (hremoved : f.removed = w.removed) (htells : Tells V rd w.files f.facts) :
    Wrote V rd (t.metadata.filesAt t.metadata.current) f (w.filesOver (t.metadata.filesAt t.metadata.current)) := by
  unfold filesOver
  cases hw : w.written with
  | append => exact .append (hwritten.trans hw) htells
  | overwrite => exact .overwrite (hwritten.trans hw) htells
  | rewrite =>
    rw [← hremoved]
    refine .rewrite (hwritten.trans hw) htells ?_
    rw [hremoved]
    exact h.rewritten hloc ht hroot hcommits hw

end Begun

end Peql
