import Peql.Engine.Write

/-!
# What recorded facts tell

A manifest tells of some files when it lists them with the contract hash each was written under and, under its own
compilation, counts the rows of theirs that fail each rule (`Tells`). Facts of a write tell of the files it wrote, and
say how the data before it became the data after (`Wrote`): so what is known after a write tells of the data after it
whenever what was known before told of the data before (`tells_after`). Storage in which everything recorded tells of
the data it is recorded for (`Told`) stays so when a validation or a snapshot's facts are recorded.
-/

namespace Peql

open Effects

/-- What peQL relies on of parcel, for the compilations engines register: a validation counts the rows that fail each
assert, every flag's assert among them, and a compilation hash is of one compilation. -/
structure Counts (R : Runtime) (V : Compilation → Prop) (rd : Compilation → Reading) : Prop where
  failures : ∀ c, V c → ∀ rows v, R.validate c rows = .ok v → v.failures = failing c (rd c) rows
  asserts : ∀ c, V c → ∀ f ∈ c.contract.flags, f.assertId ∈ c.validation.asserts
  hashes : ∀ c c', V c → V c' → c.contract.compilationHash = c'.contract.compilationHash → c = c'

/-- A file as a manifest lists it: its path, and the contract hash it was written under. -/
def FileEntry.stamp (f : FileEntry) : String × String := (f.path, f.contractHash)

/-- A manifest lists some files with their stamps and, under its compilation, counts their rows that fail. -/
structure Tells (V : Compilation → Prop) (rd : Compilation → Reading) (live : List StoredFile) (m : Manifest) :
    Prop where
  stamps : (m.files.map FileEntry.stamp).Perm (live.map fun f => f.entry.stamp)
  failures : ∀ c, V c → m.compilationHash = c.contract.compilationHash →
    m.failures = failing c (rd c) (providedRows c.contract false live)

/-- Some files hold the rows others hold, whatever columns are read of them. -/
def SameRows (xs ys : List StoredFile) : Prop :=
  ∀ columns, (storedRows xs).map (rowOf columns) = (storedRows ys).map (rowOf columns)

/-- What a write made of the data before it, as its facts say: files of its own among them. -/
inductive Wrote (V : Compilation → Prop) (rd : Compilation → Reading) (before : List StoredFile) (f : WriteFacts) :
    List StoredFile → Prop
  | append {own : List StoredFile} (written : f.written = .append) (tells : Tells V rd own f.facts) :
      Wrote V rd before f (before ++ own)
  | overwrite {own : List StoredFile} (written : f.written = .overwrite) (tells : Tells V rd own f.facts) :
      Wrote V rd before f own
  | rewrite {own : List StoredFile} (written : f.written = .rewrite) (tells : Tells V rd own f.facts)
      (rows : SameRows own (before.filter fun x => x.path ∈ f.removed)) :
      Wrote V rd before f (before.filter (fun x => x.path ∉ f.removed) ++ own)

variable {R : Runtime} {V : Compilation → Prop} {rd : Compilation → Reading} {before live own : List StoredFile}

/-! ## Files and rows -/

theorem storedRows_append (xs ys : List StoredFile) : storedRows (xs ++ ys) = storedRows xs + storedRows ys := by
  unfold storedRows
  rw [List.map_append, rowsOf_append]

/-- Some files' rows and the others' are all the rows. -/
theorem storedRows_filter (q : StoredFile → Bool) (xs : List StoredFile) :
    storedRows xs = storedRows (xs.filter q) + storedRows (xs.filter fun f => !q f) := by
  induction xs with
  | nil => rfl
  | cons f xs ih =>
    have hcons : ∀ ys, storedRows (f :: ys) = f.rows + storedRows ys := fun ys =>
      (storedRows_append [f] ys).trans (by simp [storedRows, rowsOf])
    rw [hcons, ih, List.filter_cons, List.filter_cons]
    cases q f with
    | true =>
      simp only [if_true, Bool.not_true, Bool.false_eq_true, if_false, hcons]
      rw [add_assoc]
    | false =>
      simp only [Bool.false_eq_true, if_false, Bool.not_false, if_true, hcons]
      rw [← add_assoc, add_comm f.rows, add_assoc]

/-- The rows a contract reads of two lists of files are those of each. -/
theorem providedRows_append (cc : CompiledContract) (stored : Bool) (xs ys : List StoredFile) :
    providedRows cc stored (xs ++ ys) = providedRows cc stored xs + providedRows cc stored ys := by
  unfold providedRows
  rw [storedRows_append, Multiset.map_add]

/-- Files of the same rows provide the same rows. -/
theorem SameRows.provided {xs ys : List StoredFile} (h : SameRows xs ys) (cc : CompiledContract) (stored : Bool) :
    providedRows cc stored xs = providedRows cc stored ys := h _

theorem SameRows.refl (xs : List StoredFile) : SameRows xs xs := fun _ => rfl

/-- The order of the files does not matter. -/
theorem SameRows.of_perm {xs ys : List StoredFile} (h : xs.Perm ys) : SameRows xs ys := by
  intro columns
  unfold storedRows rowsOf
  rw [((h.map StoredFile.toDataFile).map DataFile.rows).sum_eq]

theorem SameRows.trans {xs ys zs : List StoredFile} (h : SameRows xs ys) (h' : SameRows ys zs) : SameRows xs zs :=
  fun columns => (h columns).trans (h' columns)

/-- A rewrite's files hold the rows of those it replaced. -/
theorem SameRows.rewritten {removed : List String} (h : SameRows own (before.filter fun x => x.path ∈ removed)) :
    SameRows (before.filter (fun x => x.path ∉ removed) ++ own) before := by
  intro columns
  rw [storedRows_append, Multiset.map_add, h columns, storedRows_filter (fun x => decide (x.path ∈ removed)) before,
    Multiset.map_add, add_comm]
  congr 3
  exact List.filter_congr fun f _ => by simp

/-- A contract's entries of some files have the files' stamps. -/
theorem stamp_entryFor (cc : CompiledContract) (xs : List StoredFile) :
    (xs.map fun f => f.entryFor cc).map FileEntry.stamp = xs.map fun f => f.entry.stamp := by
  rw [List.map_map]
  rfl

/-- Entries left in place by their path. -/
theorem stamps_filter (removed : List String) (es : List FileEntry) :
    (es.filter fun f => f.path ∉ removed).map FileEntry.stamp =
      (es.map FileEntry.stamp).filter fun s => s.1 ∉ removed := by
  rw [List.filter_map]
  rfl

/-- Files left out leave out their stamps. -/
theorem live_stamps_filter (removed : List String) (xs : List StoredFile) :
    (xs.filter fun f => f.path ∉ removed).map (fun f => f.entry.stamp) =
      (xs.map fun f => f.entry.stamp).filter fun s => s.1 ∉ removed := by
  rw [List.filter_map]
  rfl

/-! ## After a write -/

/-- The facts a write computes of its own files. -/
theorem tells_own (hR : Counts R V rd) {c : Compilation} (hc : V c) {verdict : Verdict}
    (hv : R.validate c (providedRows c.contract false own) = .ok verdict) (writtenAt : Int) :
    Tells V rd own
      (writeManifest R.sha256 c verdict (own.map fun f => f.entryFor c.contract) writtenAt) where
  stamps := by
    show ((own.map fun f => f.entryFor c.contract).map FileEntry.stamp).Perm _
    rw [stamp_entryFor]
  failures := by
    intro c' hc' hh
    have heq : c = c' := hR.hashes c c' hc hc' hh
    subst heq
    show verdict.failures = _
    exact hR.failures c hc _ _ hv

/-- What a validation of some files finds. -/
theorem tells_whole (hR : Counts R V rd) {c : Compilation} (hc : V c) {verdict : Verdict}
    (hv : R.validate c (providedRows c.contract false live) = .ok verdict) (writtenAt decidedAt : Int)
    (snapshotId : Option Int) :
    Tells V rd live (wholeManifest R.sha256 c verdict (live.map fun f => f.entryFor c.contract) writtenAt decidedAt
      snapshotId) where
  stamps := by
    show ((live.map fun f => f.entryFor c.contract).map FileEntry.stamp).Perm _
    rw [stamp_entryFor]
  failures := by
    intro c' hc' hh
    have heq : c = c' := hR.hashes c c' hc hc' hh
    subst heq
    exact hR.failures c hc _ _ hv

variable {c : Compilation} {m b : Manifest} {f : WriteFacts}

/-- Settling a manifest changes the order of its files, and neither their stamps nor what was counted. -/
theorem Tells.settled (h : Tells V rd live m) (sha256 : String → String) (c : Compilation) (snapshotId : Option Int) :
    Tells V rd live (settled sha256 c snapshotId m) where
  stamps := ((List.mergeSort_perm m.files pathLe).map _).trans h.stamps
  failures := h.failures

/-- The facts of data an append found empty, or an overwrite replaced. -/
theorem Tells.first (h : Tells V rd own m) (writtenAt : Int) :
    Tells V rd own { m with writtenAt := writtenAt, guarantees := Lookup.empty } := ⟨h.stamps, h.failures⟩

/-- A manifest after an append tells of the files before and of its own. -/
theorem Tells.appended (hR : Counts R V rd) (hb : Tells V rd before b) (hw : Tells V rd own f.facts) (hc : V c)
    (hbh : b.compilationHash = c.contract.compilationHash) (hwh : f.facts.compilationHash = c.contract.compilationHash)
    (p : Parsers) (writtenAt : Int) : Tells V rd (before ++ own) (appended p c b f.facts writtenAt) where
  stamps := by
    show ((b.files ++ f.facts.files).map FileEntry.stamp).Perm _
    rw [List.map_append, List.map_append]
    exact hb.stamps.append hw.stamps
  failures := by
    intro c' hc' hh
    have heq : c = c' := hR.hashes c c' hc hc' (hwh.symm.trans hh)
    subst heq
    show combinedFailures c b f.facts = _
    rw [combinedFailures_add (hb.failures c hc hbh) (hw.failures c hc hwh), providedRows_append]

/-- So does one after a rewrite that keeps the rows. -/
theorem Tells.rewritten (hb : Tells V rd before b) (hw : Tells V rd own f.facts)
    (hrows : SameRows own (before.filter fun x => x.path ∈ f.removed)) :
    Tells V rd (before.filter (fun x => x.path ∉ f.removed) ++ own)
      { b with files := (b.files.filter fun x => x.path ∉ f.removed) ++ f.facts.files } where
  stamps := by
    show (((b.files.filter fun x => x.path ∉ f.removed) ++ f.facts.files).map FileEntry.stamp).Perm _
    rw [List.map_append, List.map_append, stamps_filter, live_stamps_filter]
    exact (hb.stamps.filter _).append hw.stamps
  failures := by
    intro c' hc' hh
    show b.failures = _
    rw [hb.failures c' hc' hh, hrows.rewritten.provided c'.contract false]

/-- What is known after a write tells of the data after it, under the compilation it was combined for. -/
theorem tells_after (hR : Counts R V rd) (hc : V c) {sha256 : String → String} {p : Parsers} {known : Option Manifest}
    (hf : Wrote V rd before f live)
    (hsome : ∀ b, known = some b → Tells V rd before b) (hnone : known = none → f.written = .append → before = [])
    {writtenAt : Int} {snapshotId : Option Int}
    (h : afterWrite sha256 p c known f writtenAt snapshotId = .ok (some m)) :
    Tells V rd live m ∧ m.compilationHash = c.contract.compilationHash ∧ m.snapshotId = snapshotId ∧
      (f.written ≠ .rewrite → m.contract = f.facts.contract) := by
  unfold afterWrite at h
  dsimp only at h
  split at h
  · cases h
  next hwh =>
  have hwh : f.facts.compilationHash = c.contract.compilationHash := not_not.1 hwh
  cases hf with
  | append hw ht =>
    rw [hw] at h
    cases known with
    | none =>
      cases h
      have hnil : before = [] := hnone rfl hw
      subst hnil
      exact ⟨(ht.first writtenAt).settled sha256 c snapshotId, hwh, rfl, fun _ => rfl⟩
    | some b =>
      dsimp only at h
      split at h
      · cases h
      next hbh =>
      cases h
      have hbh : b.compilationHash = c.contract.compilationHash := not_not.1 hbh
      exact ⟨(Tells.appended hR (hsome b rfl) ht hc hbh hwh p writtenAt).settled sha256 c snapshotId, hwh,
        rfl, fun _ => rfl⟩
  | overwrite hw ht =>
    rw [hw] at h
    cases h
    exact ⟨(ht.first writtenAt).settled sha256 c snapshotId, hwh, rfl, fun _ => rfl⟩
  | rewrite hw ht hrows =>
    rw [hw] at h
    cases known with
    | none => cases h
    | some b =>
      dsimp only at h
      split at h
      · cases h
      next hbh =>
      have hbh : b.compilationHash = c.contract.compilationHash := not_not.1 hbh
      unfold Peql.rewritten at h
      dsimp only at h
      split at h
      · cases h
      split at h
      · cases h
      cases h
      exact ⟨(Tells.rewritten (hsome b rfl) ht hrows).settled sha256 c snapshotId, hbh, rfl, fun hn => absurd hw hn⟩

/-! ## Storage -/

theorem Storage.setDir_self (s : Storage) (l : Location) (d : Dir StoredFile) : (s.setDir l d).dirs l = d :=
  Function.update_self ..

theorem Storage.setDir_of_ne (s : Storage) {l l' : Location} (h : l' ≠ l) (d : Dir StoredFile) :
    (s.setDir l d).dirs l' = s.dirs l' := Function.update_of_ne h ..

theorem Storage.saveFacts_of_eq {s : Storage} {table : String} {t : IcebergTable} (h : s.tables table = some t)
    (snapshot : Int) (m : Manifest) : s.saveFacts table snapshot m = s.setTable table (t.saveFacts snapshot m) := by
  unfold Storage.saveFacts
  rw [h]

theorem Storage.setTable_self (s : Storage) (table : String) (t : IcebergTable) :
    (s.setTable table t).tables table = some t := Function.update_self ..

/-- Other tables stay. -/
theorem Storage.setTable_of_ne (s : Storage) {table table' : String} (h : table' ≠ table) (t : IcebergTable) :
    (s.setTable table t).tables table' = s.tables table' := Function.update_of_ne h ..

/-- The files at a snapshot are the snapshot's. -/
theorem TableMetadata.filesAt_some {t : TableMetadata} {id : Int} {sn : TableSnapshot}
    (h : t.snapshotById id = some sn) : t.filesAt (some id) = sn.files := by
  simp only [filesAt, h]

/-- Facts recorded for another snapshot, or in another file, are as they were. -/
theorem IcebergTable.facts_saveFacts (t : IcebergTable) (snapshot : Int) (m : Manifest) (snapshot' : Int)
    (file : String) :
    (t.saveFacts snapshot m).facts snapshot' file =
      if snapshot' = snapshot ∧ file = manifestFile m.contract then .facts m else t.facts snapshot' file := by
  unfold IcebergTable.saveFacts
  dsimp only
  by_cases hs : snapshot' = snapshot
  · subst hs
    rw [Function.update_self, Function.update_apply]
    simp only [true_and]
  · rw [Function.update_of_ne hs, if_neg fun h => hs h.1]

/-- Everything recorded tells of the data it is recorded for: a manifest of the files it is beside, facts of a snapshot
of the snapshot's files, and facts of a write of what the write did to the files of the snapshot before it. -/
structure Told (V : Compilation → Prop) (rd : Compilation → Reading) (s : Storage) : Prop where
  beside : ∀ l file m, (s.dirs l).manifests file = .facts m → Tells V rd (s.dirs l).files m
  facts : ∀ table t snapshot file m, s.tables table = some t → t.facts snapshot file = .facts m →
    ∃ sn, t.metadata.snapshotById snapshot = some sn ∧ m.snapshotId = some snapshot ∧ Tells V rd sn.files m
  writes : ∀ table t sn id file f, s.tables table = some t → sn ∈ t.metadata.snapshots → sn.writeId = some id →
    t.writeFacts id file = .facts f → Wrote V rd (t.metadata.filesAt sn.parent) f sn.files

/-- The data of two storages is the same: files, snapshots, and what writes left. -/
structure SameData (s s' : Storage) : Prop where
  dirs : ∀ l, (s'.dirs l).files = (s.dirs l).files
  metadata : ∀ table, (s'.tables table).map IcebergTable.metadata = (s.tables table).map IcebergTable.metadata
  writeFacts : ∀ table, (s'.tables table).map IcebergTable.writeFacts = (s.tables table).map IcebergTable.writeFacts

namespace SameData

variable {s s' s'' : Storage}

theorem refl (s : Storage) : SameData s s := ⟨fun _ => rfl, fun _ => rfl, fun _ => rfl⟩

theorem trans (h : SameData s s') (h' : SameData s' s'') : SameData s s'' :=
  ⟨fun l => (h'.dirs l).trans (h.dirs l), fun table => (h'.metadata table).trans (h.metadata table),
    fun table => (h'.writeFacts table).trans (h.writeFacts table)⟩

/-- Recording beside files leaves them. -/
theorem setDir {d : Dir StoredFile} {l : Location} (h : d.files = (s.dirs l).files) : SameData s (s.setDir l d) where
  dirs l' := by
    by_cases hl : l' = l
    · subst hl
      rw [Storage.setDir_self, h]
    · rw [Storage.setDir_of_ne _ hl]
  metadata _ := rfl
  writeFacts _ := rfl

/-- Saving facts leaves the data. -/
theorem saveFacts (s : Storage) (table : String) (snapshot : Int) (m : Manifest) :
    SameData s (s.saveFacts table snapshot m) where
  dirs l := by rw [Storage.saveFacts_dirs]
  metadata table' := by
    rw [Storage.saveFacts_tables]
    split
    · next heq =>
      subst heq
      cases s.tables table' <;> rfl
    · rfl
  writeFacts table' := by
    rw [Storage.saveFacts_tables]
    split
    · next heq =>
      subst heq
      cases s.tables table' <;> rfl
    · rfl

end SameData

/-- A manifest that tells of the files it is recorded beside. -/
theorem Told.save {s : Storage} (h : Told V rd s) {l : Location} {m : Manifest} (hm : Tells V rd (s.dirs l).files m) :
    Told V rd (s.setDir l ((s.dirs l).save m)) where
  beside l' file m' hm' := by
    by_cases hl : l' = l
    · subst hl
      rw [Storage.setDir_self] at hm' ⊢
      by_cases hfile : file = manifestFile m.contract
      · subst hfile
        have hself : Recorded.facts m = .facts m' := (Dir.recorded_save_self _ m).symm.trans hm'
        obtain rfl := Recorded.facts.inj hself
        exact hm
      · rw [Dir.manifests_save_of_ne _ _ hfile] at hm'
        exact h.beside _ _ _ hm'
    · rw [Storage.setDir_of_ne _ hl] at hm' ⊢
      exact h.beside _ _ _ hm'
  facts := h.facts
  writes := h.writes

/-- Facts that tell of the snapshot they are recorded for. -/
theorem Told.saveFacts {s : Storage} (h : Told V rd s) {table : String} {t : IcebergTable} {snapshot : Int}
    {sn : TableSnapshot} {m : Manifest} (ht : s.tables table = some t)
    (hsn : t.metadata.snapshotById snapshot = some sn) (hid : m.snapshotId = some snapshot)
    (hm : Tells V rd sn.files m) : Told V rd (s.saveFacts table snapshot m) where
  beside := by
    rw [Storage.saveFacts_dirs]
    exact h.beside
  facts table' t' snapshot' file m' ht' hm' := by
    rw [Storage.saveFacts_of_eq ht] at ht'
    by_cases htable : table' = table
    · subst htable
      rw [Storage.setTable_self] at ht'
      obtain rfl := Option.some.inj ht'
      rw [IcebergTable.facts_saveFacts] at hm'
      split at hm'
      · next heq =>
        obtain ⟨rfl, rfl⟩ := heq
        cases hm'
        exact ⟨sn, hsn, hid, hm⟩
      · exact h.facts _ t _ _ _ ht hm'
    · rw [Storage.setTable_of_ne _ htable] at ht'
      exact h.facts _ _ _ _ _ ht' hm'
  writes table' t' sn' id file f ht' hmem hid' hf := by
    rw [Storage.saveFacts_of_eq ht] at ht'
    by_cases htable : table' = table
    · subst htable
      rw [Storage.setTable_self] at ht'
      obtain rfl := Option.some.inj ht'
      exact h.writes _ t sn' id file f ht hmem hid' hf
    · rw [Storage.setTable_of_ne _ htable] at ht'
      exact h.writes _ _ _ _ _ _ ht' hmem hid' hf

end Peql
