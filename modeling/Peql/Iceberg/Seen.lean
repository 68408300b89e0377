import Peql.Engine.Write
import Peql.Iceberg.Carried

/-!
# A table as engines read it

An engine reads a snapshot as its data files, whatever manifests list them (`Metadata.seen`); where nothing is deleted,
those hold the rows of the table (`rows_seen`). A commit over a run of any writers of the table is then one a write of
an engine may make, and adds the snapshot the engine takes it to add (`commit_seen`): each kind of write lists other
manifests in its base, and the files of those are the ones the write keeps (`files_listed`).
-/

namespace Peql

/-- What engines find under the paths of a table, and the times of its snapshots. -/
structure Storing where
  file : TableFile → StoredFile
  time : Int → Option Int
  path : ∀ f, (file f).path = f.path
  rows : ∀ f, (file f).rows = f.rows

variable (S : Storing)

/-- The snapshot as its data files. -/
def Snapshot.seen (s : Snapshot) : TableSnapshot where
  id := s.id
  parent := s.parent
  time := S.time s.id
  writeId := s.summary.map Summary.writeId
  columns := s.schema.map ColumnDef.name
  files := (listedFiles s.manifests).map S.file

/-- The table as an engine loads it. -/
def Metadata.seen (md : Metadata) : TableMetadata where
  snapshots := md.snapshots.map (Snapshot.seen S)
  current := md.current
  columns := md.schema.map ColumnDef.name

section Seen

variable {S}

/-- A snapshot is found where the table has it. -/
theorem seen_snapshotById (md : Metadata) (id : Int) :
    (md.seen S).snapshotById id = (md.snapshotById id).map (Snapshot.seen S) := by
  unfold TableMetadata.snapshotById Metadata.snapshotById Metadata.seen
  rw [List.find?_map]
  rfl

/-- One more snapshot is one more seen. -/
theorem seen_push (md : Metadata) (s : Snapshot) : (md.push s).seen S = (md.seen S).push (s.seen S) := by
  simp [Metadata.seen, Metadata.push, TableMetadata.push, Snapshot.seen]

/-- The files of the current snapshot are those its manifests list. -/
theorem seen_filesAt (md : Metadata) :
    (md.seen S).filesAt md.current = (listedFiles md.currentManifests).map S.file := by
  unfold Metadata.currentManifests Metadata.currentSnapshot
  cases hc : md.current with
  | none => rfl
  | some id =>
    simp only [TableMetadata.filesAt, Option.bind_some, seen_snapshotById]
    cases hs : md.snapshotById id <;> rfl

theorem map_path_file (fs : List TableFile) :
    (fs.map S.file).map (fun f => f.path) = fs.map TableFile.path := by
  simp only [List.map_map]
  exact List.map_congr_left fun f _ => S.path f

/-- The rows stored are the files'. -/
theorem storedRows_file (fs : List TableFile) : storedRows (fs.map S.file) = fileRows fs := by
  simp only [storedRows, rowsOf, fileRows, List.map_map]
  exact congrArg _ (List.map_congr_left fun f _ => S.rows f)

end Seen

/-! ## Manifests without deletions -/

/-- No file deletes rows. -/
structure Undeleted (ms : List ManifestFile) : Prop where
  manifests : ∀ m ∈ ms, m.content = .data
  entries : ∀ m ∈ ms, ∀ e ∈ m.entries, e.content = .data

namespace Undeleted

/-- Manifests without deletions make a list without. -/
theorem append {a b : List ManifestFile} (ha : Undeleted a) (hb : Undeleted b) : Undeleted (a ++ b) where
  manifests m hm := (List.mem_append.1 hm).elim (ha.manifests m) (hb.manifests m)
  entries m hm := (List.mem_append.1 hm).elim (ha.entries m) (hb.entries m)

theorem sublist {a b : List ManifestFile} (hb : Undeleted b) (h : a.Sublist b) : Undeleted a :=
  ⟨fun m hm => hb.manifests m (h.subset hm), fun m hm => hb.entries m (h.subset hm)⟩

/-- An append's own manifest deletes nothing. -/
theorem added (path : String) (id : Int) (files : List TableFile) : Undeleted [addedManifest path id files] := by
  constructor
  · intro m hm
    rw [List.mem_singleton.1 hm]
    rfl
  · intro m hm e he
    rw [List.mem_singleton.1 hm] at he
    obtain ⟨f, _, rfl⟩ := List.mem_map.1 he
    rfl

end Undeleted

/-- A manifest of data files has its live files' rows. -/
theorem rows_of_data {m : ManifestFile} (h : ∀ e ∈ m.entries, e.content = .data) : fileRows m.liveFiles = m.rows := by
  have halive : (m.entries.filter fun e => e.alive ∧ e.content = .data) = m.entries.filter ManifestEntry.alive := by
    refine List.filter_congr fun e he => ?_
    simp [h e he]
  unfold ManifestFile.liveFiles liveEntries ManifestFile.rows fileRows
  rw [halive, List.map_map]
  rfl

/-- The files such a list holds alive hold its rows. -/
theorem listedRows_of_undeleted {ms : List ManifestFile} (h : Undeleted ms) :
    fileRows (listedFiles ms) = listedRows ms := by
  have hdata : (ms.filter fun m => m.content = .data) = ms :=
    List.filter_eq_self.2 fun m hm => decide_eq_true (h.manifests m hm)
  have hsum : ∀ l : List ManifestFile, (∀ m ∈ l, ∀ e ∈ m.entries, e.content = .data) →
      fileRows (l.flatMap ManifestFile.liveFiles) = (l.map ManifestFile.rows).sum := by
    intro l hl
    induction l with
    | nil => rfl
    | cons m l ih =>
      have hm := rows_of_data (hl m (by simp))
      have hrest := ih fun m' hm' => hl m' (List.mem_cons_of_mem _ hm')
      unfold fileRows at hm hrest ⊢
      rw [List.flatMap_cons, List.map_append, List.sum_append, hm, hrest, List.map_cons, List.sum_cons]
  unfold listedRows dataRows listedFiles
  rw [deletedRows_of_data h.manifests, tsub_zero, hdata]
  exact hsum ms h.entries

/-- Where nothing is deleted, an engine reads the rows of the table. -/
theorem rows_seen {md : Metadata} (h : Undeleted md.currentManifests) :
    storedRows ((md.seen S).filesAt md.current) = md.rows := by
  rw [seen_filesAt, storedRows_file, listedRows_of_undeleted h]
  rfl

/-! ## The files a base lists -/

/-- Files are listed manifest by manifest. -/
theorem listedFiles_append (a b : List ManifestFile) : listedFiles (a ++ b) = listedFiles a ++ listedFiles b := by
  simp [listedFiles]

theorem listedFiles_added (path : String) (id : Int) (files : List TableFile) :
    listedFiles [addedManifest path id files] = files := by
  rw [listedFiles, List.filter_cons_of_pos (by simp [addedManifest]), List.filter_nil, List.flatMap_singleton]
  exact addedManifest_live path id files

/-- A listed file is live in a data manifest. -/
theorem mem_listedFiles {ms : List ManifestFile} {f : TableFile} :
    f ∈ listedFiles ms ↔ ∃ m ∈ ms, m.content = .data ∧ f ∈ m.liveFiles := by
  simp [listedFiles, and_assoc]

/-- Leaving manifests out leaves out their files, where those files are in no other manifest. -/
theorem listedFiles_filter {ms : List ManifestFile} {q : ManifestFile → Bool} {removed : List String}
    (h : ∀ m ∈ ms, m.content = .data → ∀ f ∈ m.liveFiles, f.path ∈ removed ↔ q m = false) :
    listedFiles (ms.filter q) = (listedFiles ms).filter fun f => f.path ∉ removed := by
  induction ms with
  | nil => rfl
  | cons m ms ih =>
    have hrest := ih fun m' hm' => h m' (List.mem_cons_of_mem _ hm')
    have hone : listedFiles ([m].filter q) = (listedFiles [m]).filter fun f => f.path ∉ removed := by
      by_cases hm : m.content = .data
      · have hlive : listedFiles [m] = m.liveFiles := by simp [listedFiles, hm]
        have hpaths := h m (by simp) hm
        cases hq : q m with
        | true =>
          have hall : m.liveFiles.filter (fun f => f.path ∉ removed) = m.liveFiles := by
            refine List.filter_eq_self.2 fun f hf => ?_
            simp [hpaths f hf, hq]
          simp only [List.filter_cons, hq, List.filter_nil, if_true, hlive, hall]
        | false =>
          have hnone : m.liveFiles.filter (fun f => f.path ∉ removed) = [] := by
            refine List.filter_eq_nil_iff.2 fun f hf => ?_
            simp [hpaths f hf, hq]
          simp only [List.filter_cons, hq, List.filter_nil, hlive, hnone]
          rfl
      · have hnil : ∀ l : List ManifestFile, l.Sublist [m] → listedFiles l = [] := by
          intro l hl
          refine List.eq_nil_iff_forall_not_mem.2 fun f hf => ?_
          obtain ⟨m', hm', hdata, _⟩ := mem_listedFiles.1 hf
          exact hm (List.mem_singleton.1 (hl.subset hm') ▸ hdata)
        rw [hnil _ List.filter_sublist, hnil _ (.refl _), List.filter_nil]
    rw [← List.singleton_append, List.filter_append, listedFiles_append, listedFiles_append, List.filter_append,
      hone, hrest]

/-- No path is the path of files of two manifests. -/
theorem manifest_of_path {ms : List ManifestFile} (honce : ((listedFiles ms).map TableFile.path).Nodup)
    {m m' : ManifestFile} (hm : m ∈ ms) (hm' : m' ∈ ms) (hdata : m.content = .data) (hdata' : m'.content = .data)
    {f f' : TableFile} (hf : f ∈ m.liveFiles) (hf' : f' ∈ m'.liveFiles) (hpath : f.path = f'.path) : m = m' := by
  rw [listedFiles, List.map_flatMap, List.nodup_flatMap] at honce
  by_contra hne
  have hsymm : Std.Symm (Function.onFun List.Disjoint fun m : ManifestFile => m.liveFiles.map TableFile.path) :=
    ⟨fun _ _ hdisjoint => hdisjoint.symm⟩
  have hdisjoint := honce.2.forall (List.mem_filter.2 ⟨hm, decide_eq_true hdata⟩)
    (List.mem_filter.2 ⟨hm', decide_eq_true hdata'⟩) hne
  exact hdisjoint (List.mem_map_of_mem hf) (hpath ▸ List.mem_map_of_mem hf')

/-! ## Writes -/

/-- The write as the engine that began it holds it: its files, and those it replaces. -/
structure Begun.Is (b : Begun) (w : IcebergWrite) (table : Metadata) : Prop where
  written : b.written = w.kind.written
  id : b.iceberg.map IcebergBegun.id = some w.id
  base : b.iceberg.bind IcebergBegun.base = w.base
  files : b.files = w.files.map S.file
  removed : ∀ s ∈ table.snapshots, w.kind = .rewrite s.id →
    b.removed = (listedFiles s.manifests).map TableFile.path

namespace Begun.Is

variable {S}
variable {b : Begun} {w : IcebergWrite} {table copy base : Metadata}

/-- What a rewrite leaves of the table it commits over: the files of no manifest of its snapshot. -/
theorem rewrite_files (hb : b.Is S w table) (hwf : WellFormed table)
    (honce : ((listedFiles table.currentManifests).map TableFile.path).Nodup) {s : Snapshot} (hs : s ∈ table.snapshots)
    (hk : w.kind = .rewrite s.id)
    (hlisted : ∀ p ∈ s.manifests.map ManifestFile.path, p ∈ table.currentManifests.map ManifestFile.path) :
    (∀ m ∈ s.manifests, m ∈ table.currentManifests) ∧
      listedFiles (table.currentManifests.filter fun m => m.path ∉ s.manifests.map ManifestFile.path) =
        (listedFiles table.currentManifests).filter fun f => f.path ∉ b.removed := by
  -- A manifest listed under the path of one is that one.
  have hsame : ∀ m ∈ s.manifests, ∀ m' ∈ table.currentManifests, m.path = m'.path → m = m' := by
    intro m hm m' hm' hpath
    obtain ⟨t, ht, hmt⟩ := hwf.mem_current hm'
    exact hwf.immutable s hs t ht m hm m' hmt hpath
  have hstill : ∀ m ∈ s.manifests, m ∈ table.currentManifests := by
    intro m hm
    obtain ⟨m', hm', hpath⟩ := List.mem_map.1 (hlisted m.path (List.mem_map_of_mem hm))
    exact hsame m hm m' hm' hpath.symm ▸ hm'
  refine ⟨hstill, listedFiles_filter ?_⟩
  intro m hm hdata f hf
  rw [hb.removed s hs hk, decide_eq_false_iff_not, not_not]
  constructor
  · intro hremoved
    obtain ⟨g, hg, hpath⟩ := List.mem_map.1 hremoved
    obtain ⟨m', hm', hdata', hlive⟩ := mem_listedFiles.1 hg
    rw [manifest_of_path honce hm (hstill m' hm') hdata hdata' hf hlive hpath.symm]
    exact List.mem_map_of_mem hm'
  · intro hpath
    obtain ⟨m', hm', hpath⟩ := List.mem_map.1 hpath
    obtain rfl := hsame m' hm' m hm hpath
    exact List.mem_map_of_mem (mem_listedFiles.2 ⟨m', hm', hdata, hf⟩)

/-- A base made of the table lists the files the write keeps, and is made only of a table the write may commit over. -/
theorem files_listed (hb : b.Is S w table) (hwf : WellFormed table)
    (honce : ((listedFiles table.currentManifests).map TableFile.path).Nodup) (hp : Produces w table base) :
    b.CommitsOver (table.seen S) ∧
      (listedFiles base.currentManifests ++ w.files).map S.file =
        b.filesOver ((table.seen S).filesAt table.current) := by
  have hlists := hp.lists
  unfold IcebergWrite.Lists at hlists
  unfold Begun.CommitsOver Begun.filesOver
  rw [hb.written, seen_filesAt, hb.files, List.map_append]
  cases hk : w.kind with
  | append =>
    rw [hk] at hlists
    rw [hlists]
    exact ⟨trivial, rfl⟩
  | overwrite =>
    rw [hk] at hlists
    rw [hlists]
    exact ⟨(hp.current.symm.trans (hp.overwrites hk)).trans hb.base.symm, rfl⟩
  | rewrite of =>
    rw [hk] at hlists
    obtain ⟨s, hs, rfl, hlisted, hbase⟩ := hlists
    obtain ⟨hstill, hfiles⟩ := hb.rewrite_files hwf honce hs hk hlisted
    constructor
    · show ∀ p ∈ b.removed, p ∈ (TableMetadata.filesAt (table.seen S) table.current).map fun f => f.path
      rw [seen_filesAt, map_path_file, hb.removed s hs hk]
      intro p hpath
      obtain ⟨f, hf, rfl⟩ := List.mem_map.1 hpath
      obtain ⟨m, hm, hlive⟩ := mem_listedFiles.1 hf
      exact List.mem_map_of_mem (mem_listedFiles.2 ⟨m, hstill m hm, hlive⟩)
    · show _ = ((listedFiles table.currentManifests).map S.file).filter (fun f => f.path ∉ b.removed) ++ _
      rw [hbase, hfiles, List.filter_map]
      refine congrArg (· ++ _) (congrArg (List.map S.file) (List.filter_congr fun f _ => ?_))
      simp only [Function.comp_apply, S.path]

end Begun.Is

/-- A base made of an old copy is made of the table, while the table is at the copy's snapshot. -/
theorem Produces.of_held {w : IcebergWrite} {copy base table : Metadata} (hp : Produces w copy base)
    (hheld : Held copy table) (hc : copy.current = table.current) : Produces w table base where
  current := hp.current.trans hc
  overwrites := hp.overwrites
  kept := hheld.currentManifests_eq hc ▸ hp.kept
  lists := by
    have hlists := hp.lists
    unfold IcebergWrite.Lists at hlists ⊢
    rwa [hheld.currentManifests_eq hc, hheld.same hc] at hlists
  deletes := hp.deletes
  rows := by rw [hp.rows, hheld.rows_eq hc]

/-- **A commit is as the engine takes it to be**: over any run of writers of a table, a commit the catalog takes goes
through over files the write may commit over, under an id of its own; the snapshot it adds has the files the write
leaves, and the columns of the schema it was made under; and where nothing is deleted the rows an engine reads are then
those the write leaves. -/
theorem commit_seen {start s : World} {as : List Action} (h : Starts start) (hrun : Runs.Run Step start as s) {n : Nat}
    {w : IcebergWrite} {base table : Metadata} {r : Option Rewritten} {id : Int} {path : String}
    (holds : s.writers n = some ⟨w, .producing base r⟩) (freshId : ∀ t ∈ s.table.snapshots, t.id ≠ id)
    (freshPath : ∀ t ∈ s.table.snapshots, ∀ m ∈ t.manifests, m.path ≠ path)
    (taken : updateTable s.table base (fastAppend base id path w.files w.summary) = some table) {b : Begun}
    (hb : b.Is S w s.table) (honce : ((listedFiles s.table.currentManifests).map TableFile.path).Nodup) :
    b.CommitsOver (s.table.seen S) ∧ (s.table.seen S).snapshotById id = none ∧
      table.seen S = (s.table.seen S).push
        { b.snapshotOver (s.table.seen S) id (S.time id) with columns := base.schema.map ColumnDef.name } ∧
      (Undeleted s.table.currentManifests →
        storedRows ((table.seen S).filesAt table.current) =
          w.effect (storedRows ((s.table.seen S).filesAt s.table.current))) := by
  have hinv : Inv start.table s := hrun.inv (fun _ _ _ hi hs => hi.step hs) h.inv
  obtain ⟨⟨copy, hheld, hp⟩, _⟩ := hinv.ready n w _ holds
  obtain ⟨hcur, rfl, hwf, hrows⟩ := commit_effect hinv.wellFormed hheld hp freshId freshPath taken
  have hp := hp.of_held hheld (hp.current.symm.trans hcur)
  obtain ⟨hcommits, hfiles⟩ := hb.files_listed hinv.wellFormed honce hp
  refine ⟨hcommits, ?_, ?_, ?_⟩
  · rw [seen_snapshotById, Option.map_eq_none_iff]
    exact List.find?_eq_none.2 fun t ht => by simpa using freshId t ht
  · have hsnapshot : (fastAppend base id path w.files w.summary).seen S =
        { b.snapshotOver (s.table.seen S) id (S.time id) with columns := base.schema.map ColumnDef.name } := by
      unfold Begun.snapshotOver Snapshot.seen fastAppend
      simp only [listedFiles_append, listedFiles_added, hfiles, hb.id, hcur]
      rfl
    rw [seen_push, hsnapshot]
  · intro hnone
    have hcurrent : (s.table.push (fastAppend base id path w.files w.summary)).currentManifests =
        base.currentManifests ++ [addedManifest path id w.files] :=
      Metadata.currentManifests_of_mem hwf (by simp [Metadata.push_snapshots]) (Metadata.push_current _ _)
    have hundeleted : Undeleted (base.currentManifests ++ [addedManifest path id w.files]) :=
      (hnone.sublist hp.kept).append (.added path id w.files)
    rw [rows_seen S (hcurrent ▸ hundeleted), rows_seen S hnone, hrows]

/-! ## A rewrite, and a file appended meanwhile -/

/-- Each file as it is, with nothing counted of its columns. -/
def storesRows : Storing where
  file f :=
    { entry := ⟨f.path, f.rows.card, f.bytes, "c0", .empty, .empty, ""⟩
      rows := f.rows
      typed := fun _ _ => trivial
      entry_rows := rfl
      entry_nulls := nofun
      under := none }
  time _ := none
  path _ := rfl
  rows _ := rfl

/-- A file of one row. -/
def oneRow (name : String) (value : Int) : TableFile := ⟨"data/" ++ name, 1, 100, {[("n", .int value)]}⟩

/-- A table of two such files. -/
def twoRowTable : Metadata :=
  newTable.table.push (fastAppend newTable.table 1 "m1" [oneRow "a" 1, oneRow "b" 2] (appendOne "w" 1).summary)

/-- The rows of both in one file. -/
def rewriteTwo : IcebergWrite :=
  ⟨"r", .rewrite 1, some 1, "readings", "c0", "k0",
    [⟨"data/c", 2, 150, fileRows [oneRow "a" 1, oneRow "b" 2]⟩]⟩

def appendThird : IcebergWrite := ⟨"d", .append, some 1, "readings", "c0", "k0", [oneRow "d" 3]⟩

/-- The table after the third file. -/
def threeRowTable : Metadata :=
  twoRowTable.push (fastAppend twoRowTable 2 "m2" appendThird.files appendThird.summary)

/-- What the rewrite appends over then. -/
def appendedOnly : Metadata :=
  { threeRowTable with
    snapshots := relist 2 [addedManifest "m2" 2 appendThird.files] ⟨1, 1, 100⟩ threeRowTable.snapshots }

theorem carries_third : load rewriteTwo threeRowTable (.attempt ⟨1, ["m1"], Lookup.empty⟩) =
    some (.forged appendedOnly (some ⟨1, ["m1"], Lookup.empty⟩)) := rfl

def rewriteTwoBegun : Begun :=
  { reg := ⟨amountContract⟩, location := .iceberg "readings", written := .rewrite, onViolation := .warn, rows := 2,
    rowsExcluded := 0, excluded := [], files := rewriteTwo.files.map storesRows.file, removed := ["data/a", "data/b"],
    iceberg := some ⟨"r", some 1, some 1⟩ }

theorem twoRowTable_wellFormed : WellFormed twoRowTable :=
  newTable_starts.wellFormed.fastAppend (.refl _) (Multiset.zero_le _) nofun nofun _ _

/-- The file is appended after the rewrite has begun: the rewrite commits over it, replaces the two and changes no
rows. -/
theorem rewriteTwo_seen : ∃ (s : World) (table : Metadata),
    Runs.Run Step ⟨twoRowTable, Lookup.empty, []⟩
      [.begins 0, .begins 1, .loads 0, .loads 1, .commits 1, .loads 0, .loads 0, .loads 0] s ∧
    rewriteTwoBegun.CommitsOver (s.table.seen storesRows) ∧
    (table.seen storesRows).filesAt table.current =
      [storesRows.file (oneRow "d" 3), storesRows.file ⟨"data/c", 2, 150, fileRows [oneRow "a" 1, oneRow "b" 2]⟩] ∧
    storedRows ((table.seen storesRows).filesAt table.current) =
      storedRows ((s.table.seen storesRows).filesAt s.table.current) := by
  let start : World := ⟨twoRowTable, Lookup.empty, []⟩
  let r : Rewritten := ⟨1, ["m1"], Lookup.empty⟩
  let table := threeRowTable.push (fastAppend appendedOnly 3 "m3" rewriteTwo.files rewriteTwo.summary)
  let s₁ := ((start.put 0 rewriteTwo .written).put 1 appendThird .written).put 0 rewriteTwo (.opened r)
  let s₂ := (s₁.put 1 appendThird (.producing twoRowTable none)).commit 1 appendThird 2 threeRowTable
  let s₃ := ((s₂.put 0 rewriteTwo (.attempt r)).put 0 rewriteTwo (.forged appendedOnly (some r))).put 0 rewriteTwo
    (.producing appendedOnly (some r))
  have hcopies : rewriteTwo.Begins twoRowTable := by
    refine ⟨rfl, fun of hof => ⟨_, List.mem_singleton_self _, WriteKind.rewrite.inj hof, ?_⟩⟩
    have hrows := listedRows_of_undeleted (.added "m1" 1 [oneRow "a" 1, oneRow "b" 2])
    rw [listedFiles_added] at hrows
    exact (add_zero _).trans hrows
  have hrun : Runs.Run Step start
      [.begins 0, .begins 1, .loads 0, .loads 1, .commits 1, .loads 0, .loads 0, .loads 0] s₃ := by
    refine .cons (@Step.begins _ 0 rewriteTwo rfl hcopies) ?_
    refine .cons (@Step.begins _ 1 appendThird rfl ⟨rfl, nofun⟩) ?_
    refine .cons (@Step.loads _ 0 rewriteTwo .written (.opened r) rfl rfl) ?_
    refine .cons (@Step.loads _ 1 appendThird .written (.producing twoRowTable none) rfl rfl) ?_
    refine .cons (@Step.commits _ 1 appendThird twoRowTable threeRowTable none 2 "m2" rfl ?_ ?_ rfl) ?_
    · intro t ht
      rw [List.mem_singleton.1 ht]
      decide
    · intro t ht m hm
      rw [List.mem_singleton.1 ht] at hm
      rw [List.mem_singleton.1 hm]
      decide
    refine .cons (@Step.loads _ 0 rewriteTwo (.opened r) (.attempt r) rfl rfl) ?_
    refine .cons (@Step.loads _ 0 rewriteTwo (.attempt r) (.forged appendedOnly (some r)) rfl carries_third) ?_
    refine .cons (@Step.loads _ 0 rewriteTwo (.forged appendedOnly (some r)) (.producing appendedOnly (some r)) rfl ?_)
      (.nil _)
    rfl
  have hstarts : Starts start := ⟨twoRowTable_wellFormed, fun _ => rfl, rfl⟩
  have hb : rewriteTwoBegun.Is storesRows rewriteTwo threeRowTable := by
    refine ⟨rfl, rfl, rfl, rfl, fun u hu hk => ?_⟩
    rcases List.mem_cons.1 hu with rfl | hu
    · rfl
    · rw [List.mem_singleton.1 hu] at hk
      exact absurd (WriteKind.rewrite.inj hk) (by decide)
  have hids : ∀ u ∈ threeRowTable.snapshots, u.id ≠ 3 := by
    intro u hu
    rcases List.mem_cons.1 hu with rfl | hu
    · decide
    · rw [List.mem_singleton.1 hu]
      decide
  have hpaths : ∀ u ∈ threeRowTable.snapshots, ∀ m ∈ u.manifests, m.path ≠ "m3" := by
    have hall : ∀ m ∈ threeRowTable.currentManifests, m.path ≠ "m3" := by
      intro m hm
      have hlisted : m.path ∈ ["m1", "m2"] := List.mem_map_of_mem hm
      exact fun heq => absurd (heq ▸ hlisted) (by decide)
    intro u hu m hm
    rcases List.mem_cons.1 hu with rfl | hu
    · exact hall m (List.mem_append_left _ hm)
    · rw [List.mem_singleton.1 hu] at hm
      exact hall m hm
  have hnone : Undeleted threeRowTable.currentManifests := (Undeleted.added "m1" 1 _).append (.added "m2" 2 _)
  have honce : ((listedFiles threeRowTable.currentManifests).map TableFile.path).Nodup := by
    have hpaths : (listedFiles threeRowTable.currentManifests).map TableFile.path =
        ["data/a", "data/b", "data/d"] := rfl
    rw [hpaths]
    decide
  obtain ⟨hover, -, -, hrows⟩ := @commit_seen storesRows start s₃ _ hstarts hrun 0 rewriteTwo appendedOnly table
    (some r) 3 "m3" rfl hids hpaths rfl rewriteTwoBegun hb honce
  exact ⟨s₃, table, hrun, hover, rfl, hrows hnone⟩

end Peql
