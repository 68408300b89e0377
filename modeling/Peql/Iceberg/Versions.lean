import Peql.Iceberg.Evolve
import Peql.Iceberg.Required
import Peql.Iceberg.Rows

/-!
# Versions of a contract over one table

Writes under any number of contracts to one table, each with its schema change first and then its commit, in any order
of their calls of the catalog. Schema changes move the schema and not the snapshot; an overwrite and a rewrite commit
over copies taken earlier, and a snapshot has the schema of the copy it was produced over. The table's schema keeps
every column all the same, and every snapshot that is current after a write has committed has the columns that write
wrote (`versions_keep_columns`): a copy at the table's snapshot was taken after the last commit, and so after the
change of schema that preceded it.
-/

namespace Peql

open Runs

/-! ## A read of a snapshot -/

/-- What `provider` selects of a snapshot's columns: each the contract reads, cast where its type is another. -/
def providerSelect (table contract : String) (snapshot : Int) (have_ : List ColumnDef) :
    List ColumnDef → Except PeqlError (List Expr)
  | [] => .ok []
  | f :: want =>
    match fieldNamed have_ f.name with
    | none =>
      .error (.invalid s!"`{contract}` reads column `{f.name}`, which snapshot {snapshot} of {table} does not have")
    | some found => do
      let rest ← providerSelect table contract snapshot have_ want
      .ok (.op (.alias f.name)
        [if found.ty = f.ty then .column f.name else .cast f.ty (.column f.name)] :: rest)

/-- `IcebergLocation::provider`, of a contract's columns, stored or raw. -/
def Metadata.provider (scanSchema : CompiledContract → List ColumnDef) (table : String) (md : Metadata)
    (cc : CompiledContract) (stored : Bool) (snapshot : Int) : Except PeqlError (List Expr) :=
  match md.snapshotById snapshot with
  | none => .error (.iceberg s!"snapshot {snapshot} not found")
  | some s =>
    providerSelect table cc.name snapshot s.schema (if stored then tableSchema scanSchema cc else cc.rowSchema)

/-- Nothing is refused where every column is there. -/
theorem providerSelect_ok {table contract : String} {snapshot : Int} {have_ want : List ColumnDef}
    (h : ∀ f ∈ want, ∃ g, fieldNamed have_ f.name = some g) :
    ∃ select, providerSelect table contract snapshot have_ want = .ok select := by
  induction want with
  | nil => exact ⟨[], rfl⟩
  | cons f want ih =>
    obtain ⟨g, hg⟩ := h f List.mem_cons_self
    obtain ⟨rest, hrest⟩ := ih fun f' hf' => h f' (List.mem_cons_of_mem _ hf')
    exact ⟨_, by rw [providerSelect, hg]; simp only [hrest]; rfl⟩

/-! ## Writers -/

/-- Where a write is: its schema change, its commit with the schema its files have, or refused before it wrote. -/
inductive VersionPhase
  | evolving (e : Evolving) (commits : Nat)
  | writing (schema : List ColumnDef) (w : IcebergWrite) (p : Phase)
  | refused (e : PeqlError)

/-- A write under a contract, on a table that allows so many retries. -/
structure VersionWriter where
  contract : CompiledContract
  retries : Except PeqlError Nat
  phase : VersionPhase

/-- A table, the id of its current schema, the writes begun on it, and those committed: each by its contract, and the
schema of the files it wrote. -/
structure Versions where
  table : Metadata
  schemaId : Nat
  writers : Lookup Nat VersionWriter
  committed : List (CompiledContract × List ColumnDef)

namespace Versions

/-- The table as a schema change loads it. -/
def loaded (s : Versions) : Loaded := ⟨s.table.uuid, s.schemaId, s.table.schema⟩

def put (s : Versions) (n : Nat) (v : VersionWriter) : Versions := { s with writers := s.writers.insert n v }

/-- The table's schema is moved. -/
def evolve (s : Versions) (t : Loaded) : Versions :=
  { s with table := { s.table with schema := t.schema }, schemaId := t.schemaId }

/-- The table is at `table` by a write's commit. -/
def commit (s : Versions) (table : Metadata) (cc : CompiledContract) (schema : List ColumnDef) : Versions :=
  { s with table := table, committed := s.committed ++ [(cc, schema)] }

/-- A table no write has begun on. -/
def start (table : Metadata) (schemaId : Nat) : Versions := ⟨table, schemaId, Lookup.empty, []⟩

end Versions

inductive VersionAction
  | begins (n : Nat) | evolves (n : Nat) | writes (n : Nat) | refuses (n : Nat) | loads (n : Nat) | commits (n : Nat)
  | conflicts (n : Nat) | fails (n : Nat)

section System

variable (S : Schemas) (scanSchema : CompiledContract → List ColumnDef) (name : String)

/-- One call of the catalog by one of the writes. -/
inductive VersionStep : Versions → VersionAction → Versions → Prop
  | begins {s : Versions} {n : Nat} (cc : CompiledContract) (retries : Except PeqlError Nat)
      (fresh : s.writers n = none) :
      VersionStep s (.begins n) (s.put n ⟨cc, retries,
        .evolving (evolveStart S name (tableSchema scanSchema cc) retries s.loaded) 0⟩)
  | evolves {s : Versions} {n : Nat} {v : VersionWriter} {e e' : Evolving} {k k' : Nat} {l l' : Option Loaded}
      {t : Loaded} {a : EvolveAction} (holds : s.writers n = some v) (hp : v.phase = .evolving e k) (own : a.own = true)
      (step : EvolveStep S name (tableSchema scanSchema v.contract) v.retries ⟨some s.loaded, l, e, k⟩ a
        ⟨some t, l', e', k'⟩) :
      VersionStep s (.evolves n) ((s.evolve t).put n { v with phase := .evolving e' k' })
  | writes {s : Versions} {n : Nat} {v : VersionWriter} {t : Loaded} {k : Nat} {schema : List ColumnDef}
      (w : IcebergWrite) (holds : s.writers n = some v) (hp : v.phase = .evolving (.evolved t) k)
      (checked : checkRequired name v.contract.name w.kind (tableSchema scanSchema v.contract) t.schema = .ok schema) :
      VersionStep s (.writes n) (s.put n { v with phase := .writing schema w .written })
  | refuses {s : Versions} {n : Nat} {v : VersionWriter} {t : Loaded} {k : Nat} {kind : WriteKind} {e : PeqlError}
      (holds : s.writers n = some v) (hp : v.phase = .evolving (.evolved t) k)
      (checked : checkRequired name v.contract.name kind (tableSchema scanSchema v.contract) t.schema = .error e) :
      VersionStep s (.refuses n) (s.put n { v with phase := .refused e })
  | loads {s : Versions} {n : Nat} {v : VersionWriter} {schema : List ColumnDef} {w : IcebergWrite} {p p' : Phase}
      (holds : s.writers n = some v) (hp : v.phase = .writing schema w p) (hload : load w s.table p = some p') :
      VersionStep s (.loads n) (s.put n { v with phase := .writing schema w p' })
  | commits {s : Versions} {n : Nat} {v : VersionWriter} {schema : List ColumnDef} {w : IcebergWrite}
      {base table : Metadata} {r : Option Rewritten} {id : Int} {path : String} (holds : s.writers n = some v)
      (hp : v.phase = .writing schema w (.producing base r)) (freshId : ∀ t ∈ s.table.snapshots, t.id ≠ id)
      (taken : updateTable s.table base (fastAppend base id path w.files w.summary) = some table) :
      VersionStep s (.commits n)
        ((s.commit table v.contract schema).put n { v with phase := .writing schema w (.committed id) })
  | conflicts {s : Versions} {n : Nat} {v : VersionWriter} {schema : List ColumnDef} {w : IcebergWrite}
      {base : Metadata} {r : Option Rewritten} {id : Int} {path : String} (why : String)
      (holds : s.writers n = some v) (hp : v.phase = .writing schema w (.producing base r))
      (refused : updateTable s.table base (fastAppend base id path w.files w.summary) = none) :
      VersionStep s (.conflicts n) (s.put n { v with phase := .writing schema w (afterConflict w base r why) })
  | fails {s : Versions} {n : Nat} {v : VersionWriter} {schema : List ColumnDef} {w : IcebergWrite} {p : Phase}
      (e : PeqlError) (holds : s.writers n = some v) (hp : v.phase = .writing schema w p) (going : p.done = false) :
      VersionStep s (.fails n) (s.put n { v with phase := .writing schema w (.failed e) })

end System

/-! ## The bases of commits -/

/-- The table a write is to commit over, or commits over. -/
def Phase.base : Phase → Option Metadata
  | .forged b _ | .producing b _ => some b
  | _ => none

/-- A copy of a table with other snapshots, at the same one. -/
structure CopyOf (b table : Metadata) : Prop where
  schema : b.schema = table.schema
  current : b.current = table.current

theorem CopyOf.refl (table : Metadata) : CopyOf table table := ⟨rfl, rfl⟩

theorem listing_copy {table b : Metadata} {base : Int} {ms : List ManifestFile} {totals : Totals}
    (h : listing table base ms totals = .ok b) : CopyOf b table := by
  unfold listing at h
  split at h
  · obtain rfl := Except.ok.inj h
    exact ⟨rfl, rfl⟩
  · cases h

theorem overwriteBase_copy {base : Option Int} {table b : Metadata} (h : overwriteBase base table = .ok b) :
    CopyOf b table := by
  unfold overwriteBase at h
  split at h
  · cases h
  · split at h
    · obtain rfl := Except.ok.inj h
      exact CopyOf.refl _
    · split at h
      · cases h
      · exact listing_copy h

theorem rewriteBase_copy {r r' : Rewritten} {table b : Metadata} (h : rewriteBase r table = .ok (r', b)) :
    CopyOf b table := by
  unfold rewriteBase at h
  obtain ⟨now, _, h⟩ := bind_eq_ok.1 h
  obtain ⟨⟨r'', kept, totals⟩, _, h⟩ := bind_eq_ok.1 h
  obtain ⟨asBase, hlist, h⟩ := bind_eq_ok.1 h
  obtain ⟨_, rfl⟩ := Prod.mk.inj (Except.ok.inj h)
  exact listing_copy hlist

/-- A base is a copy of the table as it is loaded, or was the base already. -/
theorem load_base {w : IcebergWrite} {table b : Metadata} {p p' : Phase} (h : load w table p = some p')
    (hb : p'.base = some b) : CopyOf b table ∨ p.base = some b := by
  unfold load at h
  split at h
  · split at h
    · obtain rfl := Option.some.inj h
      obtain rfl := Option.some.inj hb
      exact .inl (CopyOf.refl _)
    · obtain rfl := Option.some.inj h
      cases ho : overwriteBase w.base table with
      | error e =>
        rw [ho] at hb
        cases hb
      | ok base =>
        rw [ho] at hb
        obtain rfl := Option.some.inj hb
        exact .inl (overwriteBase_copy ho)
    · obtain rfl := Option.some.inj h
      next of _ => cases hr : rewriteBegin table of <;> rw [hr] at hb <;> cases hb
  · obtain rfl := Option.some.inj h
    next r => cases hr : rewriteRead r table <;> rw [hr] at hb <;> cases hb
  · obtain rfl := Option.some.inj h
    next r =>
    cases hr : rewriteBase r table with
    | error e =>
      rw [hr] at hb
      cases hb
    | ok made =>
      obtain ⟨r', base⟩ := made
      rw [hr] at hb
      obtain rfl := Option.some.inj hb
      exact .inl (rewriteBase_copy hr)
  · next base =>
    split at h
    · next hpin =>
      obtain rfl := Option.some.inj h
      obtain rfl := Option.some.inj hb
      rw [pinned_ok hpin]
      exact .inr rfl
    · obtain rfl := Option.some.inj h
      cases hb
  · next base r =>
    split at h
    · next hpin =>
      obtain rfl := Option.some.inj h
      obtain rfl := Option.some.inj hb
      rw [pinned_ok hpin]
      exact .inr rfl
    · obtain rfl := Option.some.inj h
      cases hb
  · cases h
  · cases h
  · cases h

theorem afterConflict_base (w : IcebergWrite) (base : Metadata) (r : Option Rewritten) (why : String) :
    (afterConflict w base r why).base = none := by
  unfold afterConflict
  split <;> rfl

/-! ## The invariant -/

section Invariant

variable {S : Schemas} {scanSchema : CompiledContract → List ColumnDef} {name : String}

/-- A snapshot's id is one of the table's. -/
def Metadata.HasId (md : Metadata) (i : Int) : Prop := ∃ t ∈ md.snapshots, t.id = i

/-- A base of a write whose files have these columns: it has them, and where the table is still at its snapshot those
of every write committed. -/
structure BaseRight (s : Versions) (schema : List ColumnDef) (b : Metadata) : Prop where
  own : KeptIn schema b.schema
  known : ∀ i, b.current = some i → s.table.HasId i
  others : b.current = s.table.current → ∀ c ∈ s.committed, KeptIn c.2 b.schema

/-- The columns a write has seen are in the table. -/
def VersionWriter.Right (S : Schemas) (scanSchema : CompiledContract → List ColumnDef) (s : Versions)
    (v : VersionWriter) : Prop :=
  match v.phase with
  | .evolving e _ =>
    e.Returns S (tableSchema scanSchema v.contract) ∧ ∀ t, e.held = some t → KeptIn t.schema s.table.schema
  | .writing schema _ p =>
    S.Covers schema (tableSchema scanSchema v.contract) ∧ KeptIn schema s.table.schema ∧
      ∀ b, p.base = some b → BaseRight s schema b
  | .refused _ => True

/-- What every reachable state is. -/
structure Versions.Inv (S : Schemas) (scanSchema : CompiledContract → List ColumnDef) (s : Versions) : Prop where
  current : ∀ i, s.table.current = some i → s.table.HasId i
  writers : ∀ n v, s.writers n = some v → v.Right S scanSchema s
  covers : ∀ c ∈ s.committed, S.Covers c.2 (tableSchema scanSchema c.1)
  kept : ∀ c ∈ s.committed, KeptIn c.2 s.table.schema
  read : ∀ c ∈ s.committed, ∃ snap, s.table.currentSnapshot = some snap ∧ KeptIn c.2 snap.schema

/-- How a step changes what all writes share: the schema keeps its columns, and the snapshot stays or is new. -/
structure Versions.Grows (s t : Versions) : Prop where
  schema : KeptIn s.table.schema t.table.schema
  snapshots : ∀ i, s.table.HasId i → t.table.HasId i
  current : (t.table.current = s.table.current ∧ t.committed = s.committed) ∨
    ∃ i, t.table.current = some i ∧ ¬ s.table.HasId i

theorem Versions.Grows.of_table {s t : Versions} (htable : t.table = s.table) (hc : t.committed = s.committed) :
    s.Grows t := by
  refine ⟨?_, ?_, .inl ⟨by rw [htable], hc⟩⟩ <;> rw [htable]
  · exact KeptIn.refl _
  · exact fun _ h => h

theorem BaseRight.grows {s t : Versions} (h : s.Grows t) {schema : List ColumnDef} {b : Metadata}
    (hb : BaseRight s schema b) : BaseRight t schema b := by
  refine ⟨hb.own, fun i hi => h.snapshots i (hb.known i hi), fun hcur => ?_⟩
  rcases h.current with ⟨hc, hcommitted⟩ | ⟨i, hi, hnew⟩
  · rw [hcommitted]
    exact hb.others (hcur.trans hc)
  · -- The table is at a snapshot that was none of its own when the base was taken.
    exact absurd (hb.known i (hcur.trans hi)) hnew

theorem VersionWriter.Right.grows {s t : Versions} (h : s.Grows t) {v : VersionWriter} (hv : v.Right S scanSchema s) :
    v.Right S scanSchema t := by
  unfold VersionWriter.Right at hv ⊢
  split at hv
  · exact ⟨hv.1, fun l hl => (hv.2 l hl).trans h.schema⟩
  · exact ⟨hv.1, hv.2.1.trans h.schema, fun b hb => (hv.2.2 b hb).grows h⟩
  · trivial

/-- A step of one writer that leaves the table where it is, but for columns it may add. -/
theorem Versions.Inv.put {s t : Versions} (hs : s.Inv S scanSchema) (h : s.Grows t)
    (hcur : t.table.current = s.table.current) (hsnap : t.table.snapshots = s.table.snapshots)
    (hcommitted : t.committed = s.committed) (hwriters : t.writers = s.writers) {n : Nat} {v : VersionWriter}
    (hv : v.Right S scanSchema t) : (t.put n v).Inv S scanSchema := by
  have hput : t.Grows (t.put n v) := Versions.Grows.of_table rfl rfl
  constructor
  · intro i hi
    obtain ⟨u, hu, hid⟩ := hs.current i (hcur.symm.trans hi)
    exact ⟨u, hsnap ▸ hu, hid⟩
  · intro m u hu
    by_cases hm : m = n
    · subst hm
      obtain rfl := Option.some.inj ((Lookup.insert_self _ _ _).symm.trans hu)
      exact hv.grows hput
    · have hold := (Lookup.insert_of_ne t.writers v hm).symm.trans hu
      rw [hwriters] at hold
      exact ((hs.writers m u hold).grows h).grows hput
  · intro c hc
    exact hs.covers c (hcommitted ▸ hc)
  · intro c hc
    exact (hs.kept c (hcommitted ▸ hc)).trans h.schema
  · intro c hc
    obtain ⟨snap, hsnap', hkept⟩ := hs.read c (hcommitted ▸ hc)
    refine ⟨snap, ?_, hkept⟩
    rw [← hsnap']
    change t.table.currentSnapshot = s.table.currentSnapshot
    unfold Metadata.currentSnapshot Metadata.snapshotById
    rw [hcur, hsnap]

/-- A base that is a copy of the table, of a write whose columns are in it. -/
theorem CopyOf.baseRight {s : Versions} (hs : s.Inv S scanSchema) {schema : List ColumnDef} {b : Metadata}
    (hb : CopyOf b s.table) (hschema : KeptIn schema s.table.schema) : BaseRight s schema b := by
  refine ⟨?_, fun i hi => hs.current i (hb.current.symm.trans hi), fun _ c hc => ?_⟩ <;> rw [hb.schema]
  · exact hschema
  · exact hs.kept c hc

/-- The snapshot a commit makes is found. -/
theorem currentSnapshot_push {table : Metadata} {snap : Snapshot} (h : ∀ t ∈ table.snapshots, t.id ≠ snap.id) :
    (table.push snap).currentSnapshot = some snap := by
  unfold Metadata.currentSnapshot Metadata.snapshotById Metadata.push
  have hnone : table.snapshots.find? (fun t => t.id = snap.id) = none := by
    rw [List.find?_eq_none]
    intro t ht
    simpa using h t ht
  simp [List.find?_append, hnone]

/-- A commit: the snapshot has the schema of a base taken at the table's snapshot. -/
theorem Versions.Inv.commits {s : Versions} (hs : s.Inv S scanSchema) {n : Nat} {v : VersionWriter}
    {schema : List ColumnDef} {w : IcebergWrite} {base table : Metadata} {r : Option Rewritten} {id : Int}
    {path : String} (holds : s.writers n = some v) (hp : v.phase = .writing schema w (.producing base r))
    (freshId : ∀ t ∈ s.table.snapshots, t.id ≠ id)
    (taken : updateTable s.table base (fastAppend base id path w.files w.summary) = some table) :
    s.Grows ((s.commit table v.contract schema).put n { v with phase := .writing schema w (.committed id) }) ∧
      ((s.commit table v.contract schema).put n { v with phase := .writing schema w (.committed id) }).Inv S
        scanSchema := by
  obtain ⟨hcurrent, rfl⟩ := updateTable_eq taken
  have hright := hs.writers n v holds
  unfold VersionWriter.Right at hright
  rw [hp] at hright
  obtain ⟨hcovers, hkept, hbase⟩ := hright
  have hb := hbase base rfl
  have hgrows : s.Grows ((s.commit (s.table.push (fastAppend base id path w.files w.summary)) v.contract schema).put n
      { v with phase := .writing schema w (.committed id) }) := by
    refine ⟨KeptIn.refl _, ?_, .inr ⟨id, rfl, ?_⟩⟩
    · rintro i ⟨t, ht, hi⟩
      exact ⟨t, List.mem_append_left _ ht, hi⟩
    · rintro ⟨t, ht, hi⟩
      exact freshId t ht hi
  refine ⟨hgrows, ?_⟩
  constructor
  · intro i hi
    refine ⟨_, List.mem_append_right _ (List.mem_singleton_self _), ?_⟩
    exact Option.some.inj hi
  · intro m u hu
    by_cases hm : m = n
    · subst hm
      obtain rfl := Option.some.inj ((Lookup.insert_self _ _ _).symm.trans hu)
      refine ⟨hcovers, hkept, fun b hb => ?_⟩
      cases hb
    · exact (hs.writers m u ((Lookup.insert_of_ne s.writers _ hm).symm.trans hu)).grows hgrows
  · intro c hc
    rcases List.mem_append.1 hc with hc | hc
    · exact hs.covers c hc
    · obtain rfl := List.mem_singleton.1 hc
      exact hcovers
  · intro c hc
    rcases List.mem_append.1 hc with hc | hc
    · exact hs.kept c hc
    · obtain rfl := List.mem_singleton.1 hc
      exact hkept
  · intro c hc
    refine ⟨_, @currentSnapshot_push _ (fastAppend base id path w.files w.summary) freshId, ?_⟩
    rcases List.mem_append.1 hc with hc | hc
    · exact hb.others hcurrent.symm c hc
    · obtain rfl := List.mem_singleton.1 hc
      exact hb.own

/-- The step lemma. -/
theorem VersionStep.inv {s t : Versions} {a : VersionAction} (hs : s.Inv S scanSchema)
    (h : VersionStep S scanSchema name s a t) : s.Grows t ∧ t.Inv S scanSchema := by
  have hsame : ∀ n v, s.Grows (s.put n v) := fun n v => Versions.Grows.of_table rfl rfl
  have hrefl : s.Grows s := Versions.Grows.of_table rfl rfl
  cases h with
  | @begins n cc retries fresh =>
    refine ⟨hsame _ _, hs.put hrefl rfl rfl rfl rfl ?_⟩
    unfold VersionWriter.Right evolveStart
    cases retries with
    | error e => exact ⟨trivial, fun _ h => nomatch h⟩
    | ok k =>
      refine ⟨(look_counts (Nat.zero_le 0)).2, fun l hl => ?_⟩
      rw [held_look hl]
      exact KeptIn.refl _
  | @evolves n v e e' k k' l l' t a holds hp own step =>
    have hright := hs.writers n v holds
    unfold VersionWriter.Right at hright
    rw [hp] at hright
    obtain ⟨t', ht', hkept⟩ := step.own_table own rfl
    obtain rfl := Option.some.inj ht'
    have hgrows : s.Grows (s.evolve t) := ⟨hkept, fun _ h => h, .inl ⟨rfl, rfl⟩⟩
    refine ⟨⟨hkept, fun _ h => h, .inl ⟨rfl, rfl⟩⟩, hs.put hgrows rfl rfl rfl rfl ?_⟩
    refine ⟨step.returns hright.1, fun u hu => ?_⟩
    rcases step.own_held hu with hheld | hheld
    · exact (hright.2 u hheld).trans hkept
    · obtain rfl := Option.some.inj hheld
      exact KeptIn.refl _
  | @writes n v t k schema w holds hp checked =>
    have hright := hs.writers n v holds
    unfold VersionWriter.Right at hright
    rw [hp] at hright
    refine ⟨hsame _ _, hs.put hrefl rfl rfl rfl rfl ?_⟩
    rw [(checkRequired_ok checked).1]
    exact ⟨hright.1, hright.2 t rfl, fun _ h => nomatch h⟩
  | refuses holds hp checked => exact ⟨hsame _ _, hs.put hrefl rfl rfl rfl rfl trivial⟩
  | @loads n v schema w p p' holds hp hload =>
    have hright := hs.writers n v holds
    unfold VersionWriter.Right at hright
    rw [hp] at hright
    refine ⟨hsame _ _, hs.put hrefl rfl rfl rfl rfl ⟨hright.1, hright.2.1, fun b hb => ?_⟩⟩
    rcases load_base hload hb with hcopy | hold
    · exact hcopy.baseRight hs hright.2.1
    · exact hright.2.2 b hold
  | commits holds hp freshId taken => exact hs.commits holds hp freshId taken
  | @conflicts n v schema w base r id path why holds hp refused =>
    have hright := hs.writers n v holds
    unfold VersionWriter.Right at hright
    rw [hp] at hright
    refine ⟨hsame _ _, hs.put hrefl rfl rfl rfl rfl ⟨hright.1, hright.2.1, fun b hb => ?_⟩⟩
    rw [afterConflict_base] at hb
    cases hb
  | @fails n v schema w p e holds hp going =>
    have hright := hs.writers n v holds
    unfold VersionWriter.Right at hright
    rw [hp] at hright
    exact ⟨hsame _ _, hs.put hrefl rfl rfl rfl rfl ⟨hright.1, hright.2.1, fun _ h => nomatch h⟩⟩

theorem Versions.Inv.start {table : Metadata} (hcurrent : ∀ i, table.current = some i → table.HasId i) (id : Nat) :
    (Versions.start table id).Inv S scanSchema where
  current := hcurrent
  writers _ _ h := nomatch h
  covers _ h := nomatch h
  kept _ h := nomatch h
  read _ h := nomatch h

/-- No step takes a column from the table's schema or changes one, nor does any run. -/
theorem schema_kept_run {s t : Versions} {as : List VersionAction} (hs : s.Inv S scanSchema)
    (h : Run (VersionStep S scanSchema name) s as t) : KeptIn s.table.schema t.table.schema := by
  induction h with
  | nil s => exact KeptIn.refl _
  | cons hstep _ ih =>
    obtain ⟨hgrows, hinv⟩ := hstep.inv hs
    exact hgrows.schema.trans (ih hinv)

/-- A snapshot that is found is found under its own id. -/
theorem snapshotById_of_current {md : Metadata} {snap : Snapshot} (h : md.currentSnapshot = some snap) :
    md.snapshotById snap.id = some snap := by
  obtain ⟨i, _, hfind⟩ := Option.bind_eq_some_iff.1 h
  have hid : snap.id = i := by
    unfold Metadata.snapshotById at hfind
    simpa using List.find?_some hfind
  rw [hid]
  exact hfind

/-- A contract reads every column from a snapshot that has those of a schema with the contract's. -/
theorem provider_ok {md : Metadata} {snap : Snapshot} {cc : CompiledContract} {schema : List ColumnDef}
    (hscan : ∀ d ∈ cc.rowSchema, d.name ∈ (scanSchema cc).map ColumnDef.name)
    (hsnap : md.snapshotById snap.id = some snap)
    (hcovers : S.Covers schema (tableSchema scanSchema cc)) (hkept : KeptIn schema snap.schema) (stored : Bool) :
    ∃ select, md.provider scanSchema name cc stored snap.id = .ok select := by
  have hread : ∀ n, n ∈ (tableSchema scanSchema cc).map ColumnDef.name → ∃ g, fieldNamed snap.schema n = some g := by
    intro n hn
    obtain ⟨w, hw, rfl⟩ := List.mem_map.1 hn
    obtain ⟨g, hg, _⟩ := hcovers w hw
    exact ⟨g, hkept _ g hg⟩
  unfold Metadata.provider
  rw [hsnap]
  refine providerSelect_ok fun f hf => hread f.name ?_
  cases stored with
  | true => exact List.mem_map_of_mem hf
  | false =>
    obtain ⟨w, hw, hname⟩ := List.mem_map.1 (hscan f hf)
    rw [← hname]
    exact List.mem_map_of_mem (List.mem_append_left _ (List.mem_append_left _ hw))

/-- Versions of a contract over one table: the table's schema keeps every column, as it is; and after a write under a
contract has committed, the current snapshot has every column of the files it wrote, the contract's among them, so
that a read of it under the contract is refused no column. -/
theorem versions_keep_columns (S : Schemas) (scanSchema : CompiledContract → List ColumnDef) (name : String)
    (hscan : ∀ cc : CompiledContract, ∀ d ∈ cc.rowSchema, d.name ∈ (scanSchema cc).map ColumnDef.name)
    {table : Metadata} (hcurrent : ∀ i, table.current = some i → table.HasId i) (id : Nat) {as : List VersionAction}
    {s : Versions} (h : Run (VersionStep S scanSchema name) (.start table id) as s) :
    (∀ bs t, Run (VersionStep S scanSchema name) s bs t → KeptIn s.table.schema t.table.schema) ∧
      ∀ cc schema, (cc, schema) ∈ s.committed → S.Covers schema (tableSchema scanSchema cc) ∧
        ∃ snap, s.table.currentSnapshot = some snap ∧ KeptIn schema snap.schema ∧
          ∀ stored, ∃ select, s.table.provider scanSchema name cc stored snap.id = .ok select := by
  have hinv : s.Inv S scanSchema := h.inv (fun _ _ _ hs hstep => (hstep.inv hs).2) (.start hcurrent id)
  refine ⟨fun bs t hrun => schema_kept_run hinv hrun, fun cc schema hc => ?_⟩
  have hcovers := hinv.covers _ hc
  obtain ⟨snap, hsnap, hkept⟩ := hinv.read _ hc
  exact ⟨hcovers, snap, hsnap, hkept, provider_ok (hscan cc) (snapshotById_of_current hsnap) hcovers hkept⟩

end Invariant

/-- A table of one column, with no snapshot. -/
def amountTable : Metadata := ⟨"sales.orders", "u1", 2, [⟨"amount", "long", true⟩], [], none⟩

/-- The contract, with a column more. -/
def regionalAmounts : CompiledContract :=
  { nullableAmounts.contract with
    name := "regional", rowSchema := nullableAmounts.contract.rowSchema ++ [⟨"region", "string", true⟩] }

/-- An append of one file. -/
def appendOf (contract : CompiledContract) (row : Row) : IcebergWrite :=
  ⟨contract.name, .append, none, contract.name, "h1", "c1", [⟨"data/" ++ contract.name, 1, 100, {row}⟩]⟩

def versionActions : List VersionAction :=
  [.begins 0, .begins 1, .evolves 1, .writes 0, .writes 1, .loads 0, .loads 1, .commits 1, .conflicts 0, .loads 0,
    .commits 0]

/-- A write under each of two contracts: one adds its column while the other's runs and commits first, and the other
commits over it. -/
theorem two_versions_kept :
    ∃ s, Run (VersionStep plainSchemas CompiledContract.rowSchema "sales.orders") (.start amountTable 0)
        versionActions s ∧ s.committed.map (fun c => c.1.name) = ["regional", "orders"] ∧
      ∀ cc schema, (cc, schema) ∈ s.committed →
        plainSchemas.Covers schema (tableSchema CompiledContract.rowSchema cc) ∧
          ∃ snap, s.table.currentSnapshot = some snap ∧ KeptIn schema snap.schema ∧
            ∀ stored, ∃ select, s.table.provider CompiledContract.rowSchema "sales.orders" cc stored snap.id =
              .ok select := by
  have hrun : ∃ s, Run (VersionStep plainSchemas CompiledContract.rowSchema "sales.orders") (.start amountTable 0)
      versionActions s ∧ s.committed.map (fun c => c.1.name) = ["regional", "orders"] := by
    have hfresh : ∀ snap : Snapshot, snap.id = 1 → ∀ t ∈ [snap], t.id ≠ 2 := by
      intro snap hid t ht
      rw [List.mem_singleton.1 ht, hid]
      decide
    exact ⟨_, .cons (.begins nullableAmounts.contract (.ok 4) rfl) (.cons (.begins regionalAmounts (.ok 4) rfl)
      (.cons (.evolves (l := none) rfl rfl rfl (.commits 1 rfl rfl (by decide)))
      (.cons (.writes (appendOf nullableAmounts.contract [("amount", .int 1)]) rfl rfl rfl)
      (.cons (.writes (appendOf regionalAmounts [("amount", .int 2), ("region", .str "eu")]) rfl rfl rfl)
      (.cons (.loads rfl rfl rfl) (.cons (.loads rfl rfl rfl)
      (.cons (@VersionStep.commits _ _ _ _ _ _ _ _ _ _ _ 1 "m1" rfl rfl (fun _ h => nomatch h) rfl)
      (.cons (@VersionStep.conflicts _ _ _ _ _ _ _ _ _ _ 2 "m2" "the table moved" rfl rfl rfl)
      (.cons (.loads rfl rfl rfl)
      (.cons (@VersionStep.commits _ _ _ _ _ _ _ _ _ _ _ 2 "m2" rfl rfl (hfresh _ rfl) rfl)
        (.nil _))))))))))), rfl⟩
  obtain ⟨s, hs, hnames⟩ := hrun
  have hcurrent : ∀ i, amountTable.current = some i → amountTable.HasId i := fun _ h => nomatch h
  exact ⟨s, hs, hnames, (versions_keep_columns plainSchemas CompiledContract.rowSchema "sales.orders"
    (fun _ d hd => List.mem_map_of_mem hd) hcurrent 0 hs).2⟩

end Peql
