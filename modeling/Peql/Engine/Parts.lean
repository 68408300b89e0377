import Peql.Iceberg.Required
import Peql.Lib.Runs
import Peql.Violation.Split

/-!
# The parts of a write

`Engine::write_part` may run for several parts of one write at once. Each call computes its part's columns, and under
`exclude` divides the rows, adds what breaks each rule to the counts under their lock, adds the rows it sets aside to
one counter, has DataFusion write the others to files of its own, and adds these to another counter; any of it between
the steps of other calls (`PartsStep`). Once every call has returned, the write accounts for every row
(`exclude_accounts`), in the order in which DataFusion gave the rows to be divided. The files hold them in the order of
their layout, which may be another (`clustered_reordered`).

DataFusion's Parquet writer is given, as a relation between what it is told to write and the files it writes.
-/

namespace Peql

open Runs

/-! ## How files are laid out -/

/-- A contract's layout of its files. -/
structure Layout where
  partitionBy : List String
  clusterBy : List String
  bloom : List String

/-- `MIN_WRITE_MEMORY`: a row group of a megabyte. -/
def minWriteMemory : Nat := 4 * 2 ^ 20

/-- What one part may hold while it is written. -/
abbrev WriteMemory := { bytes : Nat // minWriteMemory ≤ bytes }

structure SortExpr where
  column : String
  asc : Bool
  nullsFirst : Bool
deriving DecidableEq

/-- What DataFusion is told of the files. -/
structure WriteOptions where
  partitionBy : List String
  sortBy : List SortExpr
  keyValueMetadata : List (String × String)
  statisticsEnabled : String
  allowSingleFileParallelism : Bool
  maxRowGroupBytes : Option Nat
  /-- The columns with a bloom filter, and the values each is sized for. -/
  bloom : List (String × Option Nat)

/-- `write_options`. -/
def writeOptions (cc : CompiledContract) (layout : Layout) (memory : Option WriteMemory) (rows : Nat) :
    WriteOptions where
  partitionBy := layout.partitionBy
  sortBy := layout.clusterBy.map fun c => ⟨c, false, false⟩
  keyValueMetadata := [("parcel.contract_hash", cc.contractHash), ("parcel.contract", cc.name)]
  statisticsEnabled := "page"
  allowSingleFileParallelism := false
  maxRowGroupBytes := memory.map fun m => m.1 / 8
  bloom := layout.bloom.map fun c => (c, memory.map fun _ => max rows 1)

/-- A file of a part, with its rows in the order it holds them. -/
structure PartFile where
  file : StoredFile
  rows : List Row
  holds : file.rows = ↑rows

/-- DataFusion's Parquet writer: the files it may write of some rows. -/
abbrev ParquetWriter := WriteOptions → List Row → List PartFile → Prop

/-- Whatever the options, it writes every row once. -/
def ParquetWriter.WritesOnce (W : ParquetWriter) : Prop :=
  ∀ options rows files, W options rows files → (files.flatMap PartFile.rows).Perm rows

/-! ## Calls of `write_part` -/

/-- What the parts of a write are written with: the layout, the memory bound, and the columns of the table, where it is
one. -/
structure PartSettings where
  kernel : Kernel
  layout : Layout
  memory : Option WriteMemory
  table : Option (String × List ColumnDef)

inductive PartPhase
  | begun
  /-- The rows are flagged and divided. -/
  | divided (s : Split)
  /-- What breaks each rule is added to the write's counts. -/
  | counted (s : Split)
  /-- The rows to write, and how many they are. -/
  | passed (kept : List Row) (rows : Nat) (excluded : Option SetAside)
  /-- They are written. -/
  | stored (rows : Nat) (excluded : Option SetAside)
  /-- `Part`. -/
  | returned (rowsWritten : Nat) (excluded : Option SetAside)
  | failed

/-- A call of `write_part`, with the rows given it and the files it has written. -/
structure PartCall where
  given : List Row
  phase : PartPhase
  files : List PartFile

/-- What the calls of one write share. -/
structure Tally where
  rows : Nat
  rowsExcluded : Nat
  excluded : List (String × Nat)
  files : List PartFile

/-- The write as `finish_write` takes it. -/
def Tally.writing (t : Tally) (w : Begun) : Begun :=
  { w with rows := t.rows, rowsExcluded := t.rowsExcluded, excluded := t.excluded, files := t.files.map PartFile.file }

namespace Begun

variable (w : Begun) (p : PartSettings)

/-- The rows are divided before they are written. -/
def divides : Bool := w.onViolation = .exclude && !(enforcedFlags w.reg.compilation.write.flags).isEmpty

/-- A part's rows, each with every column the write computes. -/
def computed (given : List Row) : List Row := given.map (writtenRow ⟨p.kernel, fun _ _ => given⟩ w.reg.compilation)

/-- The plan written of the rows that go on: with a table's columns, each as the table has it. -/
def storedPlan : Except PeqlError Plan :=
  match p.table with
  | some (table, schema) => project table schema (writtenColumns w.reg.compilation) (.scan "kept" "kept")
  | none => .ok (.scan "kept" "kept")

end Begun

variable (W : ParquetWriter) (w : Begun) (p : PartSettings)

/-- One step of a call: what it shares with the others, and itself. A projection with two columns of one name is refused
when it is planned; what DataFusion collects has the rows in some order. -/
inductive PartStep : Tally → PartCall → Tally → PartCall → Prop
  | divide {t : Tally} {given : List Row} {files : List PartFile} {batches : List RecordBatch} {s : Split}
      (hex : w.divides = true) (unique : (writtenColumns w.reg.compilation).Nodup)
      (collected : (batches.flatMap RecordBatch.rows).Perm (w.computed p given))
      (hs : split (enforcedFlags w.reg.compilation.write.flags) w.reg.compilation.contract.rowSchema batches = .ok s) :
      PartStep t ⟨given, .begun, files⟩ t ⟨given, .divided s, files⟩
  | count {t : Tally} {given : List Row} {files : List PartFile} {s : Split} :
      PartStep t ⟨given, .divided s, files⟩
        { t with excluded := s.counts.foldl (fun counts c => addCount c.1 c.2 counts) t.excluded }
        ⟨given, .counted s, files⟩
  | exclude {t : Tally} {given : List Row} {files : List PartFile} {s : Split} :
      PartStep t ⟨given, .counted s, files⟩ { t with rowsExcluded := t.rowsExcluded + (given.length - s.passingRows) }
        ⟨given, .passed (s.passing.flatMap RecordBatch.rows) s.passingRows s.breaking, files⟩
  | pass {t : Tally} {given : List Row} {files : List PartFile} {rows : List Row} (hex : w.divides = false)
      (unique : (writtenColumns w.reg.compilation).Nodup) (streamed : rows.Perm (w.computed p given)) :
      PartStep t ⟨given, .begun, files⟩ t ⟨given, .passed rows given.length none, files⟩
  | store {t : Tally} {given kept : List Row} {rows : Nat} {excluded : Option SetAside} {files more : List PartFile}
      {plan : Plan} (hplan : w.storedPlan p = .ok plan)
      (hw : W (writeOptions w.reg.compilation.contract p.layout p.memory rows)
        (plan.run ⟨p.kernel, fun _ _ => kept⟩ []).val more) :
      PartStep t ⟨given, .passed kept rows excluded, files⟩ { t with files := t.files ++ more }
        ⟨given, .stored rows excluded, files ++ more⟩
  | finish {t : Tally} {given : List Row} {rows : Nat} {excluded : Option SetAside} {files : List PartFile} :
      PartStep t ⟨given, .stored rows excluded, files⟩ { t with rows := t.rows + rows }
        ⟨given, .returned rows excluded, files⟩
  /-- An error, wherever it is met; the files begun stay where they are. -/
  | fail {t : Tally} {given : List Row} {phase : PartPhase} {files more : List PartFile}
      (going : ∀ rows excluded, phase ≠ .returned rows excluded) :
      PartStep t ⟨given, phase, files⟩ { t with files := t.files ++ more } ⟨given, .failed, files ++ more⟩

/-- A write with the calls of its parts. -/
structure PartsState where
  tally : Tally
  calls : List PartCall

/-- A step of one of the calls, whichever. -/
inductive PartsStep : PartsState → Unit → PartsState → Prop
  | call {t t' : Tally} {before after : List PartCall} {c c' : PartCall} (step : PartStep W w p t c t' c') :
      PartsStep ⟨t, before ++ c :: after⟩ () ⟨t', before ++ c' :: after⟩

/-- A write with nothing written, and the calls of its parts to come. -/
def PartsState.begun (parts : List (List Row)) : PartsState :=
  ⟨⟨0, 0, [], []⟩, parts.map fun rows => ⟨rows, .begun, []⟩⟩

def PartCall.hasReturned (c : PartCall) : Prop := ∃ rows excluded, c.phase = .returned rows excluded

/-! ## What is accounted for -/

namespace Begun

variable (w : Begun) (p : PartSettings) (given : List Row)

/-- A given row fails an assert: what it says of the row, with the columns enrichment adds, is not true. -/
def fails (r : Row) (f : Flag) : Bool :=
  !((f.expr.eval ⟨p.kernel, fun _ _ => given⟩ []
    (enrichedRow ⟨p.kernel, fun _ _ => given⟩ w.reg.compilation.contract r)).val).isTrue

/-- The enforced asserts a given row fails, in the contract's order. -/
def failedRules (r : Row) : List String :=
  ((enforcedFlags w.reg.compilation.write.flags).filter (w.fails p given r)).map Flag.assertId

/-- A given row fails no enforced assert. -/
def sound (r : Row) : Bool := (enforcedFlags w.reg.compilation.write.flags).all fun f => !w.fails p given r f

/-- How many of the rows given fail a rule, each counted once for every enforced assert of that name. -/
def failures (rule : String) : Nat :=
  (((enforcedFlags w.reg.compilation.write.flags).filter fun f => f.assertId = rule).map fun f =>
    given.countP fun r => w.fails p given r f).sum

/-- A row as the files have it. -/
def storedRow (r : Row) : Row :=
  let written := writtenRow ⟨p.kernel, fun _ _ => given⟩ w.reg.compilation r
  match p.table with
  | some (_, schema) =>
    valuesOf ⟨p.kernel, fun _ _ => []⟩ (schema.map ColumnDef.name)
      (schema.map (projectedColumn (writtenColumns w.reg.compilation))) written
  | none => written

/-- The rows of a part that fail an assert, as they are handed back: as given, with the rules each broke. -/
def handedBack (order : List Row) : SetAside :=
  (order.filter fun r => !w.sound p given r).map fun r =>
    (asGiven w.reg.compilation.contract.rowSchema r, w.failedRules p given r)

/-- A split of a part's rows, taken in some order. -/
structure Divides (order : List Row) (s : Split) : Prop where
  perm : order.Perm given
  passing : s.passing.flatMap RecordBatch.rows =
    (order.filter (w.sound p given)).map (writtenRow ⟨p.kernel, fun _ _ => given⟩ w.reg.compilation)
  passingRows : s.passingRows = order.countP (w.sound p given)
  breaking : s.breaking.getD [] = w.handedBack p given order
  ordered : Ordered s.counts
  counts : ∀ rule, countOf s.counts rule = w.failures p given rule

/-- The rows of a part that go on, those handed back, and how many go on. -/
structure Passes (order kept : List Row) (rows : Nat) (excluded : Option SetAside) : Prop where
  perm : order.Perm given
  kept : kept = (order.filter (w.sound p given)).map (writtenRow ⟨p.kernel, fun _ _ => given⟩ w.reg.compilation)
  count : rows = order.countP (w.sound p given)
  excluded : excluded.getD [] = w.handedBack p given order

/-- The files of a part, whose writer was given the rows that go on, in that order. -/
structure Stores (W : ParquetWriter) (order : List Row) (rows : Nat) (excluded : Option SetAside)
    (files : List PartFile) : Prop where
  perm : order.Perm given
  count : rows = order.countP (w.sound p given)
  excluded : excluded.getD [] = w.handedBack p given order
  files : W (writeOptions w.reg.compilation.contract p.layout p.memory rows)
    ((order.filter (w.sound p given)).map (w.storedRow p given)) files

end Begun

/-! ## Rows and their flags -/

/-- What is computed of some rows is computed of them in some order. -/
theorem exists_order {f : Row → Row} {rows given : List Row} (h : rows.Perm (given.map f)) :
    ∃ order : List Row, order.Perm given ∧ rows = order.map f := by
  have hmap : List.Forall₂ (fun a b => a = f b) (given.map f) given := by
    rw [List.forall₂_map_left_iff]
    exact List.forall₂_same.2 fun _ _ => rfl
  obtain ⟨order, hrows, horder⟩ := List.perm_comp_forall₂ h hmap
  refine ⟨order, horder, ?_⟩
  clear h hmap horder
  induction hrows with
  | nil => rfl
  | cons heq _ ih => rw [heq, ih, List.map_cons]

section Flags

variable {w : Begun} {p : PartSettings} {given : List Row}

/-- Where no two columns have one name, a flag's column has what the flag's assert says of the row. -/
theorem writtenRow_flag {env : Env} {c : Compilation} (unique : (writtenColumns c).Nodup) {f : Flag}
    (hf : f ∈ c.write.flags) (r : Row) :
    (writtenRow env c r).get f.column = (f.expr.eval env [] (enrichedRow env c.contract r)).val := by
  have hget := get_valuesOf env (enrichedRow env c.contract r)
    ((scanColumns c.contract).map (fun n => (n, Expr.column n)) ++ c.write.flags.map (fun f => (f.column, f.expr)) ++
      c.write.derived.map fun d => (d.column, d.expr)) f.column
  have hmem : (f.column, f.expr) ∈ (scanColumns c.contract).map (fun n => (n, Expr.column n)) ++
      c.write.flags.map (fun f => (f.column, f.expr)) ++ c.write.derived.map fun d => (d.column, d.expr) :=
    List.mem_append_left _ (List.mem_append_right _ (List.mem_map.2 ⟨f, hf, rfl⟩))
  rw [Lookup.lookup_of_mem (by simpa [writtenColumns, List.map_map, Function.comp_def] using unique) hmem] at hget
  simpa [writtenRow, writtenColumns, List.map_map, Function.comp_def] using hget

/-- A written row's flag says whether the row passes. -/
theorem isTrue_written (unique : (writtenColumns w.reg.compilation).Nodup) {f : Flag}
    (hf : f ∈ enforcedFlags w.reg.compilation.write.flags) (r : Row) :
    (!((writtenRow ⟨p.kernel, fun _ _ => given⟩ w.reg.compilation r).get f.column).isTrue) = w.fails p given r f := by
  rw [writtenRow_flag unique (mem_enforcedFlags.1 hf).1]
  rfl

/-- A written row passes when the row given is sound. -/
theorem passesAll_written (unique : (writtenColumns w.reg.compilation).Nodup) (r : Row) :
    passesAll (enforcedFlags w.reg.compilation.write.flags)
      (writtenRow ⟨p.kernel, fun _ _ => given⟩ w.reg.compilation r) = w.sound p given r := by
  unfold passesAll Begun.sound
  rw [Bool.eq_iff_iff, List.all_eq_true, List.all_eq_true]
  refine forall₂_congr fun f hf => ?_
  rw [← isTrue_written unique hf, Bool.not_not]

/-- It breaks the rules the row given breaks. -/
theorem brokenRules_written (unique : (writtenColumns w.reg.compilation).Nodup) (r : Row) :
    brokenRules (enforcedFlags w.reg.compilation.write.flags)
      (writtenRow ⟨p.kernel, fun _ _ => given⟩ w.reg.compilation r) = w.failedRules p given r := by
  unfold brokenRules Begun.failedRules
  rw [List.filter_congr fun f hf => isTrue_written unique hf r]

/-- What it was written of is the row given. -/
theorem asGiven_written (r : Row) :
    asGiven w.reg.compilation.contract.rowSchema (writtenRow ⟨p.kernel, fun _ _ => given⟩ w.reg.compilation r) =
      asGiven w.reg.compilation.contract.rowSchema r := by
  unfold asGiven
  refine List.map_congr_left fun d hd => ?_
  rw [writtenRow_get (List.mem_map_of_mem hd)]

/-- The rows written break each rule as often as the rows given. -/
theorem breaks_written (unique : (writtenColumns w.reg.compilation).Nodup) {order : List Row}
    (horder : order.Perm given)
    (rule : String) :
    breaks (enforcedFlags w.reg.compilation.write.flags)
      (order.map (writtenRow ⟨p.kernel, fun _ _ => given⟩ w.reg.compilation)) rule = w.failures p given rule := by
  unfold breaks Begun.failures
  congr 1
  refine List.map_congr_left fun f hf => ?_
  rw [List.countP_map, horder.countP_eq]
  exact List.countP_congr fun r _ => by
    rw [Function.comp_apply, isTrue_written unique (List.mem_of_mem_filter hf)]

/-- A row is set aside with the asserts it fails, and those are never none. -/
theorem failedRules_eq_nil {r : Row} : w.failedRules p given r = [] ↔ w.sound p given r = true := by
  simp [Begun.failedRules, Begun.sound, List.filter_eq_nil_iff]

end Flags

/-! ## What a call has done -/

section Calls

variable {W : ParquetWriter} {w : Begun} {p : PartSettings} {given order : List Row} {s : Split}

/-- A split divides the rows given. -/
theorem divides_of_split {batches : List RecordBatch} (unique : (writtenColumns w.reg.compilation).Nodup)
    (collected : (batches.flatMap RecordBatch.rows).Perm (w.computed p given))
    (hs : split (enforcedFlags w.reg.compilation.write.flags) w.reg.compilation.contract.rowSchema batches = .ok s) :
    ∃ order, w.Divides p given order s := by
  obtain ⟨order, horder, hrows⟩ := exists_order collected
  have hof := split_spec hs
  rw [hrows] at hof
  have hpass : passesAll (enforcedFlags w.reg.compilation.write.flags) ∘
      writtenRow ⟨p.kernel, fun _ _ => given⟩ w.reg.compilation = w.sound p given :=
    funext fun r => passesAll_written unique r
  refine ⟨order, horder, ?_, ?_, ?_, hof.ordered, fun rule => ?_⟩
  · rw [hof.passing, List.filter_map, hpass]
  · rw [hof.passingRows, List.countP_map, hpass]
  · rw [hof.breaking, List.filter_map, List.map_map]
    unfold Begun.handedBack
    have hnot : (fun r => !passesAll (enforcedFlags w.reg.compilation.write.flags) r) ∘
        writtenRow ⟨p.kernel, fun _ _ => given⟩ w.reg.compilation = fun r => !w.sound p given r :=
      funext fun r => by rw [Function.comp_apply, passesAll_written unique]
    rw [hnot]
    refine List.map_congr_left fun r _ => ?_
    rw [Function.comp_apply, asGiven_written, brokenRules_written unique]
  · rw [hof.counts, breaks_written unique horder]

/-- What is divided passes on the sound rows. -/
theorem passes_of_divides (h : w.Divides p given order s) :
    w.Passes p given order (s.passing.flatMap RecordBatch.rows) s.passingRows s.breaking :=
  ⟨h.perm, h.passing, h.passingRows, h.breaking⟩

/-- Without an assert to enforce every row goes on. -/
theorem passes_all (hex : w.onViolation = .exclude) (hdiv : w.divides = false) {rows : List Row}
    (streamed : rows.Perm (w.computed p given)) :
    (∃ order, w.Passes p given order rows given.length none) ∧ ∀ rule, w.failures p given rule = 0 := by
  have hflags : enforcedFlags w.reg.compilation.write.flags = [] := by
    simpa [Begun.divides, hex] using hdiv
  have hsound : w.sound p given = fun _ => true := by
    funext r
    simp [Begun.sound, hflags]
  obtain ⟨order, horder, rfl⟩ := exists_order streamed
  refine ⟨⟨order, horder, ?_, ?_, ?_⟩, fun rule => by simp [Begun.failures, hflags]⟩
  · simp [hsound]
  · simp [hsound, horder.length_eq]
  · simp [Begun.handedBack, hsound]

/-- A table's columns are made of a row alone. -/
theorem valuesOf_projected (k : Kernel) (read read' : String → String → List Row) (names columns : List String)
    (schema : List ColumnDef) (r : Row) :
    valuesOf ⟨k, read⟩ names (schema.map (projectedColumn columns)) r =
      valuesOf ⟨k, read'⟩ names (schema.map (projectedColumn columns)) r := by
  unfold valuesOf
  congr 1
  simp only [evals_eq_traverse, Reported.traverse_val, List.map_map]
  refine List.map_congr_left fun f _ => ?_
  simp only [Function.comp_apply, projectedColumn]
  split
  · simp only [Expr.eval]
  · simp only [Expr.eval]

/-- What passes is stored. -/
theorem stores_of_passes {kept : List Row} {rows : Nat} {excluded : Option SetAside}
    {files : List PartFile} {plan : Plan}
    (h : w.Passes p given order kept rows excluded) (hplan : w.storedPlan p = .ok plan)
    (hw : W (writeOptions w.reg.compilation.contract p.layout p.memory rows)
      (plan.run ⟨p.kernel, fun _ _ => kept⟩ []).val files) :
    w.Stores p given W order rows excluded files := by
  refine ⟨h.perm, h.count, h.excluded, ?_⟩
  have hrows : (plan.run ⟨p.kernel, fun _ _ => kept⟩ []).val =
      (order.filter (w.sound p given)).map (w.storedRow p given) := by
    unfold Begun.storedPlan at hplan
    unfold Begun.storedRow
    cases htable : p.table with
    | none =>
      rw [htable] at hplan
      obtain rfl := Except.ok.inj hplan
      exact h.kept
    | some ts =>
      obtain ⟨table, schema⟩ := ts
      rw [htable] at hplan
      obtain ⟨_, rfl⟩ := project_ok hplan
      simp only [Plan.run, Reported.bind_val, Reported.pure_val, Reported.traverse_val, Reported.map_val, h.kept,
        List.map_map]
      exact List.map_congr_left fun r _ => valuesOf_projected _ _ _ _ _ _ _
  rwa [hrows] at hw

/-! ### What a step of a call changes -/

/-- What is known of a call by how far it has come. -/
def PartCall.Fine (W : ParquetWriter) (w : Begun) (p : PartSettings) (c : PartCall) : Prop :=
  match c.phase with
  | .begun => c.files = []
  | .divided s | .counted s => c.files = [] ∧ ∃ order, w.Divides p c.given order s
  | .passed kept rows excluded => c.files = [] ∧ ∃ order, w.Passes p c.given order kept rows excluded
  | .stored rows excluded | .returned rows excluded => ∃ order, w.Stores p c.given W order rows excluded c.files
  | .failed => True

namespace PartCall

/-- What the call has added to the rows written. -/
def rowsIn (c : PartCall) : Nat :=
  match c.phase with
  | .returned rows _ => rows
  | .begun | .divided _ | .counted _ | .passed _ _ _ | .stored _ _ | .failed => 0

/-- And to the rows excluded. -/
def excludedIn (c : PartCall) : Nat :=
  match c.phase with
  | .passed _ rows _ | .stored rows _ | .returned rows _ => c.given.length - rows
  | .begun | .divided _ | .counted _ | .failed => 0

/-- And to what is counted under a rule. -/
def failuresIn (w : Begun) (p : PartSettings) (rule : String) (c : PartCall) : Nat :=
  match c.phase with
  | .counted _ | .passed _ _ _ | .stored _ _ | .returned _ _ => w.failures p c.given rule
  | .begun | .divided _ | .failed => 0

end PartCall

/-- What one step does to what is shared is what it does to the call's share of it. -/
structure Moves (w : Begun) (p : PartSettings) (t : Tally) (c : PartCall) (t' : Tally) (c' : PartCall) : Prop where
  given : c'.given = c.given
  rows : t'.rows + c.rowsIn = t.rows + c'.rowsIn
  rowsExcluded : t'.rowsExcluded + c.excludedIn = t.rowsExcluded + c'.excludedIn
  ordered : Ordered t'.excluded
  counts : ∀ rule, countOf t'.excluded rule + c.failuresIn w p rule = countOf t.excluded rule + c'.failuresIn w p rule
  files : ∃ more, t'.files = t.files ++ more ∧ c'.files = c.files ++ more

/-- A failed call stays failed. -/
theorem PartStep.going {t t' : Tally} {c c' : PartCall} (h : PartStep W w p t c t' c') (going : c'.phase ≠ .failed) :
    c.phase ≠ .failed := by
  cases h with
  | fail _ => exact absurd rfl going
  | divide _ _ _ _ => simp
  | count => simp
  | exclude => simp
  | pass _ _ _ => simp
  | store _ _ => simp
  | finish => simp

/-- A part keeps the rows it was given. -/
theorem PartStep.given_eq {t t' : Tally} {c c' : PartCall} (h : PartStep W w p t c t' c') : c'.given = c.given := by
  cases h <;> rfl

/-- A step that does not fail. -/
theorem PartStep.moves {t t' : Tally} {c c' : PartCall} (h : PartStep W w p t c t' c') (hex : w.onViolation = .exclude)
    (going : c'.phase ≠ .failed) (hc : c.Fine W w p) (ht : Ordered t.excluded) :
    c'.Fine W w p ∧ Moves w p t c t' c' := by
  cases h with
  | divide hdiv unique collected hs =>
    refine ⟨⟨hc, divides_of_split unique collected hs⟩, ?_⟩
    exact ⟨rfl, rfl, rfl, ht, fun _ => rfl, [], (List.append_nil _).symm, (List.append_nil _).symm⟩
  | count =>
    obtain ⟨_, order, hdiv⟩ := hc
    refine ⟨⟨‹_›, order, hdiv⟩, rfl, rfl, rfl, (countOf_addCounts ht _ "").1, fun rule => ?_,
      [], (List.append_nil _).symm, (List.append_nil _).symm⟩
    show countOf _ rule + 0 = countOf _ rule + w.failures p _ rule
    rw [countOf_merged ht hdiv.ordered, hdiv.counts]
    rfl
  | exclude =>
    obtain ⟨hfiles, order, hdiv⟩ := hc
    refine ⟨⟨hfiles, order, passes_of_divides hdiv⟩, rfl, rfl, rfl, ht, fun _ => rfl,
      [], (List.append_nil _).symm, (List.append_nil _).symm⟩
  | pass hdiv unique streamed =>
    obtain ⟨hpasses, hnone⟩ := passes_all hex hdiv streamed
    refine ⟨⟨hc, hpasses⟩, rfl, rfl, ?_, ht, fun rule => ?_,
      [], (List.append_nil _).symm, (List.append_nil _).symm⟩
    · simp [PartCall.excludedIn]
    · show countOf t.excluded rule + 0 = countOf t.excluded rule + w.failures p _ rule
      rw [hnone]
  | store hplan hw =>
    obtain ⟨hfiles, order, hpasses⟩ := hc
    obtain rfl : _ = [] := hfiles
    exact ⟨⟨order, stores_of_passes hpasses hplan hw⟩, rfl, rfl, rfl, ht, fun _ => rfl, _, rfl, rfl⟩
  | finish =>
    refine ⟨hc, rfl, ?_, rfl, ht, fun _ => rfl, [], (List.append_nil _).symm, (List.append_nil _).symm⟩
    simp [PartCall.rowsIn]
  | fail => exact absurd rfl going

end Calls

/-! ## Runs -/

/-- While no call has failed, what is shared is the sum of the calls' shares. -/
structure PartsState.Adds (W : ParquetWriter) (w : Begun) (p : PartSettings) (s : PartsState) : Prop where
  fine : ∀ c ∈ s.calls, c.Fine W w p
  rows : s.tally.rows = (s.calls.map PartCall.rowsIn).sum
  rowsExcluded : s.tally.rowsExcluded = (s.calls.map PartCall.excludedIn).sum
  ordered : Ordered s.tally.excluded
  counts : ∀ rule, countOf s.tally.excluded rule = (s.calls.map (PartCall.failuresIn w p rule)).sum
  files : s.tally.files.Perm (s.calls.flatMap PartCall.files)

section Runs

variable {W : ParquetWriter} {w : Begun} {p : PartSettings} {s s' : PartsState}

/-- Before any step nothing is added. -/
theorem adds_begun (parts : List (List Row)) : (PartsState.begun parts).Adds W w p := by
  have hbegun : ∀ c ∈ (PartsState.begun parts).calls, c.phase = .begun ∧ c.files = [] := by
    intro c hc
    obtain ⟨rows, _, rfl⟩ := List.mem_map.1 hc
    exact ⟨rfl, rfl⟩
  have hzero : ∀ f : PartCall → Nat, (∀ c, c.phase = .begun → f c = 0) →
      0 = ((PartsState.begun parts).calls.map f).sum := by
    intro f hf
    refine (List.sum_eq_zero fun n hn => ?_).symm
    obtain ⟨c, hc, rfl⟩ := List.mem_map.1 hn
    exact hf c (hbegun c hc).1
  refine ⟨fun c hc => ?_, hzero _ fun c hc => ?_, hzero _ fun c hc => ?_, List.Pairwise.nil, fun rule =>
    (show countOf [] rule = 0 from rfl).trans (hzero _ fun c hc => ?_), ?_⟩
  · unfold PartCall.Fine
    rw [(hbegun c hc).1]
    exact (hbegun c hc).2
  · simp [PartCall.rowsIn, hc]
  · simp [PartCall.excludedIn, hc]
  · simp [PartCall.failuresIn, hc]
  · have hnil : (PartsState.begun parts).calls.flatMap PartCall.files = [] :=
      List.flatMap_eq_nil_iff.2 fun c hc => (hbegun c hc).2
    rw [hnil]
    exact List.Perm.nil

/-- A step that fails no call adds what its call does. -/
theorem adds_step (hex : w.onViolation = .exclude) (h : PartsStep W w p s () s')
    (hs : (∀ c ∈ s.calls, c.phase ≠ .failed) → s.Adds W w p) (hgo : ∀ c ∈ s'.calls, c.phase ≠ .failed) :
    s'.Adds W w p := by
  obtain ⟨hstep⟩ := h
  rename_i t t' before after c c'
  have hbefore : ∀ d ∈ before, d.phase ≠ .failed := fun d hd => hgo d (by simp [hd])
  have hafter : ∀ d ∈ after, d.phase ≠ .failed := fun d hd => hgo d (by simp [hd])
  have hc' : c'.phase ≠ .failed := hgo c' (by simp)
  have hc := hstep.going hc'
  have hadds := hs (by
    intro d hd
    simp only [List.mem_append, List.mem_cons] at hd
    rcases hd with hd | rfl | hd
    · exact hbefore d hd
    · exact hc
    · exact hafter d hd)
  obtain ⟨hfine, hm⟩ := hstep.moves hex hc' (hadds.fine c (by simp)) hadds.ordered
  obtain ⟨more, hfiles, hcfiles⟩ := hm.files
  refine ⟨fun d hd => ?_, ?_, ?_, hm.ordered, fun rule => ?_, ?_⟩
  · simp only [List.mem_append, List.mem_cons] at hd
    rcases hd with hd | rfl | hd
    · exact hadds.fine d (by simp [hd])
    · exact hfine
    · exact hadds.fine d (by simp [hd])
  · have hsum := hadds.rows
    have hmove := hm.rows
    simp only [List.map_append, List.map_cons, List.sum_append, List.sum_cons] at hsum ⊢
    omega
  · have hsum := hadds.rowsExcluded
    have hmove := hm.rowsExcluded
    simp only [List.map_append, List.map_cons, List.sum_append, List.sum_cons] at hsum ⊢
    omega
  · have hsum := hadds.counts rule
    have hmove := hm.counts rule
    simp only [List.map_append, List.map_cons, List.sum_append, List.sum_cons] at hsum ⊢
    omega
  · have hperm := hadds.files
    simp only [List.flatMap_append, List.flatMap_cons] at hperm ⊢
    rw [hfiles, hcfiles]
    refine (hperm.append_right more).trans ?_
    simp only [List.append_assoc]
    exact (List.perm_append_comm.append_left _).append_left _

/-- A run keeps the sums, unless a part fails. -/
theorem adds_run (hex : w.onViolation = .exclude) {parts : List (List Row)} {acts : List Unit}
    (hrun : Run (PartsStep W w p) (PartsState.begun parts) acts s) (hgo : ∀ c ∈ s.calls, c.phase ≠ .failed) :
    s.Adds W w p :=
  hrun.inv (I := fun s => (∀ c ∈ s.calls, c.phase ≠ .failed) → s.Adds W w p)
    (fun _ _ _ hs hstep hgo => adds_step hex hstep hs hgo) (fun _ => adds_begun parts) hgo

/-- The parts of a run are those given. -/
theorem given_run {parts : List (List Row)} {acts : List Unit}
    (hrun : Run (PartsStep W w p) (PartsState.begun parts) acts s) : s.calls.map PartCall.given = parts := by
  refine hrun.inv (I := fun s => s.calls.map PartCall.given = parts) (fun s a t hs hstep => ?_) ?_
  · obtain ⟨hcall⟩ := hstep
    rw [← hs, List.map_append, List.map_append, List.map_cons, List.map_cons, hcall.given_eq]
  · simp [PartsState.begun, Function.comp_def]

end Runs

/-! ## The report -/

/-- `finish_write` reports what the parts have counted. -/
theorem finishWrite_report {R : Runtime} {b : Begun} {commit : TableMetadata → Except PeqlError (Int × Option Int)}
    {n n' : Node} {report : WriteReport} {snapshot : Option SnapshotCommit}
    (h : b.finishWrite R commit n = .ok (report, snapshot) n') :
    report.rowsWritten = b.rows ∧ report.rowsExcluded = b.rowsExcluded ∧
      (b.onViolation = .exclude → report.violations = b.excluded) := by
  unfold Begun.finishWrite at h
  obtain ⟨bound, n₁, _, h⟩ := Effects.bind_eq_ok.1 h
  obtain ⟨writtenAt, n₂, _, h⟩ := Effects.bind_eq_ok.1 h
  obtain ⟨facts, n₃, _, h⟩ := Effects.bind_eq_ok.1 h
  obtain ⟨_, n₄, _, h⟩ := Effects.bind_eq_ok.1 h
  obtain ⟨others, n₅, _, h⟩ := Effects.bind_eq_ok.1 h
  -- However it is published, the report is made last, of what the parts have counted.
  have hmade : ∃ violations files verdict table,
      report = ⟨b.rows, b.onViolation, violations, b.rowsExcluded, files, verdict, table⟩ ∧
        (b.onViolation = .exclude → violations = b.excluded) := by
    cases hloc : b.location <;>
    · simp only [hloc] at h
      obtain ⟨_, n₆, _, h⟩ := Effects.bind_eq_ok.1 h
      obtain ⟨_, n₇, _, h⟩ := Effects.bind_eq_ok.1 h
      exact ⟨_, _, _, _, (congrArg Prod.fst (EStateM.Result.ok.inj h).1).symm, fun hex => by simp only [hex]⟩
  obtain ⟨_, _, _, _, rfl, hviolations⟩ := hmade
  exact ⟨rfl, rfl, hviolations⟩

section Report

variable {W : ParquetWriter} {w : Begun} {p : PartSettings} {s : PartsState}

/-- The rows stored are the files'. -/
theorem storedRows_files (files : List PartFile) :
    storedRows (files.map PartFile.file) = ((files.flatMap PartFile.rows : List Row) : Multiset Row) := by
  induction files with
  | nil => rfl
  | cons f files ih =>
    rw [List.map_cons, List.flatMap_cons, ← Multiset.coe_add, ← ih, ← f.holds]
    simp [storedRows, rowsOf]

/-- The files of a part hold the rows that fail no assert, each once. -/
theorem stores_rows {given order : List Row} {rows : Nat} {excluded : Option SetAside} {files : List PartFile}
    (hwrites : W.WritesOnce) (h : w.Stores p given W order rows excluded files) :
    (files.flatMap PartFile.rows).Perm ((given.filter (w.sound p given)).map (w.storedRow p given)) :=
  (hwrites _ _ _ h.files).trans ((h.perm.filter _).map _)

/-- A part that has returned has stored its rows. -/
theorem returned_stores {c : PartCall} (hc : c.Fine W w p) (hr : c.hasReturned) :
    ∃ order rows excluded, c.phase = .returned rows excluded ∧ w.Stores p c.given W order rows excluded c.files := by
  obtain ⟨rows, excluded, hphase⟩ := hr
  unfold PartCall.Fine at hc
  rw [hphase] at hc
  obtain ⟨order, hstores⟩ := hc
  exact ⟨order, rows, excluded, hphase, hstores⟩

/-- The rows a call has written and those it has set aside are those given it. -/
theorem rows_returned {c : PartCall} (hc : c.Fine W w p) (hr : c.hasReturned) :
    c.rowsIn + c.excludedIn = c.given.length := by
  obtain ⟨order, rows, excluded, hphase, hstores⟩ := returned_stores hc hr
  have hle : rows ≤ c.given.length := by
    rw [hstores.count, ← hstores.perm.length_eq]
    exact List.countP_le_length
  simp only [PartCall.rowsIn, PartCall.excludedIn, hphase]
  omega

/-- The parts' rows, kept and excluded, are all the rows given. -/
theorem rows_sum {calls : List PartCall} (h : ∀ c ∈ calls, c.rowsIn + c.excludedIn = c.given.length) :
    (calls.map PartCall.rowsIn).sum + (calls.map PartCall.excludedIn).sum =
      (calls.map PartCall.given).flatten.length := by
  induction calls with
  | nil => rfl
  | cons c calls ih =>
    have hc := h c List.mem_cons_self
    have hrest := ih fun d hd => h d (List.mem_cons_of_mem _ hd)
    simp only [List.map_cons, List.sum_cons, List.flatten_cons, List.length_append]
    omega

/-- A write that sets rows aside accounts for every row given it, once all its calls have returned. Each call has
written the rows of its part that fail no enforced assert and handed back the others, both in the order in which
DataFusion gave the part's rows; the files of the write hold the former, each once, and the report counts the one, the
other, and the rows that fail each rule. -/
theorem exclude_accounts (W : ParquetWriter) (hwrites : W.WritesOnce) (w : Begun) (hex : w.onViolation = .exclude)
    (p : PartSettings) (parts : List (List Row)) {acts : List Unit} {s : PartsState}
    (hrun : Run (PartsStep W w p) (PartsState.begun parts) acts s) (hreturned : ∀ c ∈ s.calls, c.hasReturned) :
    s.calls.map PartCall.given = parts ∧
      (∀ c ∈ s.calls, ∃ order rows excluded, c.phase = .returned rows excluded ∧
        w.Stores p c.given W order rows excluded c.files ∧ ∀ a ∈ excluded.getD [], a.2 ≠ []) ∧
      storedRows (s.tally.writing w).files =
        ((parts.flatMap fun given => (given.filter (w.sound p given)).map (w.storedRow p given) : List Row) :
          Multiset Row) ∧
      ∀ (R : Runtime) (commit : TableMetadata → Except PeqlError (Int × Option Int)) (n n' : Node)
        (report : WriteReport) (snapshot : Option SnapshotCommit),
        (s.tally.writing w).finishWrite R commit n = .ok (report, snapshot) n' →
          report.rowsWritten + report.rowsExcluded = parts.flatten.length ∧
            ∀ rule, countOf report.violations rule = (parts.map fun given => w.failures p given rule).sum := by
  have hgo : ∀ c ∈ s.calls, c.phase ≠ .failed := by
    intro c hc hfailed
    obtain ⟨rows, excluded, hphase⟩ := hreturned c hc
    rw [hphase] at hfailed
    cases hfailed
  have hadds := adds_run hex hrun hgo
  have hgiven := given_run hrun
  refine ⟨hgiven, fun c hc => ?_, ?_, fun R commit n n' report snapshot hfinish => ?_⟩
  · obtain ⟨order, rows, excluded, hphase, hstores⟩ := returned_stores (hadds.fine c hc) (hreturned c hc)
    refine ⟨order, rows, excluded, hphase, hstores, fun a ha hnil => ?_⟩
    rw [hstores.excluded] at ha
    obtain ⟨r, hr, rfl⟩ := List.mem_map.1 ha
    have hsound := (List.mem_filter.1 hr).2
    rw [failedRules_eq_nil.1 hnil] at hsound
    cases hsound
  · have hcalls : (s.calls.flatMap fun c => c.files.flatMap PartFile.rows).Perm
        (s.calls.flatMap fun c => (c.given.filter (w.sound p c.given)).map (w.storedRow p c.given)) := by
      refine List.Perm.flatMap_left _ fun c hc => ?_
      obtain ⟨order, rows, excluded, _, hstores⟩ := returned_stores (hadds.fine c hc) (hreturned c hc)
      exact stores_rows hwrites hstores
    rw [← hgiven, List.flatMap_map]
    show storedRows (s.tally.files.map PartFile.file) = _
    rw [storedRows_files, Multiset.coe_eq_coe]
    refine (hadds.files.flatMap_right _).trans ?_
    rw [List.flatMap_assoc]
    exact hcalls
  · obtain ⟨hrows, hexcluded, hviolations⟩ := finishWrite_report hfinish
    refine ⟨?_, fun rule => ?_⟩
    · rw [hrows, hexcluded, ← hgiven, ← rows_sum fun c hc => rows_returned (hadds.fine c hc) (hreturned c hc)]
      exact congrArg₂ (· + ·) hadds.rows hadds.rowsExcluded
    · rw [hviolations hex, ← hgiven, List.map_map]
      refine (hadds.counts rule).trans (congrArg List.sum (List.map_congr_left fun c hc => ?_))
      obtain ⟨rows, excluded, hphase⟩ := hreturned c hc
      simp only [PartCall.failuresIn, hphase, Function.comp_apply]

end Report

/-! ## A part that is written alone -/

section Alone

variable {W : ParquetWriter} {w : Begun} {p : PartSettings}

/-- A part's step is one of the write. -/
theorem PartsStep.alone {t t' : Tally} {c c' : PartCall} (h : PartStep W w p t c t' c') :
    PartsStep W w p ⟨t, [c]⟩ () ⟨t', [c']⟩ :=
  @PartsStep.call W w p t t' [] [] c c' h

/-- Where its rows can be divided and written, a call returns. -/
theorem run_alone {given : List Row} {batches : List RecordBatch} {s : Split} {plan : Plan} {files : List PartFile}
    (hdiv : w.divides = true) (unique : (writtenColumns w.reg.compilation).Nodup)
    (collected : (batches.flatMap RecordBatch.rows).Perm (w.computed p given))
    (hs : split (enforcedFlags w.reg.compilation.write.flags) w.reg.compilation.contract.rowSchema batches = .ok s)
    (hplan : w.storedPlan p = .ok plan)
    (hw : W (writeOptions w.reg.compilation.contract p.layout p.memory s.passingRows)
      (plan.run ⟨p.kernel, fun _ _ => s.passing.flatMap RecordBatch.rows⟩ []).val files) :
    Run (PartsStep W w p) (PartsState.begun [given]) [(), (), (), (), ()]
      ⟨⟨0 + s.passingRows, 0 + (given.length - s.passingRows),
        s.counts.foldl (fun counts c => addCount c.1 c.2 counts) [], [] ++ files⟩,
        [⟨given, .returned s.passingRows s.breaking, [] ++ files⟩]⟩ :=
  .cons (.alone (.divide hdiv unique collected hs)) <| .cons (.alone .count) <| .cons (.alone .exclude) <|
    .cons (.alone (.store hplan hw)) <| .cons (.alone .finish) (.nil _)

/-- Calls that follow one another count as `writePart` does. -/
theorem writePart_agrees {R : Runtime} {t : Tally} {given order : List Row} {s : Split} {files : List StoredFile}
    {b : Begun} (hex : w.onViolation = .exclude) (hkernel : p.kernel = R.kernel)
    (unique : (writtenColumns w.reg.compilation).Nodup) (hdiv : w.Divides p given order s) (ht : Ordered t.excluded)
    (h : (t.writing w).writePart R given files = .ok b) :
    b.rows = t.rows + s.passingRows ∧ b.rowsExcluded = t.rowsExcluded + (given.length - s.passingRows) ∧
      ∀ rule, countOf b.excluded rule =
        countOf (s.counts.foldl (fun counts c => addCount c.1 c.2 counts) t.excluded) rule := by
  obtain ⟨computed, hcomputed, h⟩ := bind_eq_ok.1 h
  obtain rfl := Except.ok.inj h
  obtain ⟨_, rfl⟩ := rowsOrError_ok hcomputed
  have hval : ((writePlan R.enrichment (t.writing w).reg.compilation).run ⟨R.kernel, fun _ _ => given⟩ []).val =
      w.computed p given := by
    unfold Begun.computed
    rw [hkernel]
    exact writePlan_val
  have hkept : ((t.writing w).keptRows (w.computed p given)).length = s.passingRows := by
    have hpass : passes w.reg.compilation.write.flags ∘ writtenRow ⟨p.kernel, fun _ _ => given⟩ w.reg.compilation =
        w.sound p given := funext fun r => passesAll_written unique r
    have hmode : (t.writing w).onViolation = .exclude := hex
    unfold Begun.keptRows Begun.computed
    rw [hmode, hdiv.passingRows, hdiv.perm.countP_eq, ← hpass, ← List.countP_eq_length_filter, List.countP_map]
    rfl
  have hlen : (w.computed p given).length = given.length := List.length_map _
  refine ⟨?_, ?_, fun rule => ?_⟩
  · simp only [hval, hkept]
    rfl
  · simp only [hval, hkept, hlen]
    rfl
  · have hmode : (t.writing w).onViolation = .exclude := hex
    simp only [hval, hmode]
    rw [countOf_merged ht hdiv.ordered, hdiv.counts]
    refine (countOf_addCounts ht _ rule).2.trans (congrArg _ ?_)
    rw [← breaks_written unique (List.Perm.refl given)]
    exact splitCounts_sum _ _ rule

end Alone

/-! ## Files that are sorted -/

/-- Cells in the order of a sort expression. -/
def SortExpr.compare (e : SortExpr) (a b : Value) : Ordering :=
  match a, b with
  | .null, .null => .eq
  | .null, _ => if e.nullsFirst then .lt else .gt
  | _, .null => if e.nullsFirst then .gt else .lt
  | a, b =>
    let o := (Value.order a b).getD .eq
    if e.asc then o else o.swap

/-- A row is not after another one. -/
def notAfter : List SortExpr → Row → Row → Bool
  | [], _, _ => true
  | e :: es, a, b =>
    match e.compare (a.get e.column) (b.get e.column) with
    | .lt => true
    | .gt => false
    | .eq => notAfter es a b

/-- The rows as a writer with these options orders them. -/
def sorted (options : WriteOptions) (rows : List Row) : List Row :=
  rows.insertionSort fun a b => notAfter options.sortBy a b = true

/-- A writer of one file, sorted as it is told. -/
def sortedWriter : ParquetWriter := fun options rows files => files.map PartFile.rows = [sorted options rows]

theorem sortedWriter_once : sortedWriter.WritesOnce := by
  intro options rows files h
  have hrows : files.flatMap PartFile.rows = (files.map PartFile.rows).flatten := rfl
  rw [hrows, h, List.flatten_singleton]
  exact List.perm_insertionSort _ rows

/-- A file of these rows. -/
def partFile (path : String) (rows : List Row) : PartFile where
  file :=
    { entry := ⟨path, rows.length, 0, "h1", fun _ => none, fun _ => none, ""⟩
      rows := rows
      typed := fun _ _ => trivial
      entry_rows := rfl
      entry_nulls := nofun
      under := some "h1" }
  rows := rows
  holds := rfl

/-- A contract of orders, whose ids are positive. -/
def positiveIds : Compilation where
  contract :=
    { name := "orders", version := 1, owner := none, source := .parquet "data", contractHash := "h1",
      compilationHash := "c1", functions := [], decisions := [], rowSchema := [⟨"id", "long", true⟩], enrich := [],
      admits := [], admitsStored := [], projection := [], projectionStored := [],
      flags := [⟨"positive", "_positive", .drop, .op (.binary .gt) [.column "id", .literal (.int 0)]⟩], derived := [],
      guarantees := [], exposedSchema := [] }
  write := ⟨[⟨"positive", "_positive", .drop, .op (.binary .gt) [.column "id", .literal (.int 0)]⟩], []⟩
  validation := ⟨["positive"], [], []⟩

/-- A write of orders to a directory, without the rows that break a rule. -/
def excludingOrders : Begun :=
  ⟨⟨positiveIds⟩, .localDir "data", .append, .exclude, 0, 0, [], [], [], none⟩

/-- Orders, in the order given or clustered by their ids. -/
def ordersSettings (clusterBy : List String) : PartSettings := ⟨divisionKernel, ⟨[], clusterBy, []⟩, none, none⟩

/-- Two orders as DataFusion hands them back, flagged. -/
def flaggedOrders (a b : Value) (okA okB : Option Bool) : RecordBatch where
  columns := [("id", .values [a, b]), ("_positive", .boolean [okA, okB])]
  numRows := 2
  aligned := by
    intro c hc
    simp only [List.mem_cons, List.not_mem_nil, or_false] at hc
    rcases hc with rfl | rfl <;> rfl

/-- An order with an id and one without: the first is written, the second is not. -/
theorem one_order_set_aside :
    ∃ s, Run (PartsStep sortedWriter excludingOrders (ordersSettings []))
        (PartsState.begun [[[("id", .int 1)], [("id", .null)]]]) [(), (), (), (), ()] s ∧
      storedRows (s.tally.writing excludingOrders).files =
        (([[("id", .int 1), ("_positive", .bool true)]] : List Row) : Multiset Row) := by
  have hrun := @run_alone sortedWriter excludingOrders (ordersSettings []) [[("id", .int 1)], [("id", .null)]]
    [flaggedOrders (.int 1) .null (some true) none] _ _ [partFile "a" [[("id", .int 1), ("_positive", .bool true)]]]
    (by decide) (by decide) (List.Perm.refl _) rfl rfl rfl
  have haccounts := exclude_accounts sortedWriter sortedWriter_once excludingOrders rfl (ordersSettings []) _ hrun (by
    intro c hc
    obtain rfl := List.mem_singleton.1 hc
    exact ⟨_, _, rfl⟩)
  exact ⟨_, hrun, haccounts.2.2.1⟩

/-- Two orders that pass, clustered by their ids, are committed in the other order. -/
theorem clustered_reordered :
    ∃ s, Run (PartsStep sortedWriter excludingOrders (ordersSettings ["id"]))
        (PartsState.begun [[[("id", .int 1)], [("id", .int 2)]]]) [(), (), (), (), ()] s ∧
      (∀ c ∈ s.calls, c.hasReturned) ∧
      s.tally.files.flatMap PartFile.rows =
        [[("id", .int 2), ("_positive", .bool true)], [("id", .int 1), ("_positive", .bool true)]] ∧
      s.tally.files.flatMap PartFile.rows ≠ [[[("id", .int 1)], [("id", .int 2)]]].flatMap fun given =>
        (given.filter (excludingOrders.sound (ordersSettings ["id"]) given)).map
          (excludingOrders.storedRow (ordersSettings ["id"]) given) := by
  have hrun := @run_alone sortedWriter excludingOrders (ordersSettings ["id"]) [[("id", .int 1)], [("id", .int 2)]]
    [flaggedOrders (.int 1) (.int 2) (some true) (some true)] _ _
    [partFile "a" [[("id", .int 2), ("_positive", .bool true)], [("id", .int 1), ("_positive", .bool true)]]]
    (by decide) (by decide) (List.Perm.refl _) rfl rfl rfl
  refine ⟨_, hrun, ?_, rfl, by decide⟩
  intro c hc
  obtain rfl := List.mem_singleton.1 hc
  exact ⟨_, _, rfl⟩

end Peql
