import Peql.Engine.Write
import Peql.Iceberg.Schema

/-!
# Required columns of a table

Three places look at what a table requires of a write: `schema_change` compares types and adds columns that may hold
nulls, `begin_write` refuses a contract that does not write a required column, and `project` fills the columns a part
lacks with nulls, where the table allows it. None looks at whether the contract's own column may hold a null: a row that
is null there is written into the required column all the same (`required_filled_iff`).
-/

namespace Peql

/-! ## A write of a table -/

/-- A table column a write must give a value, and no column of the contract does. -/
def unwritten (want schema : List ColumnDef) : Option ColumnDef :=
  schema.find? fun f => !f.nullable && (fieldNamed want f.name).isNone

/-- `begin_write`'s check, of the schema as it is once the contract's columns are there. -/
def checkRequired (table contract : String) (kind : WriteKind) (want schema : List ColumnDef) :
    Except PeqlError (List ColumnDef) :=
  match kind with
  | .rewrite _ => .ok schema
  | .append | .overwrite =>
    match unwritten want schema with
    | some f => .error (.invalid (s!"column `{f.name}` of {table} is required, and `{contract}` does not write it: " ++
        "a write may not leave a required column without a value"))
    | none => .ok schema

/-- `begin_write` on a table with this schema that no other writer changes meanwhile: the schema the files are to
have. -/
def beginSchema (S : Schemas) (table contract : String) (kind : WriteKind) (want schema : List ColumnDef) :
    Except PeqlError (List ColumnDef) :=
  match S.schemaChange table schema want false with
  | .error e => .error e
  | .ok none => checkRequired table contract kind want schema
  | .ok (some adds) => checkRequired table contract kind want (schema ++ adds)

/-- A column of a data file: the plan's, cast, or null. -/
def projectedColumn (columns : List String) (f : ColumnDef) : Expr :=
  if f.name ∈ columns then .cast f.ty (.column f.name) else .literal .null

/-- `IcebergWrite::project`, of a plan with these columns. -/
def project (table : String) (schema : List ColumnDef) (columns : List String) (plan : Plan) : Except PeqlError Plan :=
  match schema.find? fun f => f.name ∉ columns && !f.nullable with
  | some f =>
    .error (.invalid s!"column `{f.name}` of {table} is required, and the rows written have no value for it")
  | none => .ok (.projection (schema.map ColumnDef.name) (schema.map (projectedColumn columns)) plan)

/-- The rows of the files `write_part` writes for a table, of the rows given. -/
def tableRows (E : Enrichment) (k : Kernel) (table : String) (schema : List ColumnDef) (onViolation : OnWriteViolation)
    (c : Compilation) (rows : List Row) : Except PeqlError (List Row) := do
  let computed ← rowsOrError ((writePlan E c).run ⟨k, fun _ _ => rows⟩ [])
  let kept := if onViolation = .exclude then computed.filter (passes c.write.flags) else computed
  let plan ← project table schema (writtenColumns c) (.scan "kept" "kept")
  rowsOrError (plan.run ⟨k, fun _ _ => kept⟩ [])

/-- A row with a value in every column its schema does not let be null. -/
def Conforms (rowSchema : List ColumnDef) (r : Row) : Prop :=
  ∀ d ∈ rowSchema, d.nullable = false → r.get d.name ≠ .null

/-- A cast gives null for a null alone: one that cannot give a value is an error. -/
def Kernel.CastKeepsNull (k : Kernel) : Prop := ∀ ty v w, k.cast ty v = .ok w → (w = .null ↔ v = .null)

/-! ## What a row is written as -/

/-- A row's values for some columns. -/
def valuesOf (env : Env) (names : List String) (es : List Expr) (r : Row) : Row := names.zip (evals env es [] r).val

/-- A row with the columns enrichment adds. -/
def enrichedRow (env : Env) (cc : CompiledContract) (r : Row) : Row :=
  valuesOf env (cc.rowSchema.map ColumnDef.name ++ cc.enrich.map DerivedColumn.column)
    (cc.rowSchema.map (fun c => Expr.column c.name) ++ cc.enrich.map DerivedColumn.expr) r

/-- A row with every column a write computes. -/
def writtenRow (env : Env) (c : Compilation) (r : Row) : Row :=
  valuesOf env (writtenColumns c)
    ((scanColumns c.contract).map Expr.column ++ c.write.flags.map Flag.expr ++ c.write.derived.map DerivedColumn.expr)
    (enrichedRow env c.contract r)

/-- No row is null in a column the schema requires. -/
def Filled (schema : List ColumnDef) (out : List Row) : Prop :=
  ∀ r ∈ out, ∀ f ∈ schema, f.nullable = false → r.get f.name ≠ .null

/-- No given row that is written is null in a column the table requires: not in a column of the contract's rows that may
be null, and not in one the write computes. -/
def NoNullGiven (env : Env) (schema : List ColumnDef) (onViolation : OnWriteViolation) (c : Compilation)
    (rows : List Row) : Prop :=
  ∀ r ∈ rows, (onViolation = .exclude → passes c.write.flags (writtenRow env c r) = true) →
    ∀ f ∈ schema, f.nullable = false →
      (∀ d ∈ c.contract.rowSchema, d.name = f.name → d.nullable = true → r.get f.name ≠ .null) ∧
        (f.name ∉ c.contract.rowSchema.map ColumnDef.name → (writtenRow env c r).get f.name ≠ .null)

/-! ## Rows of a projection -/

section Rows

variable {env : Env} {r : Row}

/-- A row's value of a column is what the first expression of that name computes. -/
theorem get_valuesOf (env : Env) (r : Row) (cols : List (String × Expr)) (n : String) :
    (valuesOf env (cols.map Prod.fst) (cols.map Prod.snd) r).get n =
      match cols.lookup n with
      | some e => (e.eval env [] r).val
      | none => .null := by
  unfold valuesOf Row.get
  rw [evals_eq_traverse, Reported.traverse_val]
  induction cols with
  | nil => rfl
  | cons col cols ih =>
    obtain ⟨m, e⟩ := col
    simp only [List.map_cons, List.zip_cons_cons, List.lookup_cons]
    by_cases hm : n == m
    · simp [hm]
    · simp only [hm]
      exact ih

/-- The first of some named columns. -/
theorem lookup_columns {names : List String} {more : List (String × Expr)} {n : String} (h : n ∈ names) :
    ((names.map fun m => (m, Expr.column m)) ++ more).lookup n = some (.column n) := by
  induction names with
  | nil => cases h
  | cons m names ih =>
    rw [List.map_cons, List.cons_append, List.lookup_cons]
    by_cases hm : n = m
    · simp [hm]
    · simp only [beq_eq_false_iff_ne.2 hm]
      exact ih ((List.mem_cons.1 h).resolve_left hm)

theorem valuesOf_columns (env : Env) (r : Row) {names : List String} (more : List (String × Expr)) {n : String}
    (h : n ∈ names) :
    (valuesOf env (names ++ more.map Prod.fst) (names.map Expr.column ++ more.map Prod.snd) r).get n = r.get n := by
  have hget := get_valuesOf env r ((names.map fun m => (m, Expr.column m)) ++ more) n
  rw [lookup_columns h] at hget
  simpa [List.map_append, List.map_map, Function.comp_def, Expr.eval] using hget

theorem enrichedRow_get {cc : CompiledContract} {n : String} (h : n ∈ cc.rowSchema.map ColumnDef.name) :
    (enrichedRow env cc r).get n = r.get n := by
  have hcols := valuesOf_columns env r (cc.enrich.map fun d => (d.column, d.expr)) h
  simpa [enrichedRow, List.map_map, Function.comp_def] using hcols

/-- A column of the contract's rows is written as it is given. -/
theorem writtenRow_get {c : Compilation} {n : String} (h : n ∈ c.contract.rowSchema.map ColumnDef.name) :
    (writtenRow env c r).get n = r.get n := by
  have hscan : n ∈ scanColumns c.contract := List.mem_append_left _ h
  have hcols := valuesOf_columns env (enrichedRow env c.contract r)
    ((c.write.flags.map fun f => (f.column, f.expr)) ++ c.write.derived.map fun d => (d.column, d.expr)) hscan
  rw [enrichedRow_get h] at hcols
  simpa [writtenRow, writtenColumns, List.map_map, Function.comp_def, List.append_assoc] using hcols

end Rows

section Written

variable {E : Enrichment} {k : Kernel} {table : String} {schema : List ColumnDef} {c : Compilation} {rows : List Row}

theorem writePlan_val : ((writePlan E c).run ⟨k, fun _ _ => rows⟩ []).val =
    rows.map (writtenRow ⟨k, fun _ _ => rows⟩ c) := by
  simp [writePlan, E.projects, Plan.run, writtenRow, enrichedRow, valuesOf, List.map_map, Function.comp_def]

theorem rowsOrError_ok {x : Reported String (List Row)} {out : List Row} (h : rowsOrError x = .ok out) :
    x.errs = [] ∧ x.val = out := by
  unfold rowsOrError at h
  split at h
  · next herrs => exact ⟨herrs, Except.ok.inj h⟩
  · cases h

/-- Where nothing required is lacking. -/
theorem project_ok {columns : List String} {plan out : Plan} (h : project table schema columns plan = .ok out) :
    (∀ f ∈ schema, f.nullable = false → f.name ∈ columns) ∧
      out = .projection (schema.map ColumnDef.name) (schema.map (projectedColumn columns)) plan := by
  unfold project at h
  split at h
  · cases h
  · next hnone =>
    refine ⟨fun f hf hreq => ?_, (Except.ok.inj h).symm⟩
    have hall := List.find?_eq_none.1 hnone f hf
    simpa [hreq] using hall

/-- A row of a data file is null in a required column when the plan's row is. -/
theorem projected_null_iff (hcast : k.CastKeepsNull) {env : Env} (henv : env.kernel = k) {columns : List String}
    {r : Row} (herrs : (evals env (schema.map (projectedColumn columns)) [] r).errs = []) {f : ColumnDef}
    (hf : f ∈ schema) (hcol : f.name ∈ columns) :
    (valuesOf env (schema.map ColumnDef.name) (schema.map (projectedColumn columns)) r).get f.name = .null ↔
      r.get f.name = .null := by
  have hget := get_valuesOf env r (schema.map fun g => (g.name, projectedColumn columns g)) f.name
  simp only [List.map_map, Function.comp_def] at hget
  have hfind : ∃ g ∈ schema, g.name = f.name ∧
      (schema.map fun g => (g.name, projectedColumn columns g)).lookup f.name = some (projectedColumn columns g) := by
    clear hget herrs
    induction schema with
    | nil => cases hf
    | cons g schema ih =>
      rw [List.map_cons, List.lookup_cons]
      by_cases hg : f.name = g.name
      · exact ⟨g, List.mem_cons_self, hg.symm, by simp [hg]⟩
      · have hne : f ≠ g := fun heq => hg (heq ▸ rfl)
        obtain ⟨g', hg', hname, hl⟩ := ih ((List.mem_cons.1 hf).resolve_left hne)
        exact ⟨g', List.mem_cons_of_mem _ hg', hname, by simpa only [beq_eq_false_iff_ne.2 hg] using hl⟩
  obtain ⟨g, hg, hname, hlookup⟩ := hfind
  rw [hlookup] at hget
  change (valuesOf env (schema.map ColumnDef.name) (schema.map (projectedColumn columns)) r).get f.name = _ at hget
  rw [hget]
  have hexpr : projectedColumn columns g = .cast g.ty (.column f.name) := by
    unfold projectedColumn
    rw [hname, if_pos hcol]
  have hclean : ((projectedColumn columns g).eval env [] r).errs = [] := by
    rw [evals_eq_traverse, Reported.traverse_errs, List.flatMap_eq_nil_iff] at herrs
    exact herrs _ (List.mem_map_of_mem hg)
  rw [hexpr] at hclean ⊢
  simp only [Expr.eval, Reported.bind_val, Reported.bind_errs, Reported.pure_val, Reported.pure_errs, List.nil_append,
    Expr.isLiteral, Bool.false_eq_true, if_false] at hclean ⊢
  cases hv : env.kernel.cast g.ty (r.get f.name) with
  | error e =>
    rw [hv] at hclean
    cases hclean
  | ok w =>
    rw [henv] at hv
    exact hcast _ _ _ hv

/-- The computed rows a part goes on to write. -/
def keptOf (onViolation : OnWriteViolation) (c : Compilation) (computed : List Row) : List Row :=
  if onViolation = .exclude then computed.filter (passes c.write.flags) else computed

/-- The rows of a table's files are the kept ones of those given, each as it is written, and projected. -/
theorem tableRows_ok {onViolation : OnWriteViolation} {out : List Row}
    (h : tableRows E k table schema onViolation c rows = .ok out) :
    ∃ kept, kept = keptOf onViolation c (rows.map (writtenRow ⟨k, fun _ _ => rows⟩ c)) ∧
      (∀ f ∈ schema, f.nullable = false → f.name ∈ writtenColumns c) ∧
      (∀ r ∈ kept, (evals ⟨k, fun _ _ => kept⟩ (schema.map (projectedColumn (writtenColumns c))) [] r).errs = []) ∧
      out = kept.map
        (valuesOf ⟨k, fun _ _ => kept⟩ (schema.map ColumnDef.name)
          (schema.map (projectedColumn (writtenColumns c)))) := by
  obtain ⟨computed, hcomputed, h⟩ := bind_eq_ok.1 h
  obtain ⟨plan, hplan, h⟩ := bind_eq_ok.1 h
  obtain ⟨_, hval⟩ := rowsOrError_ok hcomputed
  obtain ⟨hcols, rfl⟩ := project_ok hplan
  obtain ⟨herrs, rfl⟩ := rowsOrError_ok h
  rw [writePlan_val] at hval
  refine ⟨keptOf onViolation c computed, by rw [hval], hcols, ?_, ?_⟩
  · simp only [Plan.run, Reported.bind_errs, Reported.pure_errs, Reported.pure_val, List.nil_append,
      Reported.traverse_errs, List.flatMap_eq_nil_iff, Reported.map_errs] at herrs
    exact herrs
  · simp only [Plan.run, Reported.bind_val, Reported.pure_val, Reported.traverse_val, Reported.map_val]
    rfl

theorem mem_keptOf {onViolation : OnWriteViolation} {computed : List Row} {r : Row} :
    r ∈ keptOf onViolation c computed ↔ r ∈ computed ∧ (onViolation = .exclude → passes c.write.flags r = true) := by
  unfold keptOf
  split
  · next hmode => simp [hmode]
  · next hmode => simp [hmode]

/-- Of a conforming row only the columns the contract lets be null, and those computed, can be null where they are
written. -/
theorem writtenRow_filled_iff {env : Env} {r : Row} (hr : Conforms c.contract.rowSchema r) (n : String) :
    (writtenRow env c r).get n ≠ .null ↔
      (∀ d ∈ c.contract.rowSchema, d.name = n → d.nullable = true → r.get n ≠ .null) ∧
        (n ∉ c.contract.rowSchema.map ColumnDef.name → (writtenRow env c r).get n ≠ .null) := by
  by_cases hn : n ∈ c.contract.rowSchema.map ColumnDef.name
  · rw [writtenRow_get hn]
    refine ⟨fun h => ⟨fun _ _ _ _ => h, fun _ => h⟩, fun h => ?_⟩
    obtain ⟨d, hd, rfl⟩ := List.mem_map.1 hn
    cases hnull : d.nullable with
    | true => exact h.1 d hd rfl hnull
    | false => exact hr d hd hnull
  · refine ⟨fun h => ⟨fun d hd heq _ => ?_, fun _ => h⟩, fun h => h.2 hn⟩
    exact absurd (heq ▸ List.mem_map_of_mem hd) hn

end Written

/-! ## A whole write -/

/-- A write begun on a table with this schema that takes these rows: the schema its files have, and their rows. -/
def writeTable (S : Schemas) (E : Enrichment) (k : Kernel) (scanSchema : CompiledContract → List ColumnDef)
    (table : String) (kind : WriteKind) (onViolation : OnWriteViolation) (c : Compilation) (schema : List ColumnDef)
    (rows : List Row) : Except PeqlError (List ColumnDef × List Row) := do
  let evolved ← beginSchema S table c.contract.name kind (tableSchema scanSchema c.contract) schema
  let out ← tableRows E k table evolved onViolation c rows
  .ok (evolved, out)

section Whole

variable {S : Schemas} {table contract : String} {kind : WriteKind} {want schema evolved : List ColumnDef}

theorem checkRequired_ok (h : checkRequired table contract kind want schema = .ok evolved) :
    evolved = schema ∧ ((∀ of, kind ≠ .rewrite of) → unwritten want schema = none) := by
  cases kind with
  | rewrite of => exact ⟨(Except.ok.inj h).symm, fun hk => absurd rfl (hk of)⟩
  | append | overwrite =>
    simp only [checkRequired] at h
    split at h
    · cases h
    · next hnone => exact ⟨(Except.ok.inj h).symm, fun _ => hnone⟩

/-- Beginning a write makes no column required. -/
theorem required_of_begun (h : beginSchema S table contract kind want schema = .ok evolved) {f : ColumnDef}
    (hf : f ∈ evolved) (hreq : f.nullable = false) : f ∈ schema := by
  unfold beginSchema at h
  split at h
  · cases h
  · rw [(checkRequired_ok h).1] at hf
    exact hf
  · next adds hadds =>
    rw [(checkRequired_ok h).1] at hf
    rcases List.mem_append.1 hf with hf | hf
    · exact hf
    · have hnull := (Schemas.mem_missing (Schemas.schemaChange_some hadds) hf).2.1
      rw [hreq] at hnull
      cases hnull

/-- And takes no column away. -/
theorem mem_begun (h : beginSchema S table contract kind want schema = .ok evolved) {f : ColumnDef} (hf : f ∈ schema) :
    f ∈ evolved := by
  unfold beginSchema at h
  split at h
  · cases h
  · rwa [(checkRequired_ok h).1]
  · rw [(checkRequired_ok h).1]
    exact List.mem_append_left _ hf

/-- No row of a write's files is null in a column the table requires exactly when no given row that is written is null
there: in a column the contract lets be null, or in one the write computes. -/
theorem required_filled_iff (S : Schemas) (E : Enrichment) (k : Kernel) (hcast : k.CastKeepsNull)
    (scanSchema : CompiledContract → List ColumnDef) (table : String) (kind : WriteKind)
    (onViolation : OnWriteViolation)
    (c : Compilation) (schema : List ColumnDef) (rows : List Row) (hrows : ∀ r ∈ rows, Conforms c.contract.rowSchema r)
    {evolved : List ColumnDef} {out : List Row}
    (h : writeTable S E k scanSchema table kind onViolation c schema rows = .ok (evolved, out)) :
    Filled evolved out ↔ NoNullGiven ⟨k, fun _ _ => rows⟩ schema onViolation c rows := by
  obtain ⟨evolved, hbegin, h⟩ := bind_eq_ok.1 h
  obtain ⟨out, hwrite, h⟩ := bind_eq_ok.1 h
  obtain ⟨rfl, rfl⟩ := Prod.mk.inj (Except.ok.inj h)
  obtain ⟨kept, hkept, hcols, herrs, rfl⟩ := tableRows_ok hwrite
  have hnull : ∀ r ∈ kept, ∀ f ∈ evolved, f.nullable = false →
      ((valuesOf ⟨k, fun _ _ => kept⟩ (evolved.map ColumnDef.name)
        (evolved.map (projectedColumn (writtenColumns c))) r).get f.name = .null ↔ r.get f.name = .null) :=
    fun r hr f hf hreq => projected_null_iff hcast rfl (herrs r hr) hf (hcols f hf hreq)
  constructor
  · intro hfilled r hr hkeep f hf hreq
    have hevolved := mem_begun hbegin hf
    have hmem : writtenRow ⟨k, fun _ _ => rows⟩ c r ∈ kept := by
      rw [hkept, mem_keptOf]
      exact ⟨List.mem_map_of_mem hr, hkeep⟩
    have hcell := hfilled _ (List.mem_map_of_mem hmem) f hevolved hreq
    rw [ne_eq, hnull _ hmem f hevolved hreq] at hcell
    exact (writtenRow_filled_iff (hrows r hr) f.name).1 hcell
  · intro hgiven row hrow f hf hreq
    obtain ⟨r', hmem, rfl⟩ := List.mem_map.1 hrow
    rw [ne_eq, hnull r' hmem f hf hreq]
    rw [hkept, mem_keptOf] at hmem
    obtain ⟨hcomputed, hkeep⟩ := hmem
    obtain ⟨r, hr, rfl⟩ := List.mem_map.1 hcomputed
    have hcell := hgiven r hr hkeep f (required_of_begun hbegin hf hreq) hreq
    exact (writtenRow_filled_iff (hrows r hr) f.name).2 hcell

end Whole

/-- A contract of one column, which may hold nulls. -/
def nullableAmounts : Compilation where
  contract :=
    { name := "orders", version := 1, owner := none, source := .iceberg "sales.orders", contractHash := "h1",
      compilationHash := "c1", functions := [], decisions := [], rowSchema := [⟨"amount", "long", true⟩], enrich := [],
      admits := [], admitsStored := [], projection := [], projectionStored := [], flags := [], derived := [],
      guarantees := [], exposedSchema := [] }
  write := ⟨[], []⟩
  validation := ⟨[], [], []⟩

/-- A table that requires the column. -/
def requiredAmount : List ColumnDef := [⟨"amount", "long", false⟩]

theorem divisionKernel_castKeepsNull : divisionKernel.CastKeepsNull := by
  intro ty v w h
  rw [Except.ok.inj h]

/-- A row with an amount is written into it. -/
theorem amount_filled :
    Filled requiredAmount [[("amount", .int 5)]] ↔
      NoNullGiven ⟨divisionKernel, fun _ _ => [[("amount", .int 5)]]⟩ requiredAmount .refuse nullableAmounts
        [[("amount", .int 5)]] :=
  required_filled_iff plainSchemas projecting divisionKernel divisionKernel_castKeepsNull CompiledContract.rowSchema
    "sales.orders" .append .refuse nullableAmounts requiredAmount [[("amount", .int 5)]]
    (by simp [Conforms, nullableAmounts]) rfl

/-- A row the contract accepts without an amount is written into the column the table requires. -/
theorem null_amount_written :
    Conforms nullableAmounts.contract.rowSchema [("amount", .null)] ∧
      writeTable plainSchemas projecting divisionKernel CompiledContract.rowSchema "sales.orders" .append .refuse
          nullableAmounts requiredAmount [[("amount", .null)]] = .ok (requiredAmount, [[("amount", .null)]]) ∧
        ¬ Filled requiredAmount [[("amount", .null)]] := by
  refine ⟨by simp [Conforms, nullableAmounts], rfl, fun h => ?_⟩
  exact h _ List.mem_cons_self _ List.mem_cons_self rfl rfl

end Peql
