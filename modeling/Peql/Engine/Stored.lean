import Peql.Engine.Knows
import Peql.Engine.Parts
import Peql.Gate.Stored

/-!
# A view over stored columns

A write computes, for each row, the columns enrichment adds, the flag of each assert and each derived column, and stores
them with the row. `contract_view` over the stored columns filters by the stored flags and exposes the stored forms of
the contract's expressions; over the live rules it enriches each row and computes everything again. On rows whose
stored columns are what the contract's expressions compute of them (`Row.Holds`) the two views release the same rows,
and raise the same errors (`contractView_stored`). A row that a write computed under a compilation is such a row
(`holds_writtenRow`), and so is a row with the same cells (`Row.Holds.of_get`).
-/

namespace Peql

open Reported

/-! ## Compiled contracts -/

namespace Compilation

variable (c : Compilation)

/-- A column in the stored form of an expression stands for this: a derived column for the expression it is computed
by, any other for itself. -/
def live (column : String) : Expr :=
  ((c.write.derived.map fun d => (d.column, d.expr)).lookup column).getD (.column column)

/-- What peQL relies on of parcel: a write computes each column once and of one row, the columns of enrichment of the
contract's own columns, and the flags and derived columns of those and of enrichment's; it computes every column that a
view reads stored; and the stored form of an expression has, for what a derived column is computed by, the column. -/
structure Stores : Prop where
  columns : (writtenColumns c).Nodup
  enriched : ∀ d ∈ c.contract.enrich, d.expr.flat = true ∧
    ∀ x ∈ d.expr.columns, x ∈ c.contract.rowSchema.map ColumnDef.name
  flagged : ∀ f ∈ c.write.flags, f.expr.flat = true ∧ ∀ x ∈ f.expr.columns, x ∈ scanColumns c.contract
  derived : ∀ d ∈ c.write.derived, (d.expr.flat = true ∧ d.expr.isConstant = false) ∧
    ∀ x ∈ d.expr.columns, x ∈ scanColumns c.contract
  flags : ∀ f ∈ c.contract.flags, f ∈ c.write.flags
  derivedColumns : ∀ d ∈ c.contract.derived, d.name ∈ c.write.derived.map DerivedColumn.column
  admits : c.contract.admits = c.contract.admitsStored.map fun a => (a.1, a.2.subst c.live)
  projection : c.contract.projection = c.contract.projectionStored.map fun p => (p.1, p.2.subst c.live)
  stored : ∀ e ∈ c.contract.admitsStored ++ c.contract.projectionStored, e.2.flat = true ∧
    ∀ x ∈ e.2.columns, x ∈ scanColumns c.contract ++ c.contract.derived.map ColumnDef.name

end Compilation

/-- The kernel, over no data. -/
def Kernel.alone (k : Kernel) : Env := ⟨k, fun _ _ => []⟩

/-- The columns stored with a row are what a compilation's expressions compute of it. -/
structure Row.Holds (k : Kernel) (c : Compilation) (r : Row) : Prop where
  enriched : ∀ d ∈ c.contract.enrich, d.expr.eval k.alone [] r = .pure (r.get d.column)
  flags : ∀ f ∈ c.write.flags, f.expr.eval k.alone [] r = .pure (r.get f.column)
  derived : ∀ d ∈ c.write.derived, d.expr.eval k.alone [] r = .pure (r.get d.column)

variable {k : Kernel} {c : Compilation} {r r' : Row} {env : Env}

/-! ## Columns of a compilation -/

theorem mem_writtenColumns_scan {x : String} (h : x ∈ scanColumns c.contract) : x ∈ writtenColumns c :=
  List.mem_append_left _ (List.mem_append_left _ h)

theorem mem_writtenColumns_flag {f : Flag} (h : f ∈ c.write.flags) : f.column ∈ writtenColumns c :=
  List.mem_append_left _ (List.mem_append_right _ (List.mem_map_of_mem h))

theorem mem_writtenColumns_derived {d : DerivedColumn} (h : d ∈ c.write.derived) : d.column ∈ writtenColumns c :=
  List.mem_append_right _ (List.mem_map_of_mem h)

theorem mem_scanColumns_enriched {d : DerivedColumn} (h : d ∈ c.contract.enrich) : d.column ∈ scanColumns c.contract :=
  List.mem_append_right _ (List.mem_map_of_mem h)

/-- A row read with some columns has their cells. -/
theorem get_rowOf {columns : List String} {x : String} (h : x ∈ columns) : (rowOf columns r).get x = r.get x := by
  unfold rowOf Row.get
  induction columns with
  | nil => cases h
  | cons y ys ih =>
    rw [List.map_cons, List.lookup_cons]
    by_cases hxy : x = y
    · simp [hxy]
    · simp only [beq_eq_false_iff_ne.2 hxy]
      exact ih ((List.mem_cons.1 h).resolve_left hxy)

namespace Row.Holds

/-- What holds of a row is about the cells of the columns written. -/
theorem of_get (hc : c.Stores) (h : r.Holds k c) (hget : ∀ x ∈ writtenColumns c, r'.get x = r.get x) :
    r'.Holds k c where
  enriched d hd := by
    obtain ⟨hflat, hreads⟩ := hc.enriched d hd
    rw [eval_of_columns rfl d.expr hflat fun x hx => hget x (mem_writtenColumns_scan
        (List.mem_append_left _ (hreads x hx))), h.enriched d hd,
      hget d.column (mem_writtenColumns_scan (mem_scanColumns_enriched hd))]
  flags f hf := by
    obtain ⟨hflat, hreads⟩ := hc.flagged f hf
    rw [eval_of_columns rfl f.expr hflat fun x hx => hget x (mem_writtenColumns_scan (hreads x hx)), h.flags f hf,
      hget f.column (mem_writtenColumns_flag hf)]
  derived d hd := by
    obtain ⟨⟨hflat, -⟩, hreads⟩ := hc.derived d hd
    rw [eval_of_columns rfl d.expr hflat fun x hx => hget x (mem_writtenColumns_scan (hreads x hx)), h.derived d hd,
      hget d.column (mem_writtenColumns_derived hd)]

/-- What holds of the columns written holds of a row that has them. -/
theorem of_rowOf (hc : c.Stores) (h : (rowOf (writtenColumns c) r).Holds k c) : r.Holds k c :=
  h.of_get hc fun _ hx => (get_rowOf hx).symm

/-- And the other way. -/
theorem rowOf (hc : c.Stores) (h : r.Holds k c) : (rowOf (writtenColumns c) r).Holds k c :=
  h.of_get hc fun _ hx => get_rowOf hx

end Row.Holds

/-! ## A row a write computes -/

/-- Where nothing is raised, each expression raises nothing. -/
theorem clean_of_evals {outer : Row} {es : List Expr} (h : (evals env es outer r).Clean) :
    ∀ e ∈ es, (e.eval env outer r).Clean := by
  rw [evals_eq_traverse] at h
  exact List.flatMap_eq_nil_iff.1 h

/-- A computation that raises nothing is its value. -/
theorem eq_pure_of_clean {α : Type} {x : Reported String α} (h : x.Clean) : x = .pure x.val := Reported.ext rfl h

/-- The columns of a row computed, each under its name, are what its expressions give. -/
theorem get_computed {cols : List (String × Expr)} (hunique : (cols.map Prod.fst).Nodup) {n : String} {e : Expr}
    (h : (n, e) ∈ cols) : (valuesOf env (cols.map Prod.fst) (cols.map Prod.snd) r).get n = (e.eval env [] r).val := by
  rw [get_valuesOf, Lookup.lookup_of_mem hunique h]

/-- The columns a write computes, with what each is computed by. -/
def computedColumns (c : Compilation) : List (String × Expr) :=
  (scanColumns c.contract).map (fun x => (x, .column x)) ++ c.write.flags.map (fun f => (f.column, f.expr)) ++
    c.write.derived.map fun d => (d.column, d.expr)

theorem computedColumns_fst (c : Compilation) : (computedColumns c).map Prod.fst = writtenColumns c := by
  simp [computedColumns, writtenColumns, List.map_map, Function.comp_def]

theorem writtenRow_eq (env : Env) (c : Compilation) (r : Row) : writtenRow env c r =
      valuesOf env ((computedColumns c).map Prod.fst) ((computedColumns c).map Prod.snd)
        (enrichedRow env c.contract r) := by
  unfold writtenRow
  simp [computedColumns, writtenColumns, List.map_map, Function.comp_def]

/-- A row written has the columns that its enrichment gave. -/
theorem writtenRow_get_scan {x : String} (h : x ∈ scanColumns c.contract) (r : Row) :
    (writtenRow env c r).get x = (enrichedRow env c.contract r).get x := by
  rw [writtenRow_eq, get_valuesOf]
  unfold computedColumns
  rw [List.append_assoc, lookup_columns h]
  rfl

/-- A row that a write computes, with nothing raised, holds what its compilation computes of it. -/
theorem holds_writtenRow (hc : c.Stores) (hk : env.kernel = k) (given : Row)
    (hrich : (evals env (c.contract.enrich.map DerivedColumn.expr) [] given).Clean)
    (hclean : (evals env ((computedColumns c).map Prod.snd) [] (enrichedRow env c.contract given)).Clean) :
    (writtenRow env c given).Holds k c := by
  have hcomputed : ∀ n e, (n, e) ∈ computedColumns c → e.flat = true → (∀ x ∈ e.columns, x ∈ scanColumns c.contract) →
      e.eval k.alone [] (writtenRow env c given) = .pure ((writtenRow env c given).get n) := by
    intro n e hmem hflat hreads
    have hvalue : (writtenRow env c given).get n = (e.eval env [] (enrichedRow env c.contract given)).val := by
      rw [writtenRow_eq]
      exact get_computed (computedColumns_fst c ▸ hc.columns) hmem
    rw [hvalue, eval_of_columns hk.symm e hflat fun x hx => writtenRow_get_scan (hreads x hx) given]
    exact eq_pure_of_clean (clean_of_evals hclean e (List.mem_map_of_mem hmem))
  refine ⟨fun d hd => ?_, fun f hf => ?_, fun d hd => ?_⟩
  · -- enrichment computes its columns of the row as it was given
    obtain ⟨hflat, hreads⟩ := hc.enriched d hd
    have hcolumns : (scanColumns c.contract).Nodup :=
      (List.nodup_append.1 (List.nodup_append.1 hc.columns).1).1
    have hvalue : (writtenRow env c given).get d.column = (d.expr.eval env [] given).val := by
      rw [writtenRow_get_scan (mem_scanColumns_enriched hd)]
      have hcols : enrichedRow env c.contract given =
          valuesOf env (((c.contract.rowSchema.map fun x => (x.name, Expr.column x.name)) ++
              c.contract.enrich.map fun d => (d.column, d.expr)).map Prod.fst)
            (((c.contract.rowSchema.map fun x => (x.name, Expr.column x.name)) ++
              c.contract.enrich.map fun d => (d.column, d.expr)).map Prod.snd) given := by
        simp [enrichedRow, List.map_map, Function.comp_def]
      rw [hcols]
      refine get_computed ?_ (List.mem_append_right _ (List.mem_map_of_mem hd))
      simpa [scanColumns, List.map_map, Function.comp_def] using hcolumns
    rw [hvalue, eval_of_columns hk.symm d.expr hflat fun x hx => writtenRow_get (hreads x hx)]
    exact eq_pure_of_clean (clean_of_evals hrich d.expr (List.mem_map_of_mem hd))
  · obtain ⟨hflat, hreads⟩ := hc.flagged f hf
    exact hcomputed f.column f.expr (List.mem_append_left _ (List.mem_append_right _ (List.mem_map_of_mem hf))) hflat
      hreads
  · obtain ⟨⟨hflat, -⟩, hreads⟩ := hc.derived d hd
    exact hcomputed d.column d.expr (List.mem_append_right _ (List.mem_map_of_mem hd)) hflat hreads

/-- So does every row that a part of a write computes. -/
theorem holds_of_computed (hc : c.Stores) {E : Enrichment} {rows out : List Row}
    (h : rowsOrError ((writePlan E c).run ⟨k, fun _ _ => rows⟩ []) = .ok out) : ∀ r ∈ out, r.Holds k c := by
  obtain ⟨herrs, rfl⟩ := rowsOrError_ok h
  intro r hr
  rw [writePlan_val] at hr
  obtain ⟨given, hgiven, rfl⟩ := List.mem_map.1 hr
  have hclean := herrs
  simp only [writePlan, E.projects, Plan.run, bind_errs, pure_errs, List.nil_append, List.append_eq_nil_iff,
    traverse_errs, List.flatMap_eq_nil_iff, map_errs] at hclean
  obtain ⟨hrich, hwrite⟩ := hclean
  refine holds_writtenRow hc (rfl : (⟨k, fun _ _ => rows⟩ : Env).kernel = k) given ?_ ?_
  · have hall := hrich given hgiven
    rw [evals_eq_traverse] at hall ⊢
    exact List.flatMap_eq_nil_iff.2 fun e he => List.flatMap_eq_nil_iff.1 hall e (List.mem_append_right _ he)
  · have hall := hwrite (enrichedRow ⟨k, fun _ _ => rows⟩ c.contract given) (by
      simp only [bind_val, traverse_val, pure_val, map_val]
      exact List.mem_map_of_mem hgiven)
    simpa [computedColumns, List.map_map, Function.comp_def, Clean] using hall

/-! ## The view -/

section View

variable {E : Enrichment} {params : Lookup String Value} {xs : List Row}

/-- The rows that leave a contract's own filter. -/
def kept (env : Env) (own : Option Expr) (rows : List Row) : Reported String (List Row) :=
  match own with
  | some f => Reported.filter (fun row => (f.eval env [] row).map Value.isTrue) rows
  | none => .pure rows

/-- And what is exposed of them. -/
def released (env : Env) (own : Option Expr) (names : List String) (es : List Expr) (rows : List Row) :
    Reported String (List Row) :=
  (kept env own rows).bind (Reported.traverse fun row => (evals env es [] row).map names.zip)

/-- A view of a source that gives some rows and raises nothing. -/
theorem run_released {source : Plan} {rows : List Row} (hs : source.run env [] = .pure rows) (own : Option Expr)
    (names : List String) (es : List Expr) :
    (Plan.projection names es (filtered own source)).run env [] = released env own names es rows := by
  have hfiltered : (filtered own source).run env [] = kept env own rows := by
    cases own with
    | none => exact hs
    | some f =>
      unfold filtered kept
      dsimp only
      rw [Plan.run, hs]
      exact Reported.ext rfl rfl
  rw [Plan.run, hfiltered]
  rfl

/-- Two views release the same, and raise the same, over rows that are two images of the same ones. -/
theorem released_eq {own own' : Option Expr} {es es' : List Expr} {g g' : Row → Row}
    (hown : Option.Rel (fun f f' => ∀ r ∈ xs, f.eval env [] (g r) = f'.eval env' [] (g' r)) own own')
    (hes : ∀ r ∈ xs, evals env es [] (g r) = evals env' es' [] (g' r)) (names : List String) :
    released env own names es (xs.map g) = released env' own' names es' (xs.map g') := by
  have hexposed : ∀ ys : List Row, (∀ r ∈ ys, r ∈ xs) →
      Reported.traverse (fun row => (evals env es [] row).map names.zip) (ys.map g) =
        Reported.traverse (fun row => (evals env' es' [] row).map names.zip) (ys.map g') := by
    intro ys hys
    rw [traverse_of_map, traverse_of_map]
    exact traverse_congr fun r hr => by rw [hes r (hys r hr)]
  cases hown with
  | none => exact hexposed xs fun _ => id
  | @some f f' hf =>
    have hsame : Reported.filter (fun r => (f.eval env [] (g r)).map Value.isTrue) xs =
        Reported.filter (fun r => (f'.eval env' [] (g' r)).map Value.isTrue) xs :=
      filter_congr fun r hr => by rw [hf r hr]
    unfold released kept
    dsimp only
    rw [filter_of_map, filter_of_map, hsame, map_bind, map_bind]
    exact bind_congr (hexposed _ fun r hr => (List.mem_filter.1 hr).1)

/-- Over rows in another order a view releases the same in another order. -/
theorem permutes_released (env : Env) (own : Option Expr) (names : List String) (es : List Expr)
    {rows rows' : List Row} (h : rows'.Perm rows) :
    Permutes (released env own names es rows') (released env own names es rows) := by
  have hkept : Permutes (kept env own rows') (kept env own rows) := by
    cases own with
    | none => exact ⟨h, .refl _⟩
    | some f => exact .filter h _
  exact hkept.bind_traverse _

/-- Columns that are each computed to a row's cell of their name. -/
theorem evals_cells {cols : List (String × Expr)} {row : Row}
    (h : ∀ p ∈ cols, (p.2.bind params).eval env [] row = .pure (r.get p.1)) :
    (evals env (bindExprs params (cols.map Prod.snd)) [] row).map (cols.map Prod.fst).zip =
      .pure (rowOf (cols.map Prod.fst) r) := by
  have hvalues : evals env (bindExprs params (cols.map Prod.snd)) [] row = .pure (cols.map fun p => r.get p.1) := by
    rw [bindExprs_eq_map, evals_eq_traverse, List.map_map, traverse_of_map]
    exact traverse_pure h
  rw [hvalues]
  refine Reported.ext ?_ rfl
  show (cols.map Prod.fst).zip (cols.map fun p => r.get p.1) = rowOf (cols.map Prod.fst) r
  unfold rowOf
  rw [List.map_map, List.zip_map']
  rfl

/-- What an expression gives on a row it gives wherever the cells it reads are the row's, under any parameters. -/
theorem eval_elsewhere {e : Expr} {v : Value} {row : Row} (hk : env.kernel = k) (hflat : e.flat = true)
    (hreads : ∀ x ∈ e.columns, row.get x = r.get x) (h : e.eval k.alone [] r = .pure v) :
    (e.bind params).eval env [] row = .pure v := by
  have hvalue : e.eval env [] row = .pure v := (eval_of_columns hk e hflat hreads).trans h
  rw [eval_bind_of_clean params e hflat (congrArg Reported.errs hvalue), hvalue]

section Sources

variable (hc : c.Stores) (h : ∀ r ∈ xs, r.Holds k c)

include hc h

/-- Enrichment gives each row the columns that are stored with it. -/
theorem run_enriched :
    ((viewSource E c.contract false).bind params).run ⟨k, fun _ _ => xs.map (rowOf (fileColumns c.contract false))⟩ [] =
      .pure (xs.map (rowOf (scanColumns c.contract))) := by
  let cols := (c.contract.rowSchema.map fun x => (x.name, Expr.column x.name)) ++
    c.contract.enrich.map fun d => (d.column, d.expr)
  have hnames : c.contract.rowSchema.map ColumnDef.name ++ c.contract.enrich.map DerivedColumn.column =
      cols.map Prod.fst := by simp [cols, List.map_map, Function.comp_def]
  have hexprs : c.contract.rowSchema.map (fun x => Expr.column x.name) ++ c.contract.enrich.map DerivedColumn.expr =
      cols.map Prod.snd := by simp [cols, List.map_map, Function.comp_def]
  have hsource : viewSource E c.contract false =
      .projection (cols.map Prod.fst) (cols.map Prod.snd) (.scan c.contract.name (scanTable c.contract.name)) := by
    unfold viewSource
    simp only [Bool.false_eq_true, if_false, E.projects, hnames, hexprs]
  rw [hsource, show scanColumns c.contract = cols.map Prod.fst from hnames]
  show Reported.traverse _ (xs.map (rowOf (fileColumns c.contract false))) = _
  rw [traverse_of_map]
  refine traverse_pure fun r hr => evals_cells fun p hp => ?_
  rcases List.mem_append.1 hp with hp | hp
  · obtain ⟨x, hx, rfl⟩ := List.mem_map.1 hp
    have hcell : (rowOf (fileColumns c.contract false) r).get x.name = r.get x.name :=
      get_rowOf (List.mem_map_of_mem hx)
    exact congrArg Reported.pure hcell
  · obtain ⟨d, hd, rfl⟩ := List.mem_map.1 hp
    obtain ⟨hflat, hreads⟩ := hc.enriched d hd
    exact eval_elsewhere rfl hflat (fun x hx => get_rowOf (hreads x hx)) ((h r hr).enriched d hd)

/-- The stored form of an expression gives, on the columns stored with a row, what its live form gives on the columns
before flags. -/
theorem eval_forms (hk : env.kernel = k) (hk' : env'.kernel = k) {e : Expr} (hflat : e.flat = true)
    (hreads : ∀ x ∈ e.columns, x ∈ scanColumns c.contract ++ c.contract.derived.map ColumnDef.name) :
    ∀ r ∈ xs, ((e.subst c.live).bind params).eval env' [] (rowOf (scanColumns c.contract) r) =
      (e.bind params).eval env [] (rowOf (fileColumns c.contract true) r) := by
  intro r hr
  refine eval_stored (hk'.trans hk.symm) params (fun x => ?_) e hflat fun x hx => ?_
  · unfold Compilation.live
    cases hl : (c.write.derived.map fun d => (d.column, d.expr)).lookup x with
    | none => rfl
    | some e =>
      obtain ⟨d, hd, heq⟩ := List.mem_map.1 (mem_of_lookup hl)
      cases heq
      exact (hc.derived d hd).1.2
  · have hcell : (rowOf (fileColumns c.contract true) r).get x = r.get x := by
      refine get_rowOf ?_
      rcases List.mem_append.1 (hreads x hx) with hscan | hderived
      · exact List.mem_append_left _ (List.mem_append_left _ hscan)
      · exact List.mem_append_right _ hderived
    rw [hcell]
    unfold Compilation.live
    cases hl : (c.write.derived.map fun d => (d.column, d.expr)).lookup x with
    | some e =>
      obtain ⟨d, hd, heq⟩ := List.mem_map.1 (mem_of_lookup hl)
      cases heq
      obtain ⟨⟨hdflat, -⟩, hdreads⟩ := hc.derived d hd
      exact eval_elsewhere hk' hdflat (fun y hy => get_rowOf (hdreads y hy)) ((h r hr).derived d hd)
    | none =>
      -- a derived column is looked up, so this is one of the columns before flags
      have hscan : x ∈ scanColumns c.contract := by
        refine (List.mem_append.1 (hreads x hx)).resolve_right fun hderived => ?_
        obtain ⟨d, hd, rfl⟩ := List.mem_map.1 hderived
        obtain ⟨d', hd', hname⟩ := List.mem_map.1 (hc.derivedColumns d hd)
        have hnot := List.lookup_eq_none_iff.1 hl (d'.column, d'.expr) (List.mem_map_of_mem hd')
        simp [hname] at hnot
      exact congrArg Reported.pure (get_rowOf hscan)

/-- The conditions of the view over stored columns are those of the view over the live rules. -/
theorem rel_viewFilters (hk : env.kernel = k) (hk' : env'.kernel = k) :
    List.Forall₂ (fun f f' => ∀ r ∈ xs, (f.bind params).eval env [] (rowOf (fileColumns c.contract true) r) =
      (f'.bind params).eval env' [] (rowOf (scanColumns c.contract) r))
      (viewFilters c.contract true) (viewFilters c.contract false) := by
  unfold viewFilters
  refine List.rel_append ?_ ?_
  · simp only [if_true, Bool.false_eq_true, if_false, hc.admits, List.map_map, List.forall₂_map_left_iff,
      List.forall₂_map_right_iff, List.forall₂_same]
    intro a ha r hr
    obtain ⟨hflat, hreads⟩ := hc.stored a (List.mem_append_left _ ha)
    exact (eval_forms hc h hk hk' hflat hreads r hr).symm
  · simp only [if_true, Bool.false_eq_true, if_false, List.forall₂_map_left_iff, List.forall₂_map_right_iff,
      List.forall₂_same]
    intro f hf r hr
    obtain ⟨hmem, -⟩ := mem_enforcedFlags.1 hf
    obtain ⟨hflat, hreads⟩ := hc.flagged f (hc.flags f hmem)
    rw [eval_elsewhere hk' hflat (fun y hy => get_rowOf (hreads y hy)) ((h r hr).flags f (hc.flags f hmem))]
    exact congrArg Reported.pure
      (get_rowOf (List.mem_append_left _ (List.mem_append_right _ (List.mem_map_of_mem hmem))))

theorem rel_ownFilter (hk : env.kernel = k) (hk' : env'.kernel = k) :
    Option.Rel (fun f f' => ∀ r ∈ xs, f.eval env [] (rowOf (fileColumns c.contract true) r) =
      f'.eval env' [] (rowOf (scanColumns c.contract) r))
      (ownFilter c.contract true params) (ownFilter c.contract false params) := by
  have hand : ∀ a a' b b' : Expr,
      (∀ r ∈ xs, (a.bind params).eval env [] (rowOf (fileColumns c.contract true) r) =
        (a'.bind params).eval env' [] (rowOf (scanColumns c.contract) r)) →
      (∀ r ∈ xs, (b.bind params).eval env [] (rowOf (fileColumns c.contract true) r) =
        (b'.bind params).eval env' [] (rowOf (scanColumns c.contract) r)) →
      ∀ r ∈ xs, ((a.and b).bind params).eval env [] (rowOf (fileColumns c.contract true) r) =
        ((a'.and b').bind params).eval env' [] (rowOf (scanColumns c.contract) r) := by
    intro a a' b b' ha hb r hr
    simp only [Expr.and, Expr.bind, bindExprs, Expr.eval, evals, ha r hr, hb r hr, hk, hk']
  have hrel := conjunction_forall₂ hand (rel_viewFilters hc h hk hk')
  unfold ownFilter
  generalize conjunction (viewFilters c.contract true) = own at hrel ⊢
  generalize conjunction (viewFilters c.contract false) = own' at hrel ⊢
  cases hrel with
  | none => exact .none
  | some hf => exact .some hf

theorem evals_forms (hk : env.kernel = k) (hk' : env'.kernel = k) : ∀ r ∈ xs,
    evals env (viewTransforms c.contract true params) [] (rowOf (fileColumns c.contract true) r) =
      evals env' (viewTransforms c.contract false params) [] (rowOf (scanColumns c.contract) r) := by
  intro r hr
  unfold viewTransforms viewProjection
  simp only [if_true, Bool.false_eq_true, if_false, hc.projection, evals_eq_traverse, List.map_map, traverse_of_map]
  refine traverse_congr fun p hp => ?_
  obtain ⟨hflat, hreads⟩ := hc.stored p (List.mem_append_right _ hp)
  exact (eval_forms hc h hk hk' hflat hreads r hr).symm

end Sources

/-- **The view over the stored columns** of some rows, on which they hold, releases what the view over the live rules
releases, in whatever orders the scans give the rows. -/
theorem contractView_stored (hc : c.Stores) {rows : Multiset Row} (h : ∀ r ∈ rows, r.Holds k c)
    {scanned given : List Row} (hscanned : (scanned : Multiset Row) = rows.map (rowOf (fileColumns c.contract true)))
    (hgiven : (given : Multiset Row) = rows.map (rowOf (fileColumns c.contract false))) :
    Permutes ((contractView E c.contract true params).run ⟨k, fun _ _ => scanned⟩ [])
      ((contractView E c.contract false params).run ⟨k, fun _ _ => given⟩ []) := by
  obtain ⟨order, rfl⟩ := Quot.exists_rep rows
  obtain ⟨xs, hxs, rfl⟩ := exists_order (Multiset.coe_eq_coe.1 hscanned)
  obtain ⟨ys, hys, rfl⟩ := exists_order (Multiset.coe_eq_coe.1 hgiven)
  have hx : ∀ r ∈ xs, r.Holds k c := fun r hr => h r (hxs.mem_iff.1 hr)
  have hy : ∀ r ∈ ys, r.Holds k c := fun r hr => h r (hys.mem_iff.1 hr)
  let stored : Env := ⟨k, fun _ _ => xs.map (rowOf (fileColumns c.contract true))⟩
  let live : Env := ⟨k, fun _ _ => ys.map (rowOf (fileColumns c.contract false))⟩
  let scan := scanColumns c.contract
  have hsource : ((viewSource E c.contract true).bind params).run stored [] =
      .pure (xs.map (rowOf (fileColumns c.contract true))) := rfl
  have hnames : viewNames c.contract false = viewNames c.contract true := by
    unfold viewNames viewProjection
    simp [hc.projection, List.map_map, Function.comp_def]
  have hstored : (contractView E c.contract true params).run stored [] =
      released live (ownFilter c.contract false params) (viewNames c.contract true)
        (viewTransforms c.contract false params) (xs.map (rowOf scan)) := by
    rw [contractView_eq]
    exact (run_released hsource _ _ _).trans
      (released_eq (rel_ownFilter hc hx rfl rfl) (evals_forms hc hx rfl rfl) _)
  have hlive : (contractView E c.contract false params).run live [] =
      released live (ownFilter c.contract false params) (viewNames c.contract true)
        (viewTransforms c.contract false params) (ys.map (rowOf scan)) := by
    rw [contractView_eq, hnames]
    exact run_released (run_enriched hc hy) _ _ _
  rw [hstored, hlive]
  exact permutes_released live _ _ _ ((hxs.trans hys.symm).map _)

end View

end Peql
