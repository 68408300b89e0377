import Peql.Gate.Gating
import Peql.Violation

/-!
# The contract's view under a caller's predicates

`Engine::contract_view` as a plan: scan, enrich, filter on admits and on the flags of the rules a row can break, project
the exposed columns, bind the caller's parameters, gate (`contractView`). DataFusion may push what the barrier moves
below the gate through the projection into the contract's own filter (`pushDown`), where it is computed on every row of
the scan, hidden ones included, with each column replaced by the expression the projection gives it (`Expr.subst`).

A moved conjunct raises nothing of its own, so what it raises on a hidden row is what the transforms of its columns
raise there (`errs_subst`). It follows when a conjunct can fail on a row nobody may see (`pushed_clean_iff`), and that
where none can, the query's outcome depends on the visible rows alone (`outcome_eq_of_visible`).
-/

namespace Peql

open Reported

/-! ## The view -/

mutual

/-- `with_param_values`. -/
def Expr.bind (params : Lookup String Value) : Expr → Expr
  | .column c => .column c
  | .outerColumn c => .outerColumn c
  | .placeholder id =>
    match params id with
    | some v => .literal v
    | none => .placeholder id
  | .literal v => .literal v
  | .cast ty e => .cast ty (e.bind params)
  | .op f args => .op f (bindExprs params args)
  | .caseWhen c t e => .caseWhen (c.bind params) (t.bind params) (e.bind params)
  | .subquery kind args plan => .subquery kind (bindExprs params args) (plan.bind params)

def bindExprs (params : Lookup String Value) : List Expr → List Expr
  | [] => []
  | e :: es => e.bind params :: bindExprs params es

def Plan.bind (params : Lookup String Value) : Plan → Plan
  | .scan contract table => .scan contract table
  | .filter pred input => .filter (pred.bind params) (input.bind params)
  | .projection names es input => .projection names (bindExprs params es) (input.bind params)
  | .gate contract hash input => .gate contract hash (input.bind params)
  | .join on left right => .join (on.bind params) (left.bind params) (right.bind params)
  | .relation kind es inputs => .relation kind (bindExprs params es) (bindPlans params inputs)

def bindPlans (params : Lookup String Value) : List Plan → List Plan
  | [] => []
  | p :: ps => p.bind params :: bindPlans params ps

end

/-- The table a contract's scan reads: `__peql_` and the contract's name. -/
def scanTable (contract : String) : String := "__peql_" ++ contract.replace "/" "_"

/-- `parcel_runtime::plan::enrich_plan`, which projects a scan: its row columns, with the columns enrichment adds. -/
structure Enrichment where
  enrichPlan : Plan → CompiledContract → Plan
  projects : ∀ scan cc, enrichPlan scan cc =
    .projection (cc.rowSchema.map ColumnDef.name ++ cc.enrich.map DerivedColumn.column)
      (cc.rowSchema.map (fun c => Expr.column c.name) ++ cc.enrich.map DerivedColumn.expr) scan

variable (E : Enrichment)

/-- What the view's filter is over. -/
def viewSource (cc : CompiledContract) (stored : Bool) : Plan :=
  let scan := .scan cc.name (scanTable cc.name)
  if stored then scan else E.enrichPlan scan cc

/-- The conditions a row meets to leave the view: the admits, then the rules a row can break. -/
def viewFilters (cc : CompiledContract) (stored : Bool) : List Expr :=
  (if stored then cc.admitsStored else cc.admits).map Prod.snd ++
    (enforcedFlags cc.flags).map fun f => if stored then .column f.column else f.expr

/-- The exposed columns. -/
def viewProjection (cc : CompiledContract) (stored : Bool) : List (String × Expr) :=
  if stored then cc.projectionStored else cc.projection

/-- The rows of the view, before its columns are exposed. -/
def viewRows (cc : CompiledContract) (stored : Bool) : Plan :=
  match conjunction (viewFilters cc stored) with
  | some f => .filter f (viewSource E cc stored)
  | none => viewSource E cc stored

/-- The plan that stands in for a contract, for one caller, over the stored columns or the live rules. -/
def contractView (cc : CompiledContract) (stored : Bool) (params : Lookup String Value) : Plan :=
  let exposed := viewProjection cc stored
  let plan : Plan := .projection (exposed.map Prod.fst) (exposed.map Prod.snd) (viewRows E cc stored)
  .gate cc.name cc.compilationHash (plan.bind params)

/-! ## Pushing a filter through the projection -/

/-- The expression a projection gives a column. -/
def projected (names : List String) (es : List Expr) (c : String) : Expr :=
  ((names.zip es).lookup c).getD (.literal .null)

mutual

/-- Columns replaced by what the projection computes for them. -/
def Expr.subst (σ : String → Expr) : Expr → Expr
  | .column c => σ c
  | .outerColumn c => .outerColumn c
  | .placeholder id => .placeholder id
  | .literal v => .literal v
  | .cast ty e => .cast ty (e.subst σ)
  | .op f args => .op f (substExprs σ args)
  | .caseWhen c t e => .caseWhen (c.subst σ) (t.subst σ) (e.subst σ)
  | .subquery kind args plan => .subquery kind (substExprs σ args) plan

def substExprs (σ : String → Expr) : List Expr → List Expr
  | [] => []
  | e :: es => e.subst σ :: substExprs σ es

end

mutual

/-- The columns an expression reads. -/
def Expr.columns : Expr → List String
  | .column c => [c]
  | .outerColumn _ | .placeholder _ | .literal _ => []
  | .cast _ e => e.columns
  | .op _ args => exprColumns args
  | .caseWhen c t e => c.columns ++ (t.columns ++ e.columns)
  | .subquery _ args _ => exprColumns args

def exprColumns : List Expr → List String
  | [] => []
  | e :: es => e.columns ++ exprColumns es

end

/-- DataFusion's filter pushdown below a gate: what stands on the view's projection is evaluated with the contract's own
filter. -/
def pushDown : Plan → Plan
  | .filter above input => .filter above (pushDown input)
  | .gate contract hash (.filter below (.projection names es (.filter own source))) =>
    .gate contract hash (.projection names es (.filter (own.and (below.subst (projected names es))) source))
  | .gate contract hash (.filter below (.projection names es source)) =>
    .gate contract hash (.projection names es (.filter (below.subst (projected names es)) source))
  | p => p

variable {env env' : Env} {outer row : Row}

/-! ## The view's parts -/

theorem bindExprs_eq_map (params : Lookup String Value) (es : List Expr) :
    bindExprs params es = es.map (Expr.bind params) := by
  induction es with
  | nil => rfl
  | cons e es ih => rw [bindExprs, ih, List.map_cons]

/-- The names of the exposed columns. -/
def viewNames (cc : CompiledContract) (stored : Bool) : List String := (viewProjection cc stored).map Prod.fst

/-- The transforms of the exposed columns, bound to the caller. -/
def viewTransforms (cc : CompiledContract) (stored : Bool) (params : Lookup String Value) : List Expr :=
  (viewProjection cc stored).map fun c => c.2.bind params

/-- The contract's own filter, bound to the caller. -/
def ownFilter (cc : CompiledContract) (stored : Bool) (params : Lookup String Value) : Option Expr :=
  (conjunction (viewFilters cc stored)).map (Expr.bind params)

/-- A plan under a filter, if there is one. -/
def filtered (own : Option Expr) (source : Plan) : Plan :=
  match own with
  | some f => .filter f source
  | none => source

theorem contractView_eq (cc : CompiledContract) (stored : Bool) (params : Lookup String Value) :
    contractView E cc stored params =
      .gate cc.name cc.compilationHash (.projection (viewNames cc stored) (viewTransforms cc stored params)
        (filtered (ownFilter cc stored params) ((viewSource E cc stored).bind params))) := by
  unfold contractView
  simp only [Plan.bind, bindExprs_eq_map, List.map_map]
  congr 2
  unfold viewRows ownFilter
  cases conjunction (viewFilters cc stored) with
  | none => rfl
  | some f => rfl

/-- The rows the contract's filter is asked about: the scan's, enriched when the rules are live. -/
def scanRows (cc : CompiledContract) (stored : Bool) (params : Lookup String Value) (env : Env) : List Row :=
  (((viewSource E cc stored).bind params).run env []).val

/-- The conjuncts of a predicate that the barrier moves below the gate. -/
def movedConjuncts (pred : Expr) : List Expr := pred.splitConjunction.filter Expr.cannotFail

/-- A column as the view computes it from a row of the scan. -/
def exposed (cc : CompiledContract) (stored : Bool) (params : Lookup String Value) : String → Expr :=
  projected (viewNames cc stored) (viewTransforms cc stored params)

/-- What a query of the view under a predicate gives, its plan optimised: the barrier's rule, then filter pushdown. -/
def outcome (cc : CompiledContract) (stored : Bool) (params : Lookup String Value) (pred : Expr) (env : Env) :
    Reported String (List Row) :=
  (pushDown (barrier (.filter pred (contractView E cc stored params)))).run env []

/-! ## What a moved conjunct raises -/

mutual

/-- A conjunct that cannot fail raises, with its columns replaced, what the replacements of its columns raise. -/
theorem errs_subst (σ : String → Expr) : ∀ e : Expr, e.nodes.all Expr.nodeSafe = true →
    ((e.subst σ).eval env outer row).errs = e.columns.flatMap fun c => ((σ c).eval env outer row).errs
  | .column c, _ => by simp [Expr.subst, Expr.columns]
  | .literal _, _ => rfl
  | .outerColumn _, h => by simp [Expr.nodes, Expr.nodeSafe] at h
  | .placeholder _, h => by simp [Expr.nodes, Expr.nodeSafe] at h
  | .cast ty e, h => by
    rw [Expr.nodes, List.all_cons, Bool.and_eq_true] at h
    have hl : e.isLiteral = true := h.1
    cases e with
    | literal v => rfl
    | _ => cases hl
  | .op f args, h => by
    rw [Expr.nodes, List.all_cons, Bool.and_eq_true] at h
    obtain ⟨v, hv⟩ := Op.apply_safe h.1 env.kernel (evals env (substExprs σ args) outer row).val
    simp only [Expr.subst, Expr.eval, bind_errs, hv, ofExcept_ok, pure_errs, List.append_nil, Expr.columns]
    exact errs_substExprs σ args h.2
  | .caseWhen _ _ _, h => by simp [Expr.nodes, Expr.nodeSafe] at h
  | .subquery _ _ _, h => by simp [Expr.nodes, Expr.nodeSafe] at h

theorem errs_substExprs (σ : String → Expr) : ∀ es : List Expr, (exprNodes es).all Expr.nodeSafe = true →
    (evals env (substExprs σ es) outer row).errs =
      (exprColumns es).flatMap fun c => ((σ c).eval env outer row).errs
  | [], _ => rfl
  | e :: es, h => by
    rw [exprNodes, List.all_append, Bool.and_eq_true] at h
    simp only [substExprs, evals, bind_errs, map_errs, exprColumns, List.flatMap_append, errs_subst σ e h.1,
      errs_substExprs σ es h.2]

end

theorem columns_safe {pred c : Expr} (h : c ∈ movedConjuncts pred) : c.nodes.all Expr.nodeSafe = true :=
  (List.mem_filter.1 h).2

theorem below_safe {pred below : Expr} (hb : conjunction (movedConjuncts pred) = some below) :
    below.nodes.all Expr.nodeSafe = true :=
  conjunction_induction (P := fun e => e.nodes.all Expr.nodeSafe = true)
    (fun a b ha hb => by simp [Expr.and, Expr.nodes, exprNodes, Expr.nodeSafe, Op.safe, Operator.safe, ha, hb])
    (fun _ hc => columns_safe hc) hb

/-- No conjunct the barrier moves can fail, as it is pushed, on a row of the scan. -/
def PushedClean (cc : CompiledContract) (stored : Bool) (params : Lookup String Value) (pred : Expr) (env : Env) :
    Prop :=
  ∀ c ∈ movedConjuncts pred, ∀ row ∈ scanRows E cc stored params env,
    ((c.subst (exposed cc stored params)).eval env [] row).Clean

/-- The view's transforms of the columns that the moved conjuncts read cannot fail on a row of the scan. -/
def TransformsClean (cc : CompiledContract) (stored : Bool) (params : Lookup String Value) (pred : Expr) (env : Env) :
    Prop :=
  ∀ c ∈ movedConjuncts pred, ∀ col ∈ c.columns, ∀ row ∈ scanRows E cc stored params env,
    ((exposed cc stored params col).eval env [] row).Clean

/-- A moved conjunct can fail on a row exactly when the transform of a column it reads can. -/
theorem pushed_clean_iff (cc : CompiledContract) (stored : Bool) (params : Lookup String Value) (pred : Expr)
    (env : Env) : PushedClean E cc stored params pred env ↔ TransformsClean E cc stored params pred env := by
  unfold PushedClean TransformsClean Reported.Clean
  constructor
  · intro h c hc col hcol row hrow
    have hnil := h c hc row hrow
    rw [errs_subst _ c (columns_safe hc), List.flatMap_eq_nil_iff] at hnil
    exact hnil col hcol
  · intro h c hc row hrow
    rw [errs_subst _ c (columns_safe hc), List.flatMap_eq_nil_iff]
    exact fun col hcol => h c hc col hcol row hrow

/-! ## The optimised query -/

/-- The contract's own filter with what was pushed onto it. -/
def pushed (own : Option Expr) (below : Expr) : Expr :=
  match own with
  | some f => f.and below
  | none => below

/-- The optimised query's shape: as it was given when nothing crosses the gate, and else with the moved conjuncts in the
contract's own filter. -/
theorem outcome_cases (cc : CompiledContract) (stored : Bool) (params : Lookup String Value) (pred : Expr) :
    (movedConjuncts pred = [] ∧ ∀ env, outcome E cc stored params pred env =
      (Plan.filter pred (contractView E cc stored params)).run env []) ∨
    ∃ below, conjunction (movedConjuncts pred) = some below ∧
      barrier (.filter pred (contractView E cc stored params)) =
        filtered (conjunction (pred.splitConjunction.filter fun e => !e.cannotFail))
          (.gate cc.name cc.compilationHash (.filter below (.projection (viewNames cc stored)
            (viewTransforms cc stored params)
            (filtered (ownFilter cc stored params) ((viewSource E cc stored).bind params))))) ∧
      ∀ env, outcome E cc stored params pred env =
      (filtered (conjunction (pred.splitConjunction.filter fun e => !e.cannotFail))
        (.gate cc.name cc.compilationHash (.projection (viewNames cc stored) (viewTransforms cc stored params)
          (.filter (pushed (ownFilter cc stored params) (below.subst (exposed cc stored params)))
            ((viewSource E cc stored).bind params))))).run env [] := by
  have hpush : ∀ below, pushDown (.gate cc.name cc.compilationHash (.filter below
      (.projection (viewNames cc stored) (viewTransforms cc stored params)
        (filtered (ownFilter cc stored params) ((viewSource E cc stored).bind params))))) =
      .gate cc.name cc.compilationHash (.projection (viewNames cc stored) (viewTransforms cc stored params)
          (.filter (pushed (ownFilter cc stored params) (below.subst (exposed cc stored params)))
            ((viewSource E cc stored).bind params))) := by
    intro below
    cases ownFilter cc stored params with
    | some f => rfl
    | none =>
      cases stored with
      | true => rfl
      | false =>
        -- Enrichment projects the scan: it is no filter, which the pushed conjuncts would join.
        have hsource : viewSource E cc false = .projection _ _ _ := E.projects _ _
        rw [hsource]
        rfl
  unfold outcome
  rw [contractView_eq]
  obtain ⟨hc, heq⟩ | ⟨pred, contract, hash, input, below, hnode, _, hbelow, habove⟩ :=
    barrier_cases (.filter pred (.gate cc.name cc.compilationHash (.projection (viewNames cc stored)
      (viewTransforms cc stored params)
      (filtered (ownFilter cc stored params) ((viewSource E cc stored).bind params)))))
  · refine .inl ⟨?_, fun env => by rw [heq]; rfl⟩
    simpa [movedConjuncts, Plan.crosses, List.any_eq_false, List.filter_eq_nil_iff] using hc
  · cases hnode
    obtain ⟨above, hsome, heq⟩ | ⟨hnil, heq⟩ := habove
    · refine .inr ⟨below, hbelow, by rw [heq, hsome]; rfl, fun env => ?_⟩
      rw [heq, hsome, filtered, pushDown, hpush]
    · refine .inr ⟨below, hbelow, by rw [heq, hnil]; rfl, fun env => ?_⟩
      rw [heq, hnil, hpush]
      rfl

/-! ## Two data sets -/

/-- An expression computes the same on both data sets: what it reads beside its row, by a subquery, is the same. -/
def Alike (env env' : Env) (e : Expr) : Prop := ∀ outer row, e.eval env' outer row = e.eval env outer row

/-- A row the contract does not hide: its own filter keeps it, or fails on it. -/
def visible (own : Option Expr) (env : Env) (row : Row) : Bool :=
  match own with
  | some f => !(f.eval env [] row).errs.isEmpty || (f.eval env [] row).val.isTrue
  | none => true

/-- Two data sets that differ only in rows the contract hides from the caller. -/
structure SameButHidden (cc : CompiledContract) (stored : Bool) (params : Lookup String Value) (pred : Expr)
    (env env' : Env) : Prop where
  kernel : env'.kernel = env.kernel
  conjuncts : ∀ c ∈ pred.splitConjunction, Alike env env' c
  own : ∀ f ∈ ownFilter cc stored params, Alike env env' f
  transforms : ∀ e ∈ viewTransforms cc stored params, Alike env env' e
  enriched : (((viewSource E cc stored).bind params).run env' []).errs =
    (((viewSource E cc stored).bind params).run env []).errs
  rows : (scanRows E cc stored params env').filter (visible (ownFilter cc stored params) env') =
    (scanRows E cc stored params env).filter (visible (ownFilter cc stored params) env)

theorem alike_evals {es : List Expr} (h : ∀ e ∈ es, Alike env env' e) (outer row : Row) :
    evals env' es outer row = evals env es outer row := by
  rw [evals_eq_traverse, evals_eq_traverse]
  refine Reported.ext ?_ ?_
  · exact List.map_congr_left fun e he => congrArg Reported.val (h e he outer row)
  · exact List.flatMap_congr fun e he => congrArg Reported.errs (h e he outer row)

theorem alike_projected (names : List String) {es : List Expr} (h : ∀ e ∈ es, Alike env env' e) (c : String) :
    Alike env env' (projected names es c) := by
  unfold projected
  cases hl : (names.zip es).lookup c with
  | none => exact fun _ _ => rfl
  | some e =>
    obtain ⟨l, l', heq, _⟩ := List.lookup_eq_some_iff.1 hl
    have hmem : (c, e) ∈ names.zip es := heq ▸ List.mem_append_right _ (List.mem_cons_self ..)
    exact h e (List.of_mem_zip hmem).2

theorem alike_and {a b : Expr} (ha : Alike env env' a) (hb : Alike env env' b) : Alike env env' (a.and b) := by
  intro outer row
  refine Reported.ext ?_ ?_
  · rw [eval_and, eval_and, ha, hb]
  · rw [errs_and, errs_and, ha, hb]

mutual

theorem alike_subst {σ : String → Expr} (hk : env'.kernel = env.kernel) (hσ : ∀ c, Alike env env' (σ c)) :
    ∀ e : Expr, e.nodes.all Expr.nodeSafe = true → Alike env env' (e.subst σ)
  | .column c, _ => hσ c
  | .literal _, _ => fun _ _ => rfl
  | .outerColumn _, h => by simp [Expr.nodes, Expr.nodeSafe] at h
  | .placeholder _, h => by simp [Expr.nodes, Expr.nodeSafe] at h
  | .cast ty e, h => by
    rw [Expr.nodes, List.all_cons, Bool.and_eq_true] at h
    intro outer row
    simp only [Expr.subst, Expr.eval, alike_subst hk hσ e h.2 outer row, hk]
  | .op f args, h => by
    rw [Expr.nodes, List.all_cons, Bool.and_eq_true] at h
    intro outer row
    simp only [Expr.subst, Expr.eval, alike_substExprs hk hσ args h.2 outer row, hk]
  | .caseWhen _ _ _, h => by simp [Expr.nodes, Expr.nodeSafe] at h
  | .subquery _ _ _, h => by simp [Expr.nodes, Expr.nodeSafe] at h

theorem alike_substExprs {σ : String → Expr} (hk : env'.kernel = env.kernel) (hσ : ∀ c, Alike env env' (σ c)) :
    ∀ es : List Expr, (exprNodes es).all Expr.nodeSafe = true →
      ∀ outer row, evals env' (substExprs σ es) outer row = evals env (substExprs σ es) outer row
  | [], _, _, _ => rfl
  | e :: es, h, outer, row => by
    rw [exprNodes, List.all_append, Bool.and_eq_true] at h
    simp only [substExprs, evals, alike_subst hk hσ e h.1 outer row, alike_substExprs hk hσ es h.2 outer row]

end

/-- The moved conjuncts together raise nothing on a row of the scan. -/
theorem below_pushed_clean {E : Enrichment} {cc : CompiledContract} {stored : Bool} {params : Lookup String Value}
    {pred below : Expr}
    (hb : conjunction (movedConjuncts pred) = some below) (h : PushedClean E cc stored params pred env)
    (hrow : row ∈ scanRows E cc stored params env) :
    ((below.subst (exposed cc stored params)).eval env [] row).errs = [] := by
  refine conjunction_induction (P := fun e => ((e.subst (exposed cc stored params)).eval env [] row).errs = [])
    (fun a b ha hb => ?_) (fun c hc => h c hc row hrow) hb
  rw [show (a.and b).subst (exposed cc stored params) =
    (a.subst (exposed cc stored params)).and (b.subst (exposed cc stored params)) from rfl, errs_and, ha, hb]
  rfl

section TwoData

variable {E} {cc : CompiledContract} {stored : Bool} {params : Lookup String Value} {pred : Expr}

/-- A row that is hidden is left out by the contract's own filter, and raises nothing there. -/
theorem hidden_own {f : Expr} (h : visible (some f) env row = false) :
    (f.eval env [] row).val.isTrue = false ∧ (f.eval env [] row).errs = [] := by
  simpa [visible, and_comm] using h

/-- A filter that leaves out the hidden rows, and raises nothing on them, gives the same on both data sets. -/
theorem run_filter_eq (h : SameButHidden E cc stored params pred env env') {F : Expr} (hF : Alike env env' F)
    (hs : ∀ row ∈ scanRows E cc stored params env, visible (ownFilter cc stored params) env row = false →
      (F.eval env [] row).val.isTrue = false ∧ (F.eval env [] row).errs = [])
    (hs' : ∀ row ∈ scanRows E cc stored params env', visible (ownFilter cc stored params) env' row = false →
      (F.eval env' [] row).val.isTrue = false ∧ (F.eval env' [] row).errs = []) :
    (Plan.filter F ((viewSource E cc stored).bind params)).run env' [] =
      (Plan.filter F ((viewSource E cc stored).bind params)).run env [] := by
  have hfun : (fun row => (F.eval env' [] row).map Value.isTrue) = fun row => (F.eval env [] row).map Value.isTrue :=
    funext fun row => by rw [hF]
  have hrows : Reported.filter (fun row => (F.eval env' [] row).map Value.isTrue) (scanRows E cc stored params env') =
      Reported.filter (fun row => (F.eval env [] row).map Value.isTrue) (scanRows E cc stored params env) :=
    calc Reported.filter (fun row => (F.eval env' [] row).map Value.isTrue) (scanRows E cc stored params env')
      _ = Reported.filter (fun row => (F.eval env' [] row).map Value.isTrue)
            ((scanRows E cc stored params env').filter (visible (ownFilter cc stored params) env')) :=
          filter_of_silent hs'
      _ = Reported.filter (fun row => (F.eval env [] row).map Value.isTrue)
            ((scanRows E cc stored params env).filter (visible (ownFilter cc stored params) env)) := by
          rw [h.rows, hfun]
      _ = Reported.filter (fun row => (F.eval env [] row).map Value.isTrue) (scanRows E cc stored params env) :=
          (filter_of_silent hs).symm
  simp only [Plan.run]
  refine Reported.ext ?_ ?_
  · rw [bind_val, bind_val]
    exact congrArg Reported.val hrows
  · rw [bind_errs, bind_errs, h.enriched]
    exact congrArg _ (congrArg Reported.errs hrows)

/-- The contract's own filter alone. -/
theorem run_filtered_own_eq (h : SameButHidden E cc stored params pred env env') :
    (filtered (ownFilter cc stored params) ((viewSource E cc stored).bind params)).run env' [] =
      (filtered (ownFilter cc stored params) ((viewSource E cc stored).bind params)).run env [] := by
  cases hown : ownFilter cc stored params with
  | some f =>
    refine run_filter_eq h (h.own f hown) (fun row _ hv => ?_) fun row _ hv => ?_
    · rw [hown] at hv
      exact hidden_own hv
    · rw [hown] at hv
      exact hidden_own hv
  | none =>
    have hrows := h.rows
    rw [hown] at hrows
    have htrue : ∀ (e : Env) (rows : List Row), rows.filter (visible none e) = rows :=
      fun e rows => List.filter_eq_self.2 fun _ _ => rfl
    rw [htrue, htrue] at hrows
    exact Reported.ext hrows h.enriched

/-- The contract's own filter with the moved conjuncts pushed onto it, where these cannot fail. -/
theorem run_pushed_eq (h : SameButHidden E cc stored params pred env env') {below : Expr}
    (hb : conjunction (movedConjuncts pred) = some below) (hc : PushedClean E cc stored params pred env)
    (hc' : PushedClean E cc stored params pred env') :
    (Plan.filter (pushed (ownFilter cc stored params) (below.subst (exposed cc stored params)))
      ((viewSource E cc stored).bind params)).run env' [] =
    (Plan.filter (pushed (ownFilter cc stored params) (below.subst (exposed cc stored params)))
      ((viewSource E cc stored).bind params)).run env [] := by
  have hbelow : Alike env env' (below.subst (exposed cc stored params)) :=
    alike_subst h.kernel (alike_projected _ h.transforms) below (below_safe hb)
  cases hown : ownFilter cc stored params with
  | some f =>
    have hsilent : ∀ {e : Env}, PushedClean E cc stored params pred e → ∀ row ∈ scanRows E cc stored params e,
        visible (some f) e row = false →
        ((f.and (below.subst (exposed cc stored params))).eval e [] row).val.isTrue = false ∧
          ((f.and (below.subst (exposed cc stored params))).eval e [] row).errs = [] := by
      intro e hclean row hrow hv
      obtain ⟨hval, herrs⟩ := hidden_own hv
      refine ⟨?_, ?_⟩
      · rw [eval_and, Value.isTrue_and3, hval, Bool.false_and]
      · rw [errs_and, herrs, below_pushed_clean hb hclean hrow]
        rfl
    refine run_filter_eq h (alike_and (h.own f hown) hbelow) (fun row hrow hv => ?_) fun row hrow hv => ?_
    · rw [hown] at hv
      exact hsilent hc row hrow hv
    · rw [hown] at hv
      exact hsilent hc' row hrow hv
  | none =>
    refine run_filter_eq h hbelow (fun row _ hv => ?_) fun row _ hv => ?_
    · rw [hown] at hv
      cases hv
    · rw [hown] at hv
      cases hv

/-- The view's projection, over rows that are the same. -/
theorem run_projection_eq (h : SameButHidden E cc stored params pred env env') {p : Plan}
    (hp : p.run env' [] = p.run env []) :
    (Plan.projection (viewNames cc stored) (viewTransforms cc stored params) p).run env' [] =
      (Plan.projection (viewNames cc stored) (viewTransforms cc stored params) p).run env [] := by
  simp only [Plan.run, hp]
  congr 2
  funext row
  rw [alike_evals h.transforms]

/-- A predicate keeps the same rows, and raises the same errors, when its conjuncts do. -/
theorem map_isTrue_eq {e : Expr} (h : ∀ c ∈ e.splitConjunction, Alike env env' c) (outer row : Row) :
    (e.eval env' outer row).map Value.isTrue = (e.eval env outer row).map Value.isTrue := by
  refine Reported.ext ?_ ?_
  · rw [map_val, map_val, isTrue_splitConjunction, isTrue_splitConjunction, Bool.eq_iff_iff, List.all_eq_true,
      List.all_eq_true]
    exact forall₂_congr fun c hc => by rw [h c hc]
  · rw [map_errs, map_errs, errs_splitConjunction, show (e.eval env outer row).errs = _ from errs_splitConjunction e]
    exact List.flatMap_congr fun c hc => by rw [h c hc]

/-- A predicate above the gate, over rows that are the same. -/
theorem run_above_eq {p : Plan} {above : Option Expr}
    (ha : ∀ e ∈ above, ∀ c ∈ e.splitConjunction, Alike env env' c)
    (hp : p.run env' [] = p.run env []) : (filtered above p).run env' [] = (filtered above p).run env [] := by
  cases above with
  | none => exact hp
  | some e =>
    simp only [filtered, Plan.run, hp]
    congr 2
    funext row
    exact map_isTrue_eq (ha e rfl) [] row

/-- Where no moved conjunct can fail, the query gives the same on two data sets that differ in hidden rows only. -/
theorem outcome_eq_of_visible (h : SameButHidden E cc stored params pred env env')
    (hc : PushedClean E cc stored params pred env) (hc' : PushedClean E cc stored params pred env') :
    outcome E cc stored params pred env' = outcome E cc stored params pred env := by
  obtain ⟨_, heq⟩ | ⟨below, hb, _, heq⟩ := outcome_cases E cc stored params pred
  · rw [heq, heq, contractView_eq]
    have habove : ∀ e ∈ some pred, ∀ c ∈ e.splitConjunction, Alike env env' c := by
      intro e he
      obtain rfl : pred = e := by simpa using he
      exact h.conjuncts
    exact run_above_eq habove (run_projection_eq h (run_filtered_own_eq h))
  · rw [heq, heq]
    refine run_above_eq (fun e he => ?_) (run_projection_eq h (run_pushed_eq h hb hc hc'))
    rw [splitConjunction_conjunction he]
    exact fun c hc => h.conjuncts c (List.mem_filter.1 hc).1

end TwoData

/-! ## Hidden rows -/

/-- The barrier hides what the contract hides exactly where the transforms of the columns that the moved conjuncts
read cannot fail on any row of the scan: there no moved conjunct can fail on a row, hidden or not, and the query gives
the same rows and errors on every data set that differs in hidden rows only and meets the condition too. -/
theorem hidden_rows_silent_iff (cc : CompiledContract) (stored : Bool) (params : Lookup String Value) (pred : Expr)
    (env : Env) :
    (PushedClean E cc stored params pred env ∧
      ∀ env', TransformsClean E cc stored params pred env' → SameButHidden E cc stored params pred env env' →
        outcome E cc stored params pred env' = outcome E cc stored params pred env) ↔
    TransformsClean E cc stored params pred env := by
  constructor
  · rintro ⟨hclean, _⟩
    exact (pushed_clean_iff ..).1 hclean
  · intro h
    have hclean := (pushed_clean_iff ..).2 h
    exact ⟨hclean, fun env' h' hsame => outcome_eq_of_visible hsame hclean ((pushed_clean_iff ..).2 h')⟩

/-- An enrichment as the plan it is. -/
def projecting : Enrichment := ⟨fun _ _ => .projection _ _ _, fun _ _ => rfl⟩

/-- A contract that shows what ten divided by a row's pay is, of the rows it admits. -/
def ratioContract : CompiledContract where
  name := "acme/pay"
  version := 1
  owner := none
  source := .parquet "pay"
  contractHash := "c1"
  compilationHash := "h1"
  functions := []
  decisions := []
  rowSchema := [⟨"owner", "Utf8", false⟩, ⟨"pay", "Int64", false⟩, ⟨"admitted", "Boolean", false⟩]
  enrich := []
  admits := [("open", .column "admitted")]
  admitsStored := [("open", .column "admitted")]
  projection := [("owner", .column "owner"), ("ratio", .op (.binary (.other "/")) [.literal (.int 10), .column "pay"])]
  projectionStored :=
    [("owner", .column "owner"), ("ratio", .op (.binary (.other "/")) [.literal (.int 10), .column "pay"])]
  flags := []
  derived := []
  guarantees := []
  exposedSchema := [⟨"owner", "Utf8", false⟩, ⟨"ratio", "Int64", true⟩]

/-- `ratio > 1`, which cannot fail as the caller wrote it. -/
def ratioAboveOne : Expr := .op (.binary .gt) [.column "ratio", .literal (.int 1)]

/-- `payRows` without its hidden row. -/
def payRowsShown : Env where
  kernel := divisionKernel
  read _ _ := [[("owner", .str "ann"), ("pay", .int 5), ("admitted", .bool true)]]

/-- The caller's comparison reaches the hidden row through the contract's transform, and its error tells the two data
sets apart. -/
theorem ratio_fails_on_hidden_row :
    ¬ PushedClean projecting ratioContract true Lookup.empty ratioAboveOne payRows ∧
    SameButHidden projecting ratioContract true Lookup.empty ratioAboveOne payRowsShown payRows ∧
    (outcome projecting ratioContract true Lookup.empty ratioAboveOne payRows).errs = ["Divide by zero error"] ∧
    (outcome projecting ratioContract true Lookup.empty ratioAboveOne payRowsShown).errs = [] := by
  refine ⟨fun h => ?_, ⟨rfl, ?_, ?_, ?_, rfl, by decide⟩, by decide, by decide⟩
  · have hmoved : ratioAboveOne ∈ movedConjuncts ratioAboveOne :=
      List.mem_filter.2 ⟨List.mem_singleton.2 rfl, by decide⟩
    exact absurd (h ratioAboveOne hmoved [("owner", .str "bob"), ("pay", .int 0), ("admitted", .bool false)]
      (by decide)) (by decide)
  · intro c hc
    obtain rfl := List.mem_singleton.1 hc
    exact fun _ _ => rfl
  · rintro _ ⟨⟩
    exact fun _ _ => rfl
  · intro e he
    rcases List.mem_cons.1 he with rfl | he
    · exact fun _ _ => rfl
    · obtain rfl := List.mem_singleton.1 he
      exact fun _ _ => rfl

end Peql
