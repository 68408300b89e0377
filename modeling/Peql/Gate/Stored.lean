import Peql.Gate.View

/-!
# Expressions in their stored form

A contract's view is compiled twice: over the live rules, and over columns that were computed when the rows were
written. In the stored form of an expression a column stands for the expression it was computed by (`Expr.subst`). On a
row that has the values of those expressions the stored form gives what the live form gives, and raises what it raises
(`eval_stored`): an expression is computed of the cells it reads (`eval_of_columns`), and one that raised nothing when a
row was written, with no caller's parameters, gives the same under any caller's (`eval_bind_of_clean`).
-/

namespace Peql

open Reported

/-- Computed of one row: it holds no subquery. -/
def Expr.flat (e : Expr) : Bool := e.nodes.all fun
  | .subquery _ _ _ => false
  | _ => true

/-- A constant of one caller's plan, which a cast folds. -/
def Expr.isConstant : Expr → Bool
  | .literal _ | .placeholder _ => true
  | _ => false

theorem isLiteral_bind (params : Lookup String Value) {e : Expr} (h : e.isConstant = false) :
    (e.bind params).isLiteral = false := by
  cases e with
  | literal _ => cases h
  | placeholder _ => cases h
  | _ => rfl

variable {env env' : Env} {outer row row' : Row}

theorem flat_op {f : Op} {args : List Expr} (h : (Expr.op f args).flat = true) :
    ∀ e ∈ args, e.flat = true := by
  have hall : (exprNodes args).all (fun
      | .subquery _ _ _ => false
      | _ => true) = true := by
    unfold Expr.flat at h
    rw [Expr.nodes, List.all_cons, Bool.and_eq_true] at h
    exact h.2
  clear h
  induction args with
  | nil => exact fun _ he => nomatch he
  | cons a args ih =>
    rw [exprNodes, List.all_append, Bool.and_eq_true] at hall
    intro e he
    rcases List.mem_cons.1 he with rfl | he
    · exact hall.1
    · exact ih hall.2 e he

theorem flat_cast {ty : String} {e : Expr} (h : (Expr.cast ty e).flat = true) : e.flat = true := by
  unfold Expr.flat at h
  rw [Expr.nodes, List.all_cons, Bool.and_eq_true] at h
  exact h.2

theorem flat_caseWhen {c t e : Expr} (h : (Expr.caseWhen c t e).flat = true) :
    c.flat = true ∧ t.flat = true ∧ e.flat = true := by
  unfold Expr.flat at h
  rw [Expr.nodes, List.all_cons, Bool.and_eq_true, List.all_append, List.all_append, Bool.and_eq_true,
    Bool.and_eq_true] at h
  exact ⟨h.2.1.1, h.2.1.2, h.2.2⟩

theorem flat_subquery {kind : String} {args : List Expr} {plan : Plan} :
    (Expr.subquery kind args plan).flat = false := rfl

/-! ## What an expression is computed of -/

mutual

/-- An expression gives the same on rows that agree in the columns it reads. -/
theorem eval_of_columns (hk : env'.kernel = env.kernel) : ∀ e : Expr, e.flat = true →
    (∀ c ∈ e.columns, row'.get c = row.get c) → e.eval env' outer row' = e.eval env outer row
  | .column c, _, h => by
    rw [Expr.eval, Expr.eval, h c (List.mem_singleton_self c)]
  | .outerColumn _, _, _ => rfl
  | .placeholder _, _, _ => rfl
  | .literal _, _, _ => rfl
  | .cast ty e, hf, h => by
    rw [Expr.eval, Expr.eval, eval_of_columns hk e (flat_cast hf) h, hk]
  | .op f args, hf, h => by
    rw [Expr.eval, Expr.eval, evals_of_columns hk args (flat_op hf) h, hk]
  | .caseWhen c t e, hf, h => by
    obtain ⟨hc, ht, he⟩ := flat_caseWhen hf
    rw [Expr.eval, Expr.eval, eval_of_columns hk c hc fun x hx => h x (List.mem_append_left _ hx),
      eval_of_columns hk t ht fun x hx => h x (List.mem_append_right _ (List.mem_append_left _ hx)),
      eval_of_columns hk e he fun x hx => h x (List.mem_append_right _ (List.mem_append_right _ hx))]
  | .subquery _ _ _, hf, _ => nomatch flat_subquery.symm.trans hf

theorem evals_of_columns (hk : env'.kernel = env.kernel) : ∀ es : List Expr, (∀ e ∈ es, e.flat = true) →
    (∀ c ∈ exprColumns es, row'.get c = row.get c) → evals env' es outer row' = evals env es outer row
  | [], _, _ => rfl
  | e :: es, hf, h => by
    rw [evals, evals, eval_of_columns hk e (hf e List.mem_cons_self) fun c hc => h c (List.mem_append_left _ hc),
      evals_of_columns hk es (fun x hx => hf x (List.mem_cons_of_mem _ hx)) fun c hc =>
        h c (List.mem_append_right _ hc)]

end

mutual

/-- An expression that raises nothing with no parameters bound is the same with any. -/
theorem eval_bind_of_clean (params : Lookup String Value) : ∀ e : Expr, e.flat = true →
    (e.eval env outer row).Clean → (e.bind params).eval env outer row = e.eval env outer row
  | .column _, _, _ => rfl
  | .outerColumn _, _, _ => rfl
  | .placeholder _, _, h => nomatch h
  | .literal _, _, _ => rfl
  | .cast ty e, hf, h => by
    rw [Expr.eval] at h
    have he : (e.eval env outer row).Clean := (List.append_eq_nil_iff.1 h).1
    have hl : (e.bind params).isLiteral = e.isLiteral := by
      cases e with
      | placeholder _ => exact nomatch he
      | _ => rfl
    rw [Expr.bind, Expr.eval, Expr.eval, eval_bind_of_clean params e (flat_cast hf) he, hl]
  | .op f args, hf, h => by
    rw [Expr.eval] at h
    rw [Expr.bind, Expr.eval, Expr.eval, evals_bind_of_clean params args (flat_op hf) (List.append_eq_nil_iff.1 h).1]
  | .caseWhen c t e, hf, h => by
    obtain ⟨hfc, hft, hfe⟩ := flat_caseWhen hf
    rw [Expr.eval] at h
    obtain ⟨hc, hbranch⟩ := List.append_eq_nil_iff.1 h
    rw [Expr.bind, Expr.eval, Expr.eval, eval_bind_of_clean params c hfc hc]
    refine bind_congr ?_
    dsimp only at hbranch ⊢
    split
    · next hv => exact eval_bind_of_clean params t hft (by rwa [if_pos hv] at hbranch)
    · next hv => exact eval_bind_of_clean params e hfe (by rwa [if_neg hv] at hbranch)
  | .subquery _ _ _, hf, _ => nomatch flat_subquery.symm.trans hf

theorem evals_bind_of_clean (params : Lookup String Value) : ∀ es : List Expr, (∀ e ∈ es, e.flat = true) →
    (evals env es outer row).Clean → evals env (bindExprs params es) outer row = evals env es outer row
  | [], _, _ => rfl
  | e :: es, hf, h => by
    rw [evals] at h
    obtain ⟨he, hes⟩ := List.append_eq_nil_iff.1 h
    rw [bindExprs, evals, evals, eval_bind_of_clean params e (hf e List.mem_cons_self) he,
      evals_bind_of_clean params es (fun x hx => hf x (List.mem_cons_of_mem _ hx)) hes]

end

/-! ## The stored form -/

mutual

/-- The live form of an expression on one row is its stored form on another that has, in each column the stored form
reads, the value of the expression it stands for. -/
theorem eval_stored (hk : env'.kernel = env.kernel) (params : Lookup String Value) {σ : String → Expr}
    (hσ : ∀ c, (σ c).isConstant = false) : ∀ e : Expr, e.flat = true →
    (∀ c ∈ e.columns, ((σ c).bind params).eval env' outer row' = .pure (row.get c)) →
    ((e.subst σ).bind params).eval env' outer row' = (e.bind params).eval env outer row
  | .column c, _, h => h c (List.mem_singleton_self c)
  | .outerColumn _, _, _ => rfl
  | .placeholder id, _, _ => by
    rw [Expr.subst, Expr.bind]
    cases params id <;> rfl
  | .literal _, _, _ => rfl
  | .cast ty e, hf, h => by
    have hl : ((e.subst σ).bind params).isLiteral = (e.bind params).isLiteral := by
      cases e with
      | column c => exact isLiteral_bind params (hσ c)
      | _ => rfl
    rw [Expr.subst, Expr.bind, Expr.eval, eval_stored hk params hσ e (flat_cast hf) h, hl, hk]
    rfl
  | .op f args, hf, h => by
    rw [Expr.subst, Expr.bind, Expr.eval, evals_stored hk params hσ args (flat_op hf) h, hk]
    rfl
  | .caseWhen c t e, hf, h => by
    obtain ⟨hc, ht, he⟩ := flat_caseWhen hf
    rw [Expr.subst, Expr.bind, Expr.eval,
      eval_stored hk params hσ c hc fun x hx => h x (List.mem_append_left _ hx),
      eval_stored hk params hσ t ht fun x hx => h x (List.mem_append_right _ (List.mem_append_left _ hx)),
      eval_stored hk params hσ e he fun x hx => h x (List.mem_append_right _ (List.mem_append_right _ hx))]
    rfl
  | .subquery _ _ _, hf, _ => nomatch flat_subquery.symm.trans hf

theorem evals_stored (hk : env'.kernel = env.kernel) (params : Lookup String Value) {σ : String → Expr}
    (hσ : ∀ c, (σ c).isConstant = false) : ∀ es : List Expr, (∀ e ∈ es, e.flat = true) →
    (∀ c ∈ exprColumns es, ((σ c).bind params).eval env' outer row' = .pure (row.get c)) →
    evals env' (bindExprs params (substExprs σ es)) outer row' = evals env (bindExprs params es) outer row
  | [], _, _ => rfl
  | e :: es, hf, h => by
    rw [substExprs, bindExprs, evals,
      eval_stored hk params hσ e (hf e List.mem_cons_self) fun c hc => h c (List.mem_append_left _ hc),
      evals_stored hk params hσ es (fun x hx => hf x (List.mem_cons_of_mem _ hx)) fun c hc =>
        h c (List.mem_append_right _ hc)]
    rfl

end

/-- What two conjuncts each have in common with their other forms, lists of conjuncts have as conjunctions. -/
theorem conjunction_forall₂ {P : Expr → Expr → Prop}
    (hand : ∀ a a' b b', P a a' → P b b' → P (a.and b) (a'.and b')) {es es' : List Expr} (h : List.Forall₂ P es es') :
    Option.Rel P (conjunction es) (conjunction es') := by
  have hfold : ∀ {es es' : List Expr}, List.Forall₂ P es es' → ∀ {e e' : Expr}, P e e' →
      P (es.foldl Expr.and e) (es'.foldl Expr.and e') := by
    intro es es' h
    induction h with
    | nil => exact fun he => he
    | cons hx _ ih => exact fun he => ih (hand _ _ _ _ he hx)
  cases h with
  | nil => exact .none
  | cons he hes => exact .some (hfold hes he)

end Peql
