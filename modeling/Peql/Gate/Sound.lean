import Peql.Gate.Barrier

/-!
# The barrier keeps meaning

What `GateBarrier::rewrite` does to what a plan computes. A predicate is its conjuncts (`isTrue_splitConjunction`,
`errs_splitConjunction`), so a filter on a gate keeps the same rows when the conjuncts that cannot fail
(`cannotFail_clean`) are asked below the gate, and the others are asked on fewer rows (`barrier_refines`). From that one
node, by induction on the plan, a rewritten plan computes the same rows with no error of its own (`rewrite_refines`,
`execute_rewrite`).
-/

namespace Peql

open Reported

variable {env : Env} {outer row : Row}

/-! ## Conjuncts -/

/-- A conjunction's value is of its two sides. -/
theorem eval_and (a b : Expr) :
    ((Expr.and a b).eval env outer row).val = (a.eval env outer row).val.and3 (b.eval env outer row).val := rfl

/-- Both sides of a conjunction are computed. -/
theorem errs_and (a b : Expr) :
    ((Expr.and a b).eval env outer row).errs = (a.eval env outer row).errs ++ (b.eval env outer row).errs := by
  simp [Expr.and, Expr.eval, evals, Op.apply, Operator.apply]

/-- A predicate is true where its conjuncts are. -/
theorem isTrue_splitConjunction (e : Expr) :
    (e.eval env outer row).val.isTrue = e.splitConjunction.all fun c => (c.eval env outer row).val.isTrue := by
  fun_induction Expr.splitConjunction e with
  | case1 a b iha ihb =>
    rw [List.all_append, ← iha, ← ihb, ← Value.isTrue_and3]
    rfl
  | case2 _ a ih => exact ih
  | case3 e => simp

/-- It raises what they raise. -/
theorem errs_splitConjunction (e : Expr) :
    (e.eval env outer row).errs = e.splitConjunction.flatMap fun c => (c.eval env outer row).errs := by
  fun_induction Expr.splitConjunction e with
  | case1 a b iha ihb =>
    rw [List.flatMap_append, ← iha, ← ihb]
    exact errs_and a b
  | case2 n a ih =>
    rw [← ih]
    simp [Expr.eval, evals, Op.apply]
  | case3 e => simp

theorem splitConjunction_ne_nil (e : Expr) : e.splitConjunction ≠ [] := by
  fun_induction Expr.splitConjunction e with
  | case1 a b iha ihb => simp [iha]
  | case2 n a ih => exact ih
  | case3 e => simp

/-- Conjuncts put together split into their own conjuncts. -/
theorem splitConjunction_foldl (es : List Expr) (e : Expr) :
    (es.foldl Expr.and e).splitConjunction = e.splitConjunction ++ es.flatMap Expr.splitConjunction := by
  induction es generalizing e with
  | nil => simp
  | cons x xs ih =>
    rw [List.foldl_cons, ih (e.and x), List.flatMap_cons, ← List.append_assoc]
    rfl

/-- A conjunct is not a conjunction again. -/
theorem splitConjunction_of_mem {e c : Expr} (h : c ∈ e.splitConjunction) : c.splitConjunction = [c] := by
  fun_induction Expr.splitConjunction e with
  | case1 a b iha ihb =>
    rcases List.mem_append.1 h with h | h
    · exact iha h
    · exact ihb h
  | case2 n a ih => exact ih h
  | case3 e hand halias =>
    rw [List.mem_singleton.1 h]
    unfold Expr.splitConjunction
    split
    · exact absurd rfl (hand _ _)
    · exact absurd rfl (halias _ _)
    · rfl

theorem flatMap_splitConjunction {e : Expr} {es : List Expr} (h : ∀ c ∈ es, c ∈ e.splitConjunction) :
    es.flatMap Expr.splitConjunction = es := by
  induction es with
  | nil => rfl
  | cons c es ih =>
    rw [List.flatMap_cons, splitConjunction_of_mem (h c (List.mem_cons_self ..)),
      ih fun c hc => h c (List.mem_cons_of_mem _ hc)]
    rfl

/-- No predicate is made of no conjuncts only. -/
theorem conjunction_eq_none {es : List Expr} : conjunction es = none ↔ es = [] := by
  cases es <;> simp [conjunction]

/-- What two conjuncts pass on to their `AND`, a list of conjuncts passes on to their conjunction. -/
theorem conjunction_induction {P : Expr → Prop} (hand : ∀ a b, P a → P b → P (a.and b)) {es : List Expr} {e : Expr}
    (hes : ∀ c ∈ es, P c) (h : conjunction es = some e) : P e := by
  have hfold : ∀ (es : List Expr) (e : Expr), P e → (∀ c ∈ es, P c) → P (es.foldl Expr.and e) := by
    intro es
    induction es with
    | nil => exact fun e he _ => he
    | cons c es ih =>
      intro e he hes
      exact ih _ (hand e c he (hes c (List.mem_cons_self ..))) fun x hx => hes x (List.mem_cons_of_mem _ hx)
  cases es with
  | nil => cases h
  | cons c es =>
    obtain rfl : es.foldl Expr.and c = e := by simpa [conjunction] using h
    exact hfold es c (hes c (List.mem_cons_self ..)) fun x hx => hes x (List.mem_cons_of_mem _ hx)

/-- Some conjuncts of a predicate, put together again, are those conjuncts. -/
theorem splitConjunction_conjunction {pred e : Expr} {p : Expr → Bool}
    (h : conjunction (pred.splitConjunction.filter p) = some e) :
    e.splitConjunction = pred.splitConjunction.filter p := by
  have hmem : ∀ c ∈ pred.splitConjunction.filter p, c ∈ pred.splitConjunction := fun c hc => (List.mem_filter.1 hc).1
  cases hs : pred.splitConjunction.filter p with
  | nil => rw [hs] at h; cases h
  | cons c cs =>
    rw [hs] at h hmem
    obtain rfl : cs.foldl Expr.and c = e := by simpa [conjunction] using h
    rw [splitConjunction_foldl, splitConjunction_of_mem (hmem c (List.mem_cons_self ..)),
      flatMap_splitConjunction fun c hc => hmem c (List.mem_cons_of_mem _ hc)]
    rfl

/-! ## Predicates that cannot fail -/

/-- A safe operator has a value. -/
theorem Operator.apply_safe {o : Operator} (h : o.safe = true) (k : Kernel) (a b : Value) :
    ∃ v, o.apply k a b = .ok v := by
  cases o with
  | other name => cases h
  | eq | notEq | lt | ltEq | gt | gtEq | and | or | isDistinctFrom | isNotDistinctFrom => exact ⟨_, rfl⟩

/-- A node `cannot_fail` accepts has a value whatever its children's values. -/
theorem Op.apply_safe {f : Op} {args : List Expr} (h : f.safe args = true) (k : Kernel) (vs : List Value) :
    ∃ v, f.apply k vs = .ok v := by
  unfold Op.apply
  split
  case h_5 o a b => exact Operator.apply_safe h k a b
  case h_8 => cases h
  case h_10 => cases h
  all_goals exact ⟨_, rfl⟩

mutual

/-- An expression of safe nodes raises nothing. -/
theorem nodesSafe_clean : ∀ (e : Expr), e.nodes.all Expr.nodeSafe = true → (e.eval env outer row).errs = []
  | .column c, _ => rfl
  | .literal v, _ => rfl
  | .outerColumn _, h => by simp [Expr.nodes, Expr.nodeSafe] at h
  | .placeholder _, h => by simp [Expr.nodes, Expr.nodeSafe] at h
  | .cast ty e, h => by
    rw [Expr.nodes, List.all_cons, Bool.and_eq_true] at h
    have he := nodesSafe_clean e h.2
    have hl : e.isLiteral = true := h.1
    simp [Expr.eval, he, hl]
  | .op f args, h => by
    rw [Expr.nodes, List.all_cons, Bool.and_eq_true] at h
    have hargs := nodesSafe_evals_clean args h.2
    obtain ⟨v, hv⟩ := Op.apply_safe h.1 env.kernel (evals env args outer row).val
    simp [Expr.eval, hargs, hv]
  | .caseWhen c t e, h => by simp [Expr.nodes, Expr.nodeSafe] at h
  | .subquery kind args plan, h => by simp [Expr.nodes, Expr.nodeSafe] at h

theorem nodesSafe_evals_clean :
    ∀ (es : List Expr), (exprNodes es).all Expr.nodeSafe = true → (evals env es outer row).errs = []
  | [], _ => rfl
  | e :: es, h => by
    rw [exprNodes, List.all_append, Bool.and_eq_true] at h
    simp [evals, nodesSafe_clean e h.1, nodesSafe_evals_clean es h.2]

end

/-- `cannot_fail` is right: what it accepts raises no error on any row. -/
theorem cannotFail_clean {e : Expr} (h : e.cannotFail = true) : (e.eval env outer row).Clean :=
  nodesSafe_clean e h

/-! ## One node

`barrier_cases` says all the rule does at a node; every law of the rewriting is derived from it. -/

/-- A filter right on a gate, with a conjunct that crosses it. -/
def Plan.crosses : Plan → Bool
  | .filter pred (.gate _ _ _) => pred.splitConjunction.any Expr.cannotFail
  | _ => false

/-- What the barrier does with a node: nothing, or it moves the conjuncts that cannot fail below the gate. -/
theorem barrier_cases (node : Plan) :
    (node.crosses = false ∧ barrier node = node) ∨
    ∃ pred contract hash input below, node = .filter pred (.gate contract hash input) ∧ node.crosses = true ∧
      conjunction (pred.splitConjunction.filter Expr.cannotFail) = some below ∧
      ((∃ above, conjunction (pred.splitConjunction.filter fun e => !e.cannotFail) = some above ∧
          barrier node = .filter above (.gate contract hash (.filter below input))) ∨
        (pred.splitConjunction.filter (fun e => !e.cannotFail) = [] ∧
          barrier node = .gate contract hash (.filter below input))) := by
  unfold barrier
  split
  case h_2 hnode =>
    refine .inl ⟨?_, rfl⟩
    unfold Plan.crosses
    split
    · exact absurd rfl (hnode _ _ _ _)
    · rfl
  case h_1 pred contract hash input =>
    split
    case h_1 hnone =>
      refine .inl ⟨?_, rfl⟩
      have hnil := conjunction_eq_none.1 hnone
      simpa [Plan.crosses, List.any_eq_false, List.filter_eq_nil_iff] using hnil
    case h_2 below hbelow =>
      refine .inr ⟨pred, contract, hash, input, below, rfl, ?_, hbelow, ?_⟩
      · have hne : pred.splitConjunction.filter Expr.cannotFail ≠ [] := by
          intro hnil
          rw [hnil] at hbelow
          cases hbelow
        obtain ⟨c, hc⟩ := List.exists_mem_of_ne_nil _ hne
        exact List.any_eq_true.2 ⟨c, List.mem_filter.1 hc⟩
      · dsimp only
        split
        · exact .inl ⟨_, ‹_›, rfl⟩
        · exact .inr ⟨conjunction_eq_none.1 ‹_›, rfl⟩

/-- A conjunction is kept by the rows that keep each conjunct. -/
theorem isTrue_conjunction {pred e : Expr} {p : Expr → Bool}
    (h : conjunction (pred.splitConjunction.filter p) = some e) :
    (e.eval env outer row).val.isTrue =
      (pred.splitConjunction.filter p).all fun c => (c.eval env outer row).val.isTrue := by
  rw [isTrue_splitConjunction, splitConjunction_conjunction h]

/-- The conjuncts below a gate raise no error. -/
theorem below_clean {pred below : Expr}
    (h : conjunction (pred.splitConjunction.filter Expr.cannotFail) = some below) :
    (below.eval env outer row).errs = [] := by
  rw [errs_splitConjunction, splitConjunction_conjunction h, List.flatMap_eq_nil_iff]
  intro c hc
  exact cannotFail_clean (List.mem_filter.1 hc).2

/-- The conjuncts left above a gate raise no error the whole predicate does not raise. -/
theorem above_errs {pred above : Expr} {p : Expr → Bool}
    (h : conjunction (pred.splitConjunction.filter p) = some above) :
    (above.eval env outer row).errs ⊆ (pred.eval env outer row).errs := by
  rw [errs_splitConjunction, splitConjunction_conjunction h, errs_splitConjunction (e := pred)]
  intro x hx
  obtain ⟨c, hc, hx⟩ := List.mem_flatMap.1 hx
  exact List.mem_flatMap.2 ⟨c, (List.mem_filter.1 hc).1, hx⟩

/-- A row is kept by the whole predicate when it is kept below and above. -/
theorem all_partition {α : Type} (p q : α → Bool) (xs : List α) :
    xs.all q = ((xs.filter p).all q && (xs.filter fun x => !p x).all q) := by
  induction xs with
  | nil => rfl
  | cons x xs ih =>
    rw [List.all_cons, ih, List.filter_cons, List.filter_cons]
    cases p x <;> simp [Bool.and_assoc, Bool.and_left_comm]

/-- One node rewritten computes the same rows, and raises no error of its own. -/
theorem barrier_refines (node : Plan) (outer : Row) :
    Refines ((barrier node).run env outer) (node.run env outer) := by
  obtain ⟨_, heq⟩ | ⟨pred, contract, hash, input, below, rfl, _, hbelow, habove⟩ := barrier_cases node
  · rw [heq]
    exact Refines.refl _
  -- rows kept below, in terms of the rows of the gate's input
  have hrows : ∀ row, (pred.eval env outer row).val.isTrue =
      ((below.eval env outer row).val.isTrue &&
        (pred.splitConjunction.filter fun e => !e.cannotFail).all fun c => (c.eval env outer row).val.isTrue) := by
    intro row
    rw [isTrue_splitConjunction, isTrue_conjunction hbelow]
    exact all_partition _ _ _
  have hnone : (input.run env outer).val.flatMap (fun row => (below.eval env outer row).errs) = [] :=
    List.flatMap_eq_nil_iff.2 fun row _ => below_clean hbelow
  obtain ⟨above, hsome, heq⟩ | ⟨hnil, heq⟩ := habove
  · rw [heq]
    constructor
    · simp only [Plan.run, bind_val, filter_val, map_val, List.filter_filter]
      refine List.filter_congr fun row _ => ?_
      rw [hrows row, isTrue_conjunction hsome, Bool.and_comm]
    · simp only [Plan.run, bind_errs, bind_val, filter_errs, filter_val, map_errs, map_val, hnone,
        List.append_nil]
      refine List.append_subset.2 ⟨List.subset_append_left _ _, fun x hx => ?_⟩
      obtain ⟨row, hrow, hx⟩ := List.mem_flatMap.1 hx
      exact List.mem_append_right _
        (List.mem_flatMap.2 ⟨row, (List.mem_filter.1 hrow).1, above_errs hsome hx⟩)
  · rw [heq]
    constructor
    · simp only [Plan.run, bind_val, filter_val, map_val]
      refine List.filter_congr fun row _ => ?_
      rw [hrows row, hnil, List.all_nil, Bool.and_true]
    · simp only [Plan.run, bind_errs, filter_errs, map_errs, hnone, List.append_nil]
      exact List.subset_append_left _ _

/-! ## The whole rewriting -/

/-- A literal stays one. -/
theorem isLiteral_rewrite (e : Expr) : e.rewrite.isLiteral = e.isLiteral := by
  cases e <;> rfl

theorem rewriteExprs_eq_map : ∀ es : List Expr, rewriteExprs es = es.map Expr.rewrite
  | [] => rfl
  | e :: es => by rw [rewriteExprs, rewriteExprs_eq_map es, List.map_cons]

mutual

/-- A rewritten expression has the same value, and raises no error of its own. -/
theorem Expr.rewrite_refines : ∀ (e : Expr) (outer row : Row),
    Refines (e.rewrite.eval env outer row) (e.eval env outer row)
  | .column _, _, _ => Refines.refl _
  | .outerColumn _, _, _ | .placeholder _, _, _ => Refines.refl _
  | .literal _, _, _ => Refines.refl _
  | .cast ty e, outer, row => by
    simp only [Expr.rewrite, Expr.eval, isLiteral_rewrite]
    exact Refines.bind (e.rewrite_refines outer row) fun _ => Refines.refl _
  | .op f args, outer, row => by
    simp only [Expr.rewrite, Expr.eval]
    exact Refines.bind (rewriteExprs_refines args outer row) fun _ => Refines.refl _
  | .caseWhen c t e, outer, row => by
    simp only [Expr.rewrite, Expr.eval]
    refine Refines.bind (c.rewrite_refines outer row) fun v => ?_
    split
    · exact t.rewrite_refines outer row
    · exact e.rewrite_refines outer row
  | .subquery kind args plan, outer, row => by
    simp only [Expr.rewrite, Expr.eval]
    exact Refines.bind (rewriteExprs_refines args outer row) fun _ =>
      Refines.bind (plan.rewrite_refines row) fun _ => Refines.refl _

/-- Expressions rewritten raise no more. -/
theorem rewriteExprs_refines : ∀ (es : List Expr) (outer row : Row),
    Refines (evals env (rewriteExprs es) outer row) (evals env es outer row)
  | [], _, _ => Refines.refl _
  | e :: es, outer, row => by
    simp only [rewriteExprs, evals]
    exact Refines.bind (e.rewrite_refines outer row) fun _ => Refines.map _ (rewriteExprs_refines es outer row)

/-- A rewritten plan has the same rows, and raises no error of its own. -/
theorem Plan.rewrite_refines : ∀ (p : Plan) (outer : Row), Refines (p.rewrite.run env outer) (p.run env outer)
  | .scan contract table, outer => barrier_refines _ outer
  | .filter pred input, outer => by
    refine Refines.trans (barrier_refines _ outer) ?_
    simp only [Plan.run]
    exact Refines.bind (input.rewrite_refines outer)
      (Refines.filter fun row => Refines.map _ (pred.rewrite_refines outer row))
  | .projection names es input, outer => by
    refine Refines.trans (barrier_refines _ outer) ?_
    simp only [Plan.run]
    exact Refines.bind (input.rewrite_refines outer)
      (Refines.traverse fun row => Refines.map _ (rewriteExprs_refines es outer row))
  | .gate contract hash input, outer => input.rewrite_refines outer
  | .join on left right, outer => by
    refine Refines.trans (barrier_refines _ outer) ?_
    simp only [Plan.run]
    refine Refines.bind (left.rewrite_refines outer) fun ls => Refines.bind (right.rewrite_refines outer) fun rs => ?_
    exact Refines.filter (fun row => Refines.map _ (on.rewrite_refines outer row)) _
  | .relation kind es inputs, outer => by
    refine Refines.trans (barrier_refines _ outer) ?_
    simp only [Plan.run]
    refine Refines.bind (rewritePlans_refines inputs outer) fun tables => Refines.bind ?_ fun _ => Refines.refl _
    exact Refines.traverse
      (Refines.traverse fun row => Refines.map _ (rewriteExprs_refines es outer row)) tables

/-- Neither do plans. -/
theorem rewritePlans_refines : ∀ (ps : List Plan) (outer : Row),
    Refines (runs env (rewritePlans ps) outer) (runs env ps outer)
  | [], _ => Refines.refl _
  | p :: ps, outer => by
    simp only [rewritePlans, runs]
    exact Refines.bind (p.rewrite_refines outer) fun _ => Refines.map _ (rewritePlans_refines ps outer)

end

/-! ## Constants

A rewritten plan folds no constant the given plan does not fold. -/

theorem constants_of_mem_split {e c : Expr} (h : c ∈ e.splitConjunction) : c.constants ⊆ e.constants := by
  fun_induction Expr.splitConjunction e with
  | case1 a b iha ihb =>
    simp only [Expr.constants, exprConstants, List.append_nil]
    rcases List.mem_append.1 h with h | h
    · exact fun x hx => List.mem_append_left _ (iha h hx)
    · exact fun x hx => List.mem_append_right _ (ihb h hx)
  | case2 n a ih =>
    simp only [Expr.constants, exprConstants, List.append_nil]
    exact ih h
  | case3 e => rw [List.mem_singleton.1 h]; exact List.Subset.refl _

/-- The constants of a predicate are its conjuncts'. -/
theorem constants_splitConjunction (e : Expr) : e.constants = e.splitConjunction.flatMap Expr.constants := by
  fun_induction Expr.splitConjunction e with
  | case1 a b iha ihb => simp [Expr.constants, exprConstants, iha, ihb]
  | case2 n a ih => simp [Expr.constants, exprConstants, ih]
  | case3 e => simp

/-- Some of its conjuncts have no others. -/
theorem constants_conjunction {pred e : Expr} {p : Expr → Bool}
    (h : conjunction (pred.splitConjunction.filter p) = some e) : e.constants ⊆ pred.constants := by
  rw [constants_splitConjunction, splitConjunction_conjunction h]
  intro x hx
  obtain ⟨c, hc, hx⟩ := List.mem_flatMap.1 hx
  exact constants_of_mem_split (List.mem_filter.1 hc).1 hx

/-- A move makes no constants. -/
theorem barrier_constants (node : Plan) : (barrier node).constants ⊆ node.constants := by
  obtain ⟨_, heq⟩ | ⟨pred, contract, hash, input, below, rfl, _, hbelow, habove⟩ := barrier_cases node
  · rw [heq]
    exact List.Subset.refl _
  have hb := constants_conjunction hbelow
  obtain ⟨above, hsome, heq⟩ | ⟨_, heq⟩ := habove
  · have ha := constants_conjunction hsome
    rw [heq]
    simp only [Plan.constants]
    intro x hx
    rcases List.mem_append.1 hx with hx | hx
    · exact List.mem_append_left _ (ha hx)
    · rcases List.mem_append.1 hx with hx | hx
      · exact List.mem_append_left _ (hb hx)
      · exact List.mem_append_right _ hx
  · rw [heq]
    simp only [Plan.constants]
    exact List.append_subset.2 ⟨fun x hx => List.mem_append_left _ (hb hx), List.subset_append_right _ _⟩

theorem append_subset_append {α : Type} {a a' b b' : List α} (h : a' ⊆ a) (h' : b' ⊆ b) : a' ++ b' ⊆ a ++ b :=
  List.append_subset.2 ⟨fun _ hx => List.mem_append_left _ (h hx), fun _ hx => List.mem_append_right _ (h' hx)⟩

mutual

/-- The rewrite makes none. -/
theorem Expr.rewrite_constants : ∀ e : Expr, e.rewrite.constants ⊆ e.constants
  | .column _ | .outerColumn _ | .placeholder _ | .literal _ => List.Subset.refl _
  | .cast ty e => by
    simp only [Expr.rewrite, Expr.constants]
    refine append_subset_append ?_ e.rewrite_constants
    cases e <;> exact List.Subset.refl _
  | .op _ args => by
    simp only [Expr.rewrite, Expr.constants]
    exact rewriteExprs_constants args
  | .caseWhen c t e => by
    simp only [Expr.rewrite, Expr.constants]
    exact append_subset_append (append_subset_append c.rewrite_constants t.rewrite_constants) e.rewrite_constants
  | .subquery _ args plan => by
    simp only [Expr.rewrite, Expr.constants]
    exact append_subset_append (rewriteExprs_constants args) plan.rewrite_constants

theorem rewriteExprs_constants : ∀ es : List Expr, exprConstants (rewriteExprs es) ⊆ exprConstants es
  | [] => List.Subset.refl _
  | e :: es => by
    simp only [rewriteExprs, exprConstants]
    exact append_subset_append e.rewrite_constants (rewriteExprs_constants es)

theorem Plan.rewrite_constants : ∀ p : Plan, p.rewrite.constants ⊆ p.constants
  | .scan _ _ => barrier_constants _
  | .filter pred input => by
    refine List.Subset.trans (barrier_constants _) ?_
    simp only [Plan.constants]
    exact append_subset_append pred.rewrite_constants input.rewrite_constants
  | .projection _ es input => by
    refine List.Subset.trans (barrier_constants _) ?_
    simp only [Plan.constants]
    exact append_subset_append (rewriteExprs_constants es) input.rewrite_constants
  | .gate _ _ input => input.rewrite_constants
  | .join on left right => by
    refine List.Subset.trans (barrier_constants _) ?_
    simp only [Plan.constants]
    exact append_subset_append (append_subset_append on.rewrite_constants left.rewrite_constants)
      right.rewrite_constants
  | .relation _ es inputs => by
    refine List.Subset.trans (barrier_constants _) ?_
    simp only [Plan.constants]
    exact append_subset_append (rewriteExprs_constants es) (rewritePlans_constants inputs)

theorem rewritePlans_constants : ∀ ps : List Plan, planConstants (rewritePlans ps) ⊆ planConstants ps
  | [] => List.Subset.refl _
  | p :: ps => by
    simp only [rewritePlans, planConstants]
    exact append_subset_append p.rewrite_constants (rewritePlans_constants ps)

end

/-- A rewritten query gives the same rows, and raises no error of its own. -/
theorem execute_rewrite (env : Env) (p : Plan) : Refines (p.rewrite.execute env) (p.execute env) := by
  obtain ⟨hval, herrs⟩ : Refines (p.rewrite.run env []) (p.run env []) := p.rewrite_refines []
  refine ⟨hval, append_subset_append (fun x hx => ?_) herrs⟩
  obtain ⟨c, hc, hx⟩ := List.mem_flatMap.1 hx
  exact List.mem_flatMap.2 ⟨c, p.rewrite_constants hc, hx⟩

end Peql
