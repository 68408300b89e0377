import Peql.Gate.Sound

/-!
# The barrier keeps gating

Where `GateBarrier::rewrite` leaves what the gates are for. One walk over the plan (`Plan.marks`) lists its gates, its
scans with the gate each stands under, and the filter conjuncts that can fail with the gates above them; the rewriting
keeps the list (`rewrite_marks`), and the check of the physical plan reads nothing else (`ensureGated_physical`). A
second rewriting finds nothing to move (`normal_rewrite`), unless a conjunct crossed a gate onto another.
-/

namespace Peql

open Reported

/-! ## Gates, scans and fallible conjuncts -/

mutual

/-- The rewrite changes the plans of subqueries alone, which no node's safety reads. -/
theorem nodesSafe_rewrite : ∀ e : Expr, e.rewrite.nodes.all Expr.nodeSafe = e.nodes.all Expr.nodeSafe
  | .column _ | .outerColumn _ | .placeholder _ | .literal _ => rfl
  | .cast ty e => by
    simp [Expr.rewrite, Expr.nodes, Expr.nodeSafe, isLiteral_rewrite, nodesSafe_rewrite e]
  | .op f args => by
    have hsafe : f.safe (rewriteExprs args) = f.safe args := by
      cases f with
      | inList n =>
        simp only [Op.safe, rewriteExprs_eq_map, ← List.map_tail, List.all_map]
        exact List.all_congr rfl isLiteral_rewrite
      | _ => rfl
    simp [Expr.rewrite, Expr.nodes, Expr.nodeSafe, hsafe, nodesSafe_rewriteExprs args]
  | .caseWhen _ _ _ => by simp [Expr.rewrite, Expr.nodes, Expr.nodeSafe]
  | .subquery _ _ _ => by simp [Expr.rewrite, Expr.nodes, Expr.nodeSafe]

theorem nodesSafe_rewriteExprs :
    ∀ es : List Expr, (exprNodes (rewriteExprs es)).all Expr.nodeSafe = (exprNodes es).all Expr.nodeSafe
  | [] => rfl
  | e :: es => by
    simp only [rewriteExprs, exprNodes, List.all_append, nodesSafe_rewrite e, nodesSafe_rewriteExprs es]

end

/-- It changes no conjunct's safety. -/
theorem cannotFail_rewrite (e : Expr) : e.rewrite.cannotFail = e.cannotFail := nodesSafe_rewrite e

/-- A rewritten predicate has the rewritten conjuncts. -/
theorem splitConjunction_rewrite (e : Expr) :
    e.rewrite.splitConjunction = e.splitConjunction.map Expr.rewrite := by
  fun_induction Expr.splitConjunction e with
  | case1 a b iha ihb => simp [Expr.rewrite, rewriteExprs, Expr.splitConjunction, iha, ihb]
  | case2 n a ih => simp [Expr.rewrite, rewriteExprs, Expr.splitConjunction, ih]
  | case3 e hand halias =>
    rw [List.map_singleton]
    cases e with
    | op f args =>
      rw [Expr.rewrite, rewriteExprs_eq_map]
      unfold Expr.splitConjunction
      split
      · next a b heq =>
        obtain ⟨rfl, hargs⟩ := Expr.op.inj heq
        match args, hargs with
        | [x, y], _ => exact absurd rfl (hand x y)
      · next n a heq =>
        obtain ⟨rfl, hargs⟩ := Expr.op.inj heq
        match args, hargs with
        | [x], _ => exact absurd rfl (halias n x)
      · rfl
    | column | outerColumn | placeholder | literal | cast | caseWhen | subquery => rfl

/-- The conjuncts that may fail are those that did. -/
theorem filter_fallible_rewrite (pred : Expr) :
    pred.rewrite.splitConjunction.filter (fun e => !e.cannotFail) =
      (pred.splitConjunction.filter fun e => !e.cannotFail).map Expr.rewrite := by
  rw [splitConjunction_rewrite, List.filter_map]
  exact congrArg _ (List.filter_congr fun e _ => by simp [cannotFail_rewrite])

theorem any_cannotFail_rewrite (pred : Expr) :
    pred.rewrite.splitConjunction.any Expr.cannotFail = pred.splitConjunction.any Expr.cannotFail := by
  rw [splitConjunction_rewrite, List.any_map]
  exact List.any_congr rfl cannotFail_rewrite

theorem all_cannotFail_rewrite (pred : Expr) :
    pred.rewrite.splitConjunction.all Expr.cannotFail = pred.splitConjunction.all Expr.cannotFail := by
  rw [splitConjunction_rewrite, List.all_map]
  exact List.all_congr rfl cannotFail_rewrite

mutual

/-- An expression that cannot fail holds no subquery, so nothing of interest. -/
theorem nodesSafe_marks (above : List GateId) :
    ∀ e : Expr, e.nodes.all Expr.nodeSafe = true → e.marks above = []
  | .column _, _ | .literal _, _ => rfl
  | .outerColumn _, _ | .placeholder _, _ => rfl
  | .cast _ e, h => by
    rw [Expr.nodes, List.all_cons, Bool.and_eq_true] at h
    exact nodesSafe_marks above e h.2
  | .op _ args, h => by
    rw [Expr.nodes, List.all_cons, Bool.and_eq_true] at h
    exact nodesSafe_exprMarks above args h.2
  | .caseWhen _ _ _, h => by simp [Expr.nodes, Expr.nodeSafe] at h
  | .subquery _ _ _, h => by simp [Expr.nodes, Expr.nodeSafe] at h

/-- An expression that cannot fail leaves no marks. -/
theorem nodesSafe_exprMarks (above : List GateId) :
    ∀ es : List Expr, (exprNodes es).all Expr.nodeSafe = true → exprMarks above es = []
  | [], _ => rfl
  | e :: es, h => by
    rw [exprNodes, List.all_append, Bool.and_eq_true] at h
    rw [exprMarks, nodesSafe_marks above e h.1, nodesSafe_exprMarks above es h.2]
    rfl

end

/-- The marks of a predicate are its conjuncts'. -/
theorem marks_splitConjunction (above : List GateId) (e : Expr) :
    e.marks above = e.splitConjunction.flatMap (Expr.marks above) := by
  fun_induction Expr.splitConjunction e with
  | case1 a b iha ihb => simp [Expr.marks, exprMarks, iha, ihb]
  | case2 n a ih => simp [Expr.marks, exprMarks, ih]
  | case3 e => simp

/-- Elements that give nothing may be left out. -/
theorem flatMap_filter_of_nil {α β : Type} (p : α → Bool) (f : α → List β) (xs : List α)
    (h : ∀ x, p x = true → f x = []) : (xs.filter fun x => !p x).flatMap f = xs.flatMap f := by
  induction xs with
  | nil => rfl
  | cons x xs ih =>
    rw [List.filter_cons, List.flatMap_cons, ← ih]
    cases hp : p x with
    | true => simp [h x hp]
    | false => simp

/-- Without the conjuncts that cannot fail, a predicate holds the same subqueries. -/
theorem marks_rest (above : List GateId) (pred : Expr) :
    (pred.splitConjunction.filter fun e => !e.cannotFail).flatMap (Expr.marks above) = pred.marks above := by
  rw [marks_splitConjunction above pred]
  exact flatMap_filter_of_nil _ _ _ fun e he => nodesSafe_marks above e he

/-- A move across the gate leaves the marks: a conjunct that crosses has none. -/
theorem barrier_marks (above : List GateId) (node : Plan) : (barrier node).marks above = node.marks above := by
  obtain ⟨_, heq⟩ | ⟨pred, contract, hash, input, below, rfl, _, hbelow, habove⟩ := barrier_cases node
  · rw [heq]
  have hsplit := splitConjunction_conjunction hbelow
  have hbelowMarks : ∀ gs, below.marks gs = [] := by
    intro gs
    rw [marks_splitConjunction, hsplit, List.flatMap_eq_nil_iff]
    exact fun c hc => nodesSafe_marks gs c (List.mem_filter.1 hc).2
  obtain ⟨rest, hsome, heq⟩ | ⟨hnil, heq⟩ := habove
  · have hrest := splitConjunction_conjunction hsome
    have hrestMarks : rest.marks above = pred.marks above := by
      rw [marks_splitConjunction, hrest, marks_rest]
    rw [heq]
    simp [Plan.marks, hsplit, hbelowMarks, hrest, hrestMarks, List.filter_filter]
  · have hpredMarks : pred.marks above = [] := by
      rw [← marks_rest, hnil]
      rfl
    rw [heq]
    simp [Plan.marks, hsplit, hbelowMarks, hnil, hpredMarks, List.filter_filter]

mutual

/-- The rewrite rewrites the marks, one for one. -/
theorem Expr.rewrite_marks (above : List GateId) :
    ∀ e : Expr, e.rewrite.marks above = (e.marks above).map Mark.rewrite
  | .column _ | .outerColumn _ | .placeholder _ | .literal _ => rfl
  | .cast _ e => e.rewrite_marks above
  | .op _ args => rewriteExprs_marks above args
  | .caseWhen c t e => by
    simp only [Expr.rewrite, Expr.marks, List.map_append, c.rewrite_marks above, t.rewrite_marks above,
      e.rewrite_marks above]
  | .subquery _ args plan => by
    simp only [Expr.rewrite, Expr.marks, List.map_append, rewriteExprs_marks above args, plan.rewrite_marks above]

theorem rewriteExprs_marks (above : List GateId) :
    ∀ es : List Expr, exprMarks above (rewriteExprs es) = (exprMarks above es).map Mark.rewrite
  | [] => rfl
  | e :: es => by
    simp only [rewriteExprs, exprMarks, List.map_append, e.rewrite_marks above, rewriteExprs_marks above es]

/-- A rewritten plan holds the same gates, scans and fallible conjuncts, in the same places. -/
theorem Plan.rewrite_marks (above : List GateId) :
    ∀ p : Plan, p.rewrite.marks above = (p.marks above).map Mark.rewrite
  | .scan _ _ => rfl
  | .filter pred input => by
    rw [Plan.rewrite, barrier_marks]
    simp only [Plan.marks, filter_fallible_rewrite, List.map_append, List.map_map, pred.rewrite_marks above,
      input.rewrite_marks above]
    rfl
  | .projection _ es input => by
    rw [Plan.rewrite, barrier_marks]
    simp only [Plan.marks, List.map_append, rewriteExprs_marks above es, input.rewrite_marks above]
  | .gate contract hash input => by
    rw [Plan.rewrite, barrier_marks]
    simp only [Plan.marks, List.map_cons, input.rewrite_marks ((contract, hash) :: above)]
    rfl
  | .join on left right => by
    rw [Plan.rewrite, barrier_marks]
    simp only [Plan.marks, List.map_append, on.rewrite_marks above, left.rewrite_marks above,
      right.rewrite_marks above]
  | .relation _ es inputs => by
    rw [Plan.rewrite, barrier_marks]
    simp only [Plan.marks, List.map_append, rewriteExprs_marks above es, rewritePlans_marks above inputs]

theorem rewritePlans_marks (above : List GateId) :
    ∀ ps : List Plan, planMarks above (rewritePlans ps) = (planMarks above ps).map Mark.rewrite
  | [] => rfl
  | p :: ps => by
    simp only [rewritePlans, planMarks, List.map_append, p.rewrite_marks above, rewritePlans_marks above ps]

end

/-- Choosing of a mapped list is choosing of the list. -/
theorem filterMap_map_of {α β γ : Type} (f : β → Option γ) (f' : α → Option γ) (g : α → β) (xs : List α)
    (h : ∀ x, f (g x) = f' x) : (xs.map g).filterMap f = xs.filterMap f' := by
  rw [List.filterMap_map]
  exact congrArg (fun k => xs.filterMap k) (funext h)

/-- The gates stay. -/
theorem gates_rewrite (p : Plan) : p.rewrite.gates = p.gates := by
  unfold Plan.gates
  rw [p.rewrite_marks]
  exact filterMap_map_of _ _ _ _ fun m => by cases m <;> rfl

/-- Every scan stays under the gates it was under. -/
theorem scans_rewrite (p : Plan) : p.rewrite.scans = p.scans := by
  unfold Plan.scans
  rw [p.rewrite_marks]
  exact filterMap_map_of _ _ _ _ fun m => by cases m <;> rfl

/-- Every conjunct that may fail stays over the gates it was over. -/
theorem fallible_rewrite (p : Plan) :
    p.rewrite.fallible = p.fallible.map fun f => (f.1.rewrite, f.2) := by
  unfold Plan.fallible
  rw [p.rewrite_marks, List.map_filterMap]
  exact filterMap_map_of _ _ _ _ fun m => by cases m <;> rfl

/-! ## Gating

`ensureGated` on the planner's operators decides by the scans of the logical plan. -/

/-- The first scan that is not under its own contract's gate. -/
def ungated (scans : List (String × Option String)) : Except PeqlError Unit :=
  match scans.find? fun s => s.2 ≠ some s.1 with
  | some (contract, _) => .error (.ungated contract)
  | none => .ok ()

/-- The first scan that is not gated is the first of either part. -/
theorem ungated_append (xs ys : List (String × Option String)) :
    ungated (xs ++ ys) = (do ungated xs; ungated ys) := by
  unfold ungated
  rw [List.find?_append]
  cases xs.find? _ with
  | some s => rfl
  | none => rfl

theorem walkAll_append (xs ys : List Exec) (gate : Option String) :
    walkAll (xs ++ ys) gate = (do walkAll xs gate; walkAll ys gate) := by
  induction xs with
  | nil => rfl
  | cons x xs ih =>
    simp only [List.cons_append, walkAll, ih]
    cases x.walk gate <;> rfl

/-- The scans among the marks. -/
def scansOf (ms : List Mark) : List (String × Option String) :=
  ms.filterMap fun | .scan contract nearest => some (contract, nearest) | _ => none

theorem scansOf_append (ms ms' : List Mark) : scansOf (ms ++ ms') = scansOf ms ++ scansOf ms' :=
  List.filterMap_append

theorem scansOf_fallible (es : List Expr) (above : List GateId) : scansOf (es.map (.fallible · above)) = [] := by
  simp [scansOf, List.filterMap_map]

mutual

/-- The walk finds the marks of an expression's plans. -/
theorem Expr.walk_physical (above : List GateId) :
    ∀ e : Expr, walkAll e.physical (above.head?.map Prod.fst) = ungated (scansOf (e.marks above))
  | .column _ | .outerColumn _ | .placeholder _ | .literal _ => rfl
  | .cast _ e => e.walk_physical above
  | .op _ args => physicalExprs_walk above args
  | .caseWhen c t e => by
    simp only [Expr.physical, Expr.marks, walkAll_append, scansOf_append, ungated_append, c.walk_physical above,
      t.walk_physical above, e.walk_physical above]
  | .subquery _ args plan => by
    simp only [Expr.physical, Expr.marks, walkAll_append, scansOf_append, ungated_append,
      physicalExprs_walk above args, walkAll, plan.walk_physical above]
    cases ungated (scansOf (exprMarks above args)) <;> cases ungated (scansOf (plan.marks above)) <;> rfl

theorem physicalExprs_walk (above : List GateId) :
    ∀ es : List Expr, walkAll (physicalExprs es) (above.head?.map Prod.fst) = ungated (scansOf (exprMarks above es))
  | [] => rfl
  | e :: es => by
    simp only [physicalExprs, exprMarks, walkAll_append, scansOf_append, ungated_append, e.walk_physical above,
      physicalExprs_walk above es]

/-- The walk over a plan's operators answers by the plan's scans. -/
theorem Plan.walk_physical (above : List GateId) :
    ∀ p : Plan, p.physical.walk (above.head?.map Prod.fst) = ungated (scansOf (p.marks above))
  | .scan contract _ => by
    simp only [Plan.physical, Exec.walk, Plan.marks, scansOf, ungated, List.filterMap_cons, List.filterMap_nil,
      List.find?_cons, List.find?_nil]
    by_cases h : above.head?.map Prod.fst = some contract <;> simp [h]
  | .filter pred input => by
    simp only [Plan.physical, Exec.walk, Plan.marks, walkAll_append, scansOf_append, scansOf_fallible,
      List.nil_append, ungated_append, pred.walk_physical above, walkAll, input.walk_physical above]
    cases ungated (scansOf (pred.marks above)) <;> cases ungated (scansOf (input.marks above)) <;> rfl
  | .projection _ es input => by
    simp only [Plan.physical, Exec.walk, Plan.marks, walkAll_append, scansOf_append, ungated_append,
      physicalExprs_walk above es, walkAll, input.walk_physical above]
    cases ungated (scansOf (exprMarks above es)) <;> cases ungated (scansOf (input.marks above)) <;> rfl
  | .gate contract hash input => input.walk_physical ((contract, hash) :: above)
  | .join on left right => by
    simp only [Plan.physical, Exec.walk, Plan.marks, walkAll_append, scansOf_append, ungated_append,
      on.walk_physical above, walkAll, left.walk_physical above, right.walk_physical above]
    cases ungated (scansOf (on.marks above)) <;> cases ungated (scansOf (left.marks above)) <;>
      cases ungated (scansOf (right.marks above)) <;> rfl
  | .relation _ es inputs => by
    simp only [Plan.physical, Exec.walk, Plan.marks, walkAll_append, scansOf_append, ungated_append,
      physicalExprs_walk above es, physicalPlans_walk above inputs]

theorem physicalPlans_walk (above : List GateId) :
    ∀ ps : List Plan, walkAll (physicalPlans ps) (above.head?.map Prod.fst) = ungated (scansOf (planMarks above ps))
  | [] => rfl
  | p :: ps => by
    simp only [physicalPlans, planMarks, walkAll, scansOf_append, ungated_append, p.walk_physical above,
      physicalPlans_walk above ps]

end

/-- The walk over the operators finds the first scan that is not gated. -/
theorem ensureGated_physical (p : Plan) : ensureGated p.physical = ungated p.scans := p.walk_physical []

/-- The rewritten plan passes the gate check exactly when the given plan does. -/
theorem ensureGated_rewrite (p : Plan) : ensureGated p.rewrite.physical = ensureGated p.physical := by
  rw [ensureGated_physical, ensureGated_physical, scans_rewrite]

/-! ## Rewriting again -/

mutual

/-- In no subquery of the expression, … -/
def Expr.normal : Expr → Bool
  | .column _ | .outerColumn _ | .placeholder _ | .literal _ => true
  | .cast _ e => e.normal
  | .op _ args => normalExprs args
  | .caseWhen c t e => c.normal && (t.normal && e.normal)
  | .subquery _ args plan => normalExprs args && plan.normal

def normalExprs : List Expr → Bool
  | [] => true
  | e :: es => e.normal && normalExprs es

/-- Nowhere in the plan is there a conjunct left to cross a gate. -/
def Plan.normal : Plan → Bool
  | .scan _ _ => true
  | .filter pred input => !(Plan.filter pred input).crosses && (pred.normal && input.normal)
  | .projection _ es input => normalExprs es && input.normal
  | .gate _ _ input => input.normal
  | .join on left right => on.normal && (left.normal && right.normal)
  | .relation _ es inputs => normalExprs es && normalPlans inputs

def normalPlans : List Plan → Bool
  | [] => true
  | p :: ps => p.normal && normalPlans ps

end

/-- Where nothing crosses, nothing moves. -/
theorem barrier_of_not_crosses {node : Plan} (h : node.crosses = false) : barrier node = node := by
  obtain ⟨_, heq⟩ | ⟨_, _, _, _, _, _, hc, _⟩ := barrier_cases node
  · exact heq
  · rw [h] at hc
    cases hc

mutual

/-- What is in normal form is left as it is. -/
theorem Expr.rewrite_of_normal : ∀ e : Expr, e.normal = true → e.rewrite = e
  | .column _, _ | .outerColumn _, _ | .placeholder _, _ | .literal _, _ => rfl
  | .cast _ e, h => by rw [Expr.rewrite, e.rewrite_of_normal h]
  | .op _ args, h => by rw [Expr.rewrite, rewriteExprs_of_normal args h]
  | .caseWhen c t e, h => by
    simp only [Expr.normal, Bool.and_eq_true] at h
    rw [Expr.rewrite, c.rewrite_of_normal h.1, t.rewrite_of_normal h.2.1, e.rewrite_of_normal h.2.2]
  | .subquery _ args plan, h => by
    simp only [Expr.normal, Bool.and_eq_true] at h
    rw [Expr.rewrite, rewriteExprs_of_normal args h.1, plan.rewrite_of_normal h.2]

theorem rewriteExprs_of_normal : ∀ es : List Expr, normalExprs es = true → rewriteExprs es = es
  | [], _ => rfl
  | e :: es, h => by
    simp only [normalExprs, Bool.and_eq_true] at h
    rw [rewriteExprs, e.rewrite_of_normal h.1, rewriteExprs_of_normal es h.2]

/-- A plan with no conjunct left to move is rewritten to itself. -/
theorem Plan.rewrite_of_normal : ∀ p : Plan, p.normal = true → p.rewrite = p
  | .scan _ _, _ => rfl
  | .filter pred input, h => by
    simp only [Plan.normal, Bool.and_eq_true, Bool.not_eq_true'] at h
    rw [Plan.rewrite, pred.rewrite_of_normal h.2.1, input.rewrite_of_normal h.2.2, barrier_of_not_crosses h.1]
  | .projection _ es input, h => by
    simp only [Plan.normal, Bool.and_eq_true] at h
    rw [Plan.rewrite, rewriteExprs_of_normal es h.1, input.rewrite_of_normal h.2]
    rfl
  | .gate _ _ input, h => by
    rw [Plan.rewrite, input.rewrite_of_normal h]
    rfl
  | .join on left right, h => by
    simp only [Plan.normal, Bool.and_eq_true] at h
    rw [Plan.rewrite, on.rewrite_of_normal h.1, left.rewrite_of_normal h.2.1, right.rewrite_of_normal h.2.2]
    rfl
  | .relation _ es inputs, h => by
    simp only [Plan.normal, Bool.and_eq_true] at h
    rw [Plan.rewrite, rewriteExprs_of_normal es h.1, rewritePlans_of_normal inputs h.2]
    rfl

theorem rewritePlans_of_normal : ∀ ps : List Plan, normalPlans ps = true → rewritePlans ps = ps
  | [], _ => rfl
  | p :: ps, h => by
    simp only [normalPlans, Bool.and_eq_true] at h
    rw [rewritePlans, p.rewrite_of_normal h.1, rewritePlans_of_normal ps h.2]

end

/-- What a filter is rewritten to, when that is a gate. -/
theorem barrier_filter_isGate (pred : Expr) (input : Plan) :
    (barrier (.filter pred input)).isGate = (pred.splitConjunction.all Expr.cannotFail && input.isGate) := by
  obtain ⟨hc, heq⟩ | ⟨pred, contract, hash, input, below, hnode, _, hbelow, habove⟩ :=
    barrier_cases (.filter pred input)
  · rw [heq]
    symm
    cases input with
    | gate contract hash input =>
      have hany : pred.splitConjunction.any Expr.cannotFail = false := hc
      obtain ⟨c, hc⟩ := List.exists_mem_of_ne_nil _ (splitConjunction_ne_nil pred)
      have hfalse : c.cannotFail = false := by simpa using List.any_eq_false.1 hany c hc
      have hall : pred.splitConjunction.all Expr.cannotFail = false := List.all_eq_false.2 ⟨c, hc, by simp [hfalse]⟩
      rw [hall]
      rfl
    | _ => simp [Plan.isGate]
  · cases hnode
    obtain ⟨above, hsome, heq⟩ | ⟨hnil, heq⟩ := habove
    · have hne : pred.splitConjunction.filter (fun e => !e.cannotFail) ≠ [] := by
        intro hnil
        rw [hnil] at hsome
        cases hsome
      obtain ⟨c, hc⟩ := List.exists_mem_of_ne_nil _ hne
      have hc := List.mem_filter.1 hc
      have hall : pred.splitConjunction.all Expr.cannotFail = false :=
        List.all_eq_false.2 ⟨c, hc.1, by simpa using hc.2⟩
      rw [heq, hall]
      rfl
    · have hall : pred.splitConjunction.all Expr.cannotFail = true := by
        refine List.all_eq_true.2 fun c hc => ?_
        simpa using List.filter_eq_nil_iff.1 hnil c hc
      rw [heq, hall]
      rfl

/-- A plan is a gate after the rewrite when it becomes one. -/
theorem isGate_rewrite : ∀ p : Plan, p.rewrite.isGate = p.becomesGate
  | .scan _ _ | .projection _ _ _ | .join _ _ _ | .relation _ _ _ => rfl
  | .gate _ _ _ => rfl
  | .filter pred input => by
    rw [Plan.rewrite, barrier_filter_isGate, all_cannotFail_rewrite, isGate_rewrite input, Plan.becomesGate]

/-- A gate that a plan is rewritten to has a gate right below it only where the plan was a gate already. -/
theorem stacked_of_rewrite {pred : Expr} {input x : Plan} {contract hash : String}
    (hrw : input.rewrite = .gate contract hash x) (hx : x.isGate = true)
    (hany : pred.splitConjunction.any Expr.cannotFail = true) : input.stacked pred = true := by
  cases input with
  | gate contract' hash' input =>
    cases hrw
    rw [isGate_rewrite] at hx
    simp [Plan.stacked, hany, hx]
  | filter pred' input =>
    rw [Plan.rewrite] at hrw
    obtain ⟨_, heq⟩ | ⟨_, _, _, _, below, _, _, _, habove⟩ := barrier_cases (.filter pred'.rewrite input.rewrite)
    · rw [heq] at hrw
      cases hrw
    · obtain ⟨_, _, heq⟩ | ⟨_, heq⟩ := habove
      · rw [heq] at hrw
        cases hrw
      · rw [heq] at hrw
        cases hrw
        cases hx
  | scan | projection | join | relation => cases hrw

/-- A predicate is in normal form when its conjuncts are. -/
theorem normal_splitConjunction (e : Expr) : e.normal = e.splitConjunction.all Expr.normal := by
  fun_induction Expr.splitConjunction e with
  | case1 a b iha ihb => simp [Expr.normal, normalExprs, iha, ihb]
  | case2 n a ih => simp [Expr.normal, normalExprs, ih]
  | case3 e => simp

/-- Some of its conjuncts make one that is. -/
theorem normal_conjunction {pred e : Expr} {p : Expr → Bool} (hn : pred.normal = true)
    (h : conjunction (pred.splitConjunction.filter p) = some e) : e.normal = true := by
  rw [normal_splitConjunction, List.all_eq_true] at hn
  rw [normal_splitConjunction, splitConjunction_conjunction h, List.all_eq_true]
  exact fun c hc => hn c (List.mem_filter.1 hc).1

/-- The rule leaves nothing to move at a node whose gate has no gate below it. -/
theorem barrier_normal {pred : Expr} {input : Plan} (hp : pred.normal = true) (hi : input.normal = true)
    (hstack : ∀ contract hash x, input = .gate contract hash x → x.isGate = true →
      pred.splitConjunction.any Expr.cannotFail = false) : (barrier (.filter pred input)).normal = true := by
  obtain ⟨hc, heq⟩ | ⟨pred, contract, hash, input, below, hnode, hcross, hbelow, habove⟩ :=
    barrier_cases (.filter pred input)
  · rw [heq]
    simp [Plan.normal, hc, hp, hi]
  cases hnode
  have hinner : (Plan.filter below input).crosses = false := by
    cases input with
    | gate contract' hash' x =>
      have hfalse := hstack contract hash _ rfl rfl
      rw [show (Plan.filter pred _).crosses = pred.splitConjunction.any Expr.cannotFail from rfl, hfalse] at hcross
      cases hcross
    | _ => rfl
  have hfilter : (Plan.filter below input).normal = true := by
    simp only [Plan.normal, hinner, normal_conjunction hp hbelow, Bool.not_false, Bool.true_and]
    exact hi
  obtain ⟨above, hsome, heq⟩ | ⟨_, heq⟩ := habove
  · have habove : (Plan.filter above (.gate contract hash (.filter below input))).crosses = false := by
      simp only [Plan.crosses, splitConjunction_conjunction hsome, List.any_filter, List.any_eq_false]
      intro c _
      cases c.cannotFail <;> simp
    rw [heq]
    simp only [Plan.normal, habove, normal_conjunction hp hsome, Bool.not_false, Bool.true_and]
    exact hfilter
  · rw [heq]
    exact hfilter

mutual

/-- Where no gates are stacked, the rewrite is in normal form. -/
theorem Expr.normal_rewrite : ∀ e : Expr, e.unstacked = true → e.rewrite.normal = true
  | .column _, _ | .outerColumn _, _ | .placeholder _, _ | .literal _, _ => rfl
  | .cast _ e, h => e.normal_rewrite h
  | .op _ args, h => normalExprs_rewrite args h
  | .caseWhen c t e, h => by
    simp only [Expr.unstacked, Bool.and_eq_true] at h
    simp [Expr.rewrite, Expr.normal, c.normal_rewrite h.1, t.normal_rewrite h.2.1, e.normal_rewrite h.2.2]
  | .subquery _ args plan, h => by
    simp only [Expr.unstacked, Bool.and_eq_true] at h
    simp [Expr.rewrite, Expr.normal, normalExprs_rewrite args h.1, plan.normal_rewrite h.2]

theorem normalExprs_rewrite : ∀ es : List Expr, unstackedExprs es = true → normalExprs (rewriteExprs es) = true
  | [], _ => rfl
  | e :: es, h => by
    simp only [unstackedExprs, Bool.and_eq_true] at h
    simp [rewriteExprs, normalExprs, e.normal_rewrite h.1, normalExprs_rewrite es h.2]

/-- A rewritten plan has nothing left to move, where no gate is stacked on another under a conjunct that crosses. -/
theorem Plan.normal_rewrite : ∀ p : Plan, p.unstacked = true → p.rewrite.normal = true
  | .scan _ _, _ => rfl
  | .filter pred input, h => by
    simp only [Plan.unstacked, Bool.and_eq_true, Bool.not_eq_true'] at h
    refine barrier_normal (pred.normal_rewrite h.2.1) (input.normal_rewrite h.2.2) fun contract hash x hrw hx => ?_
    rw [any_cannotFail_rewrite]
    by_contra hany
    rw [stacked_of_rewrite hrw hx (by simpa using hany)] at h
    exact absurd h.1 (by simp)
  | .projection _ es input, h => by
    simp only [Plan.unstacked, Bool.and_eq_true] at h
    simp [Plan.rewrite, barrier, Plan.normal, normalExprs_rewrite es h.1, input.normal_rewrite h.2]
  | .gate _ _ input, h => input.normal_rewrite h
  | .join on left right, h => by
    simp only [Plan.unstacked, Bool.and_eq_true] at h
    simp [Plan.rewrite, barrier, Plan.normal, on.normal_rewrite h.1, left.normal_rewrite h.2.1,
      right.normal_rewrite h.2.2]
  | .relation _ es inputs, h => by
    simp only [Plan.unstacked, Bool.and_eq_true] at h
    simp [Plan.rewrite, barrier, Plan.normal, normalExprs_rewrite es h.1, normalPlans_rewrite inputs h.2]

theorem normalPlans_rewrite : ∀ ps : List Plan, unstackedPlans ps = true → normalPlans (rewritePlans ps) = true
  | [], _ => rfl
  | p :: ps, h => by
    simp only [unstackedPlans, Bool.and_eq_true] at h
    simp [rewritePlans, normalPlans, p.normal_rewrite h.1, normalPlans_rewrite ps h.2]

end

/-- There a second rewrite changes nothing. -/
theorem rewrite_rewrite {p : Plan} (h : p.unstacked = true) : p.rewrite.rewrite = p.rewrite :=
  p.rewrite.rewrite_of_normal (p.normal_rewrite h)

/-! ## The rule -/

/-- The barrier's contract: for every plan and every data set, the rewritten plan gives the same rows and raises no
error of its own, holds every gate, every scan under the same gate, and every conjunct that can fail under the same
gates, passes the gate check as the given plan does, and is rewritten to itself, unless a conjunct crossed a gate onto
another. -/
theorem barrier_keeps (env : Env) (p : Plan) :
    ((p.execute env).Clean → (p.rewrite.execute env).val = (p.execute env).val) ∧
    (p.rewrite.execute env).errs ⊆ (p.execute env).errs ∧
    p.rewrite.gates = p.gates ∧
    p.rewrite.scans = p.scans ∧
    ensureGated p.rewrite.physical = ensureGated p.physical ∧
    (p.rewrite.fallible = p.fallible.map fun f => (f.1.rewrite, f.2)) ∧
    (p.unstacked = true → p.rewrite.rewrite = p.rewrite) :=
  have h := execute_rewrite env p
  ⟨fun _ => h.1, h.2, gates_rewrite p, scans_rewrite p, ensureGated_rewrite p, fallible_rewrite p, rewrite_rewrite⟩

/-- `SELECT .. WHERE owner = 'ann' AND 10 / pay > 1` over a contract's gate. -/
def fallibleOverGate : Plan :=
  .filter (.and (.op (.binary .eq) [.column "owner", .literal (.str "ann")])
      (.op (.binary .gt) [.op (.binary (.other "/")) [.literal (.int 10), .column "pay"], .literal (.int 1)]))
    (.gate "acme/pay" "h1" (.filter (.column "admitted") (.scan "acme/pay" "t")))

/-- Two rows, one of them hidden and with nothing to divide by. -/
def payRows : Env where
  kernel := divisionKernel
  read _ _ := [[("owner", .str "ann"), ("pay", .int 5), ("admitted", .bool true)],
    [("owner", .str "bob"), ("pay", .int 0), ("admitted", .bool false)]]

theorem barrier_keeps_fallibleOverGate :
    fallibleOverGate.rewrite.rewrite = fallibleOverGate.rewrite ∧
      (fallibleOverGate.rewrite.execute payRows).val = (fallibleOverGate.execute payRows).val :=
  have h := barrier_keeps payRows fallibleOverGate
  ⟨h.2.2.2.2.2.2 (by decide), h.1 (by decide)⟩

/-- A conjunct that cannot fail over two gates of one contract. -/
def stackedGates : Plan :=
  .filter (.op (.binary .eq) [.column "owner", .literal (.str "ann")])
    (.gate "acme/pay" "h1" (.gate "acme/pay" "h1" (.scan "acme/pay" "t")))

/-- The first rewriting moves the conjunct below the outer gate, the second below the inner one. -/
theorem stackedGates_rewritten_again : stackedGates.rewrite.rewrite ≠ stackedGates.rewrite := by
  intro h
  cases h

end Peql
