import Peql.Gate.Sound

/-!
# `cannot_fail` as it runs

`cannot_fail` answers from a flag that a visit of the expression updates, and the visit ends at the first node that
clears the flag. `Expr.apply` is the visit (`TreeNode::apply`) with any state and any order to go on, skip the children
or end; `Expr.cannotFailFlag` is the flag it leaves. The visit ends early only when the answer is decided
(`apply_visit`), so the flag is the conjunction over every node (`cannotFailFlag_eq`), and an expression it accepts
raises no error on any row (`cannot_fail_sound`).
-/

namespace Peql

/-! ## The visit -/

/-- What a visitor says about the rest of the visit. -/
inductive TreeNodeRecursion
  | goOn
  /-- Skip the children of this node. -/
  | jump
  | stop
deriving DecidableEq

namespace TreeNodeRecursion

variable {σ : Type}

/-- `visit_children`: what follows a node's own visit. -/
def visitChildren (children : σ → σ × TreeNodeRecursion) : σ × TreeNodeRecursion → σ × TreeNodeRecursion
  | (s, goOn) => children s
  | (s, jump) => (s, goOn)
  | (s, stop) => (s, stop)

/-- `apply_until_stop`: what follows the visit of a sibling. -/
def visitSibling (next : σ → σ × TreeNodeRecursion) : σ × TreeNodeRecursion → σ × TreeNodeRecursion
  | (s, stop) => (s, stop)
  | (s, _) => next s

end TreeNodeRecursion

open TreeNodeRecursion

section Apply

variable {σ : Type} (f : σ → Expr → σ × TreeNodeRecursion)

mutual

/-- `TreeNode::apply`: a node, then its children in order. The plan of a subquery is no child. -/
def Expr.apply : Expr → σ → σ × TreeNodeRecursion
  | .column c, s => visitChildren (·, goOn) (f s (.column c))
  | .outerColumn c, s => visitChildren (·, goOn) (f s (.outerColumn c))
  | .placeholder id, s => visitChildren (·, goOn) (f s (.placeholder id))
  | .literal v, s => visitChildren (·, goOn) (f s (.literal v))
  | .cast ty e, s => visitChildren e.apply (f s (.cast ty e))
  | .op g args, s => visitChildren (applyExprs args) (f s (.op g args))
  | .caseWhen c t e, s =>
    visitChildren (fun s => visitSibling (fun s => visitSibling e.apply (t.apply s)) (c.apply s))
      (f s (.caseWhen c t e))
  | .subquery kind args plan, s => visitChildren (applyExprs args) (f s (.subquery kind args plan))

def applyExprs : List Expr → σ → σ × TreeNodeRecursion
  | [], s => (s, goOn)
  | e :: es, s => visitSibling (applyExprs es) (e.apply s)

end

end Apply

/-- The visitor of `cannot_fail`: the flag, cleared by a node that may fail. -/
def cannotFailVisit (ok : Bool) (x : Expr) : Bool × TreeNodeRecursion :=
  let ok := ok && x.nodeSafe
  (ok, if ok then goOn else stop)

/-- `cannot_fail`: the flag after the visit. -/
def Expr.cannotFailFlag (e : Expr) : Bool := (e.apply cannotFailVisit true).1

/-! ## No node escapes -/

/-- What the visit has when the flag is `ok`: it goes on while the flag is set. -/
def flagged (ok : Bool) : Bool × TreeNodeRecursion := (ok, if ok then goOn else stop)

@[simp] theorem cannotFailVisit_true (x : Expr) : cannotFailVisit true x = flagged x.nodeSafe := by
  simp [cannotFailVisit, flagged]

/-- What comes after a cleared flag is not visited; the answer is what visiting it would give. -/
theorem visitChildren_flagged {children : Bool → Bool × TreeNodeRecursion} {b : Bool}
    (h : children true = flagged b) (a : Bool) : visitChildren children (flagged a) = flagged (a && b) := by
  cases a with
  | true => exact h
  | false => rfl

theorem visitSibling_flagged {next : Bool → Bool × TreeNodeRecursion} {b : Bool} (h : next true = flagged b)
    (a : Bool) : visitSibling next (flagged a) = flagged (a && b) := by
  cases a with
  | true => exact h
  | false => rfl

theorem visitLeaf_flagged (a : Bool) : visitChildren (·, goOn) (flagged a) = flagged (a && true) := by
  cases a <;> rfl

mutual

/-- The visit leaves the conjunction over all nodes, wherever it ended. -/
theorem apply_visit : ∀ e : Expr, e.apply cannotFailVisit true = flagged (e.nodes.all Expr.nodeSafe)
  | .column _ | .outerColumn _ | .placeholder _ | .literal _ => by
    simp only [Expr.apply, Expr.nodes, cannotFailVisit_true, List.all_cons, List.all_nil, visitLeaf_flagged]
  | .cast ty e => by
    simp only [Expr.apply, Expr.nodes, cannotFailVisit_true, List.all_cons]
    exact visitChildren_flagged (apply_visit e) _
  | .op g args => by
    simp only [Expr.apply, Expr.nodes, cannotFailVisit_true, List.all_cons]
    exact visitChildren_flagged (applyExprs_visit args) _
  | .caseWhen c t e => by
    simp only [Expr.apply, Expr.nodes, cannotFailVisit_true, List.all_cons, List.all_append, Bool.and_assoc]
    refine visitChildren_flagged ?_ _
    rw [apply_visit c]
    refine visitSibling_flagged ?_ _
    rw [apply_visit t]
    exact visitSibling_flagged (apply_visit e) _
  | .subquery kind args plan => by
    simp only [Expr.apply, Expr.nodes, cannotFailVisit_true, List.all_cons]
    exact visitChildren_flagged (applyExprs_visit args) _

theorem applyExprs_visit :
    ∀ es : List Expr, applyExprs cannotFailVisit es true = flagged ((exprNodes es).all Expr.nodeSafe)
  | [] => rfl
  | e :: es => by
    rw [applyExprs, exprNodes, List.all_append, apply_visit e]
    exact visitSibling_flagged (applyExprs_visit es) _

end

/-- The flag is the answer of `cannotFail`. -/
theorem cannotFailFlag_eq (e : Expr) : e.cannotFailFlag = e.cannotFail := by
  rw [Expr.cannotFailFlag, apply_visit]
  rfl

/-! ## Soundness -/

/-- `cannot_fail` is sound: an expression it accepts raises no error on any row, over any data. -/
theorem cannot_fail_sound {e : Expr} (h : e.cannotFailFlag = true) (env : Env) (outer row : Row) :
    (e.eval env outer row).Clean :=
  cannotFail_clean (cannotFailFlag_eq e ▸ h)

/-- `kind = 'x' OR TRY_CAST(amount AS int) BETWEEN CAST('1' AS int) AND 9`, on a row where `amount` is a text. -/
theorem cannot_fail_sound_between :
    ((Expr.op (.binary .or)
      [.op (.binary .eq) [.column "kind", .literal (.str "x")],
        .op (.between false)
          [.op (.tryCast "int") [.column "amount"], .cast "int" (.literal (.str "1")), .literal (.int 9)]]).eval
      ⟨divisionKernel, fun _ _ => []⟩ [] [("kind", .str "y"), ("amount", .str "ten")]).Clean :=
  cannot_fail_sound (by decide) ⟨divisionKernel, fun _ _ => []⟩ [] [("kind", .str "y"), ("amount", .str "ten")]

/-- A fallible node is reached below nodes that do not fail, and the visit ends there. -/
example : (Expr.op .not [.op (.binary .and) [.column "a", .op (.other "/") [.literal (.int 1), .column "b"]]]).apply
    cannotFailVisit true = (false, stop) := by decide

end Peql
