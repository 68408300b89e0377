import Peql.Error
import Peql.Gate.Plan

/-!
# The gate barrier

`GateBarrier::rewrite` as it runs: bottom-up over a plan and the subqueries in its expressions, a filter standing on a
gate gives the conjuncts that cannot fail to a filter below the gate and keeps the rest above it (`barrier`). Beside it
the physical side: the operators the planner makes (`Plan.physical`) and the check that every scan of contract data
stands under its own contract's gate (`ensureGated`).
-/

namespace Peql

/-! ## Predicates that cannot fail -/

/-- `split_conjunction`: the conjuncts of a predicate, aliases at the top stripped. -/
def Expr.splitConjunction : Expr → List Expr
  | .op (.binary .and) [a, b] => a.splitConjunction ++ b.splitConjunction
  | .op (.alias _) [a] => a.splitConjunction
  | e => [e]
termination_by structural e => e

/-- `conjunction`: a list of conjuncts as one predicate. -/
def conjunction : List Expr → Option Expr
  | [] => none
  | e :: es => some (es.foldl Expr.and e)

def Operator.safe : Operator → Bool
  | .eq | .notEq | .lt | .ltEq | .gt | .gtEq | .and | .or | .isDistinctFrom | .isNotDistinctFrom => true
  | .other _ => false

/-- Whether a node of this kind over these children cannot raise an error of its own. -/
def Op.safe : Op → List Expr → Bool
  | .not, _ | .is _, _ | .tryCast _, _ | .between _, _ => true
  | .binary o, _ => o.safe
  | .inList _, args => args.tail.all Expr.isLiteral
  | .like _ _ escape, _ => escape.isNone
  | .alias _, _ | .other _, _ => false

/-- What `cannot_fail` asks of one node. -/
def Expr.nodeSafe : Expr → Bool
  | .column _ | .literal _ => true
  | .op f args => f.safe args
  -- a cast of a constant is folded before execution
  | .cast _ e => e.isLiteral
  | .outerColumn _ | .placeholder _ | .caseWhen _ _ _ | .subquery _ _ _ => false

mutual

/-- The nodes of an expression, a node before its children; the plans of subqueries are not entered. -/
def Expr.nodes : Expr → List Expr
  | .column c => [.column c]
  | .outerColumn c => [.outerColumn c]
  | .placeholder id => [.placeholder id]
  | .literal v => [.literal v]
  | .cast ty e => .cast ty e :: e.nodes
  | .op f args => .op f args :: exprNodes args
  | .caseWhen c t e => .caseWhen c t e :: (c.nodes ++ t.nodes ++ e.nodes)
  | .subquery kind args plan => .subquery kind args plan :: exprNodes args

def exprNodes : List Expr → List Expr
  | [] => []
  | e :: es => e.nodes ++ exprNodes es

end

/-- True for an expression that cannot raise an error on any input. -/
def Expr.cannotFail (e : Expr) : Bool := e.nodes.all Expr.nodeSafe

/-! ## The rewriting -/

/-- What the rule does at one node, its inputs rewritten already. -/
def barrier : Plan → Plan
  | .filter pred (.gate contract hash input) =>
    match conjunction (pred.splitConjunction.filter Expr.cannotFail) with
    | none => .filter pred (.gate contract hash input)
    | some below =>
      let gated := .gate contract hash (.filter below input)
      match conjunction (pred.splitConjunction.filter fun e => !e.cannotFail) with
      | some above => .filter above gated
      | none => gated
  | node => node

mutual

/-- The plans of an expression's subqueries rewritten. -/
def Expr.rewrite : Expr → Expr
  | .column c => .column c
  | .outerColumn c => .outerColumn c
  | .placeholder id => .placeholder id
  | .literal v => .literal v
  | .cast ty e => .cast ty e.rewrite
  | .op f args => .op f (rewriteExprs args)
  | .caseWhen c t e => .caseWhen c.rewrite t.rewrite e.rewrite
  | .subquery kind args plan => .subquery kind (rewriteExprs args) plan.rewrite

def rewriteExprs : List Expr → List Expr
  | [] => []
  | e :: es => e.rewrite :: rewriteExprs es

/-- `GateBarrier::rewrite`: `transform_up_with_subqueries`. -/
def Plan.rewrite : Plan → Plan
  | .scan contract table => barrier (.scan contract table)
  | .filter pred input => barrier (.filter pred.rewrite input.rewrite)
  | .projection names es input => barrier (.projection names (rewriteExprs es) input.rewrite)
  | .gate contract hash input => barrier (.gate contract hash input.rewrite)
  | .join on left right => barrier (.join on.rewrite left.rewrite right.rewrite)
  | .relation kind es inputs => barrier (.relation kind (rewriteExprs es) (rewritePlans inputs))

def rewritePlans : List Plan → List Plan
  | [] => []
  | p :: ps => p.rewrite :: rewritePlans ps

end

/-! ## The physical plan -/

/-- An operator of the physical plan: a `GateExec`, a `ScanExec`, or any other over its children. -/
inductive Exec
  | gateExec (contract compilationHash : String) (input : Exec)
  | scanExec (contract : String)
  | node (children : List Exec)

mutual

/-- The operators of an expression's subqueries, which the planner makes inputs of the node the expression is in. -/
def Expr.physical : Expr → List Exec
  | .column _ | .outerColumn _ | .placeholder _ | .literal _ => []
  | .cast _ e => e.physical
  | .op _ args => physicalExprs args
  | .caseWhen c t e => c.physical ++ (t.physical ++ e.physical)
  | .subquery _ args plan => physicalExprs args ++ [plan.physical]

def physicalExprs : List Expr → List Exec
  | [] => []
  | e :: es => e.physical ++ physicalExprs es

/-- The planner's operators: a gate becomes a `GateExec` over its input's operator, a scan of a `BoundTable` a
`ScanExec`. -/
def Plan.physical : Plan → Exec
  | .scan contract _ => .scanExec contract
  | .filter pred input => .node (pred.physical ++ [input.physical])
  | .projection _ es input => .node (physicalExprs es ++ [input.physical])
  | .gate contract hash input => .gateExec contract hash input.physical
  | .join on left right => .node (on.physical ++ [left.physical, right.physical])
  | .relation _ es inputs => .node (physicalExprs es ++ physicalPlans inputs)

def physicalPlans : List Plan → List Exec
  | [] => []
  | p :: ps => p.physical :: physicalPlans ps

end

mutual

/-- `ensure_gated`'s walk: `gate` is the contract of the nearest gate above. -/
def Exec.walk : Exec → Option String → Except PeqlError Unit
  | .gateExec contract _ input, _ => input.walk (some contract)
  | .scanExec contract, gate => if gate ≠ some contract then .error (.ungated contract) else .ok ()
  | .node children, gate => walkAll children gate

def walkAll : List Exec → Option String → Except PeqlError Unit
  | [], _ => .ok ()
  | e :: es, gate => do
    e.walk gate
    walkAll es gate

end

/-- Refuse a plan in which any scan of contract data is not under that contract's gate. -/
def ensureGated (plan : Exec) : Except PeqlError Unit := plan.walk none

/-! ## What a plan holds where

A walk over the logical plan that records what the gates are for: the gates themselves, the gate each scan stands
under, and the filter conjuncts that can fail with the gates around them. -/

/-- A gate's contract and compilation hash. -/
abbrev GateId := String × String

inductive Mark
  | gate (id : GateId)
  /-- A scan, with the nearest gate above it. -/
  | scan (contract : String) (nearest : Option String)
  /-- A filter's conjunct that can fail, with the gates above it, the nearest first. -/
  | fallible (e : Expr) (above : List GateId)

mutual

def Expr.marks (above : List GateId) : Expr → List Mark
  | .column _ | .outerColumn _ | .placeholder _ | .literal _ => []
  | .cast _ e => e.marks above
  | .op _ args => exprMarks above args
  | .caseWhen c t e => c.marks above ++ (t.marks above ++ e.marks above)
  | .subquery _ args plan => exprMarks above args ++ plan.marks above

def exprMarks (above : List GateId) : List Expr → List Mark
  | [] => []
  | e :: es => e.marks above ++ exprMarks above es

def Plan.marks (above : List GateId) : Plan → List Mark
  | .scan contract _ => [.scan contract (above.head?.map Prod.fst)]
  | .filter pred input =>
    (pred.splitConjunction.filter fun e => !e.cannotFail).map (.fallible · above) ++
      (pred.marks above ++ input.marks above)
  | .projection _ es input => exprMarks above es ++ input.marks above
  | .gate contract hash input => .gate (contract, hash) :: input.marks ((contract, hash) :: above)
  | .join on left right => on.marks above ++ (left.marks above ++ right.marks above)
  | .relation _ es inputs => exprMarks above es ++ planMarks above inputs

def planMarks (above : List GateId) : List Plan → List Mark
  | [] => []
  | p :: ps => p.marks above ++ planMarks above ps

end

/-- A mark of the rewritten plan: the subqueries of a conjunct are rewritten with it. -/
def Mark.rewrite : Mark → Mark
  | .gate id => .gate id
  | .scan contract nearest => .scan contract nearest
  | .fallible e above => .fallible e.rewrite above

namespace Plan

/-- Every gate, with its contract and hash. -/
def gates (p : Plan) : List GateId :=
  (p.marks []).filterMap fun | .gate id => some id | _ => none

/-- Every scan, with the contract of the nearest gate above it. -/
def scans (p : Plan) : List (String × Option String) :=
  (p.marks []).filterMap fun | .scan contract nearest => some (contract, nearest) | _ => none

/-- Every filter conjunct that can fail, with the gates above it. -/
def fallible (p : Plan) : List (Expr × List GateId) :=
  (p.marks []).filterMap fun | .fallible e above => some (e, above) | _ => none

def isGate : Plan → Bool
  | .gate _ _ _ => true
  | _ => false

/-- The rewriting turns the plan into a gate: it is one, or filters of conjuncts that cannot fail over one. -/
def becomesGate : Plan → Bool
  | .gate _ _ _ => true
  | .filter pred input => pred.splitConjunction.all Expr.cannotFail && input.becomesGate
  | _ => false

/-- A conjunct of `pred` crosses the gate `p` is, onto a gate that `p`'s input is or becomes. -/
def stacked (pred : Expr) : Plan → Bool
  | .gate _ _ input => pred.splitConjunction.any Expr.cannotFail && input.becomesGate
  | _ => false

end Plan

mutual

/-- In no subquery of the expression, … -/
def Expr.unstacked : Expr → Bool
  | .column _ | .outerColumn _ | .placeholder _ | .literal _ => true
  | .cast _ e => e.unstacked
  | .op _ args => unstackedExprs args
  | .caseWhen c t e => c.unstacked && (t.unstacked && e.unstacked)
  | .subquery _ args plan => unstackedExprs args && plan.unstacked

def unstackedExprs : List Expr → Bool
  | [] => true
  | e :: es => e.unstacked && unstackedExprs es

/-- Nowhere in the plan does a filter with a conjunct that cannot fail stand on a gate whose input is, or is rewritten
to, a gate. -/
def Plan.unstacked : Plan → Bool
  | .scan _ _ => true
  | .filter pred input => !input.stacked pred && (pred.unstacked && input.unstacked)
  | .projection _ es input => unstackedExprs es && input.unstacked
  | .gate _ _ input => input.unstacked
  | .join on left right => on.unstacked && (left.unstacked && right.unstacked)
  | .relation _ es inputs => unstackedExprs es && unstackedPlans inputs

def unstackedPlans : List Plan → Bool
  | [] => true
  | p :: ps => p.unstacked && unstackedPlans ps

end

end Peql
