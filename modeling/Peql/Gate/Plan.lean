import Mathlib.Data.Rat.Defs
import Mathlib.Algebra.Order.Ring.Rat
import Peql.Lib.Reported

/-!
# Expressions and logical plans

The part of DataFusion's `Expr` and `LogicalPlan` that `gate.rs` reads and rebuilds, and what a plan computes. An
expression is a column, a literal, or a node over its children; nodes that a rewriting treats alike share the
constructor `op`. Everything outside the gate's reach (functions, arithmetic, casts, patterns, aggregates, sorts) is a
parameter (`Kernel`).

Evaluation is three-valued (`null` is a value) and reports every error that some order of evaluation can raise: the
engine works on batches, so either side of an `AND` may be computed on a row the other side already decides. A branch
of a `CASE` is computed only on the rows that take it.
-/

namespace Peql

/-! ## Values and rows -/

/-- A cell. -/
inductive Value
  | null
  | bool (b : Bool)
  | int (n : Int)
  | num (q : ℚ)
  | str (s : String)
deriving DecidableEq

namespace Value

/-- A filter keeps a row only when its predicate is this. -/
def isTrue : Value → Bool
  | bool b => b
  | _ => false

/-- How two cells of one type compare. -/
def order : Value → Value → Option Ordering
  | bool a, bool b => some (compare a b)
  | int a, int b => some (compare a b)
  | num a, num b => some (compare a b)
  | str a, str b => some (compare a b)
  | _, _ => none

/-- A comparison: unknown when a side is. -/
def compareBy (holds : Ordering → Bool) (a b : Value) : Value :=
  match order a b with
  | some o => bool (holds o)
  | none => null

def not3 : Value → Value
  | bool b => bool !b
  | _ => null

def and3 : Value → Value → Value
  | bool false, _ => bool false
  | _, bool false => bool false
  | bool true, bool true => bool true
  | _, _ => null

def or3 : Value → Value → Value
  | bool true, _ => bool true
  | _, bool true => bool true
  | bool false, bool false => bool false
  | _, _ => null

/-- The negated form of a predicate. -/
def negateIf : Bool → Value → Value
  | true, v => not3 v
  | false, v => v

@[simp] theorem isTrue_and3 (a b : Value) : (and3 a b).isTrue = (a.isTrue && b.isTrue) := by
  rcases a with _ | (_ | _) | _ | _ | _ <;> rcases b with _ | (_ | _) | _ | _ | _ <;> rfl

end Value

/-- A row: its cells under their columns' names. -/
abbrev Row := List (String × Value)

/-- A cell of a row; a column the row lacks reads as null. -/
def Row.get (r : Row) (c : String) : Value := (r.lookup c).getD .null

/-! ## Expressions and plans -/

/-- The binary operators the barrier tells apart, and the others by name. -/
inductive Operator
  | eq | notEq | lt | ltEq | gt | gtEq | and | or | isDistinctFrom | isNotDistinctFrom
  | other (name : String)
deriving DecidableEq

/-- `IS [NOT] NULL`, `IS [NOT] TRUE`, `IS [NOT] FALSE`, `IS [NOT] UNKNOWN`. -/
inductive IsTest
  | null | notNull | true | false | notTrue | notFalse | unknown | notUnknown
deriving DecidableEq

/-- What a node computes from its children. -/
inductive Op
  | not
  | is (t : IsTest)
  | tryCast (ty : String)
  | between (negated : Bool)
  | binary (o : Operator)
  | inList (negated : Bool)
  | like (negated caseInsensitive : Bool) (escape : Option Char)
  | alias (name : String)
  /-- A function call, a negation, …: whatever `cannot_fail` does not name. -/
  | other (kind : String)
deriving DecidableEq

mutual

inductive Expr
  | column (name : String)
  /-- A column of the row a correlated subquery is computed for. -/
  | outerColumn (name : String)
  /-- A parameter of the plan, bound to one caller's value before the plan runs. -/
  | placeholder (id : String)
  | literal (v : Value)
  | cast (ty : String) (e : Expr)
  | op (f : Op) (args : List Expr)
  /-- `CASE WHEN c THEN t ELSE e`; further `WHEN`s stand in `e`. -/
  | caseWhen (c t e : Expr)
  /-- `(SELECT ..)`, `EXISTS (..)`, `x IN (SELECT ..)` and the like. -/
  | subquery (kind : String) (args : List Expr) (plan : Plan)

inductive Plan
  /-- The rows of a contract's bound table. -/
  | scan (contract table : String)
  | filter (pred : Expr) (input : Plan)
  | projection (names : List String) (es : List Expr) (input : Plan)
  | gate (contract compilationHash : String) (input : Plan)
  | join (on : Expr) (left right : Plan)
  /-- An aggregate, a sort, a limit, a union, a window, an outer join, …: its expressions and its inputs. -/
  | relation (kind : String) (es : List Expr) (inputs : List Plan)

end

def Expr.isLiteral : Expr → Bool
  | .literal _ => Bool.true
  | _ => Bool.false

/-- `a AND b`. -/
def Expr.and (a b : Expr) : Expr := .op (.binary .and) [a, b]

/-! ## What a plan computes -/

/-- What DataFusion computes that the gate says nothing about. -/
structure Kernel where
  cast : String → Value → Except String Value
  call : String → List Value → Except String Value
  like : Bool → Value → Value → Value
  likeEscape : Char → Bool → Value → Value → Except String Value
  subquery : String → List Value → List Row → Except String Value
  relation : String → List (List (Row × List Value)) → Except String (List Row)

/-- A data set: the kernel, and the rows each contract's table holds. -/
structure Env where
  kernel : Kernel
  read : String → String → List Row

namespace Kernel

/-- A cast that gives null where it cannot give a value. -/
def tryCast (k : Kernel) (ty : String) (v : Value) : Value := ((k.cast ty v).toOption).getD .null

end Kernel

/-- A kernel of one operator, integer division, for the examples beside the theorems. -/
def divisionKernel : Kernel where
  cast _ v := .ok v
  call name vs :=
    match name, vs with
    | "/", [.int a, .int b] => if b = 0 then .error "Divide by zero error" else .ok (.int (a / b))
    | _, _ => .ok .null
  like _ a b := .bool (a = b)
  likeEscape _ _ a b := .ok (.bool (a = b))
  subquery _ _ rows := .ok (.bool (rows ≠ []))
  relation _ tables := .ok (tables.flatten.map Prod.fst)

def IsTest.holds : IsTest → Value → Bool
  | .null, v => v = .null
  | .notNull, v => v ≠ .null
  | .true, v => v = .bool Bool.true
  | .false, v => v = .bool Bool.false
  | .notTrue, v => v ≠ .bool Bool.true
  | .notFalse, v => v ≠ .bool Bool.false
  | .unknown, v => v = .null
  | .notUnknown, v => v ≠ .null

def Operator.apply (k : Kernel) (o : Operator) (a b : Value) : Except String Value :=
  match o with
  | .eq => .ok (.compareBy (· == .eq) a b)
  | .notEq => .ok (.compareBy (· != .eq) a b)
  | .lt => .ok (.compareBy (· == .lt) a b)
  | .ltEq => .ok (.compareBy (· != .gt) a b)
  | .gt => .ok (.compareBy (· == .gt) a b)
  | .gtEq => .ok (.compareBy (· != .lt) a b)
  | .and => .ok (a.and3 b)
  | .or => .ok (a.or3 b)
  | .isDistinctFrom => .ok (.bool (a ≠ b))
  | .isNotDistinctFrom => .ok (.bool (a = b))
  | .other name => k.call name [a, b]

/-- A node's value from its children's. -/
def Op.apply (k : Kernel) : Op → List Value → Except String Value
  | .not, [a] => .ok a.not3
  | .is t, [a] => .ok (.bool (t.holds a))
  | .tryCast ty, [a] => .ok (k.tryCast ty a)
  | .between n, [a, low, high] =>
    .ok (.negateIf n ((Value.compareBy (· != .lt) a low).and3 (Value.compareBy (· != .gt) a high)))
  | .binary o, [a, b] => o.apply k a b
  | .inList n, a :: list =>
    .ok (.negateIf n (list.foldl (fun found b => found.or3 (.compareBy (· == .eq) a b)) (.bool Bool.false)))
  | .like n ci none, [a, pattern] => .ok (.negateIf n (k.like ci a pattern))
  | .like n ci (some c), [a, pattern] => (k.likeEscape c ci a pattern).map (.negateIf n)
  | .alias _, [a] => .ok a
  | .other kind, vs => k.call kind vs
  | _, _ => .ok .null

mutual

/-- An expression on a row; `outer` is the row the plan it stands in is computed for. -/
def Expr.eval (env : Env) : Expr → Row → Row → Reported String Value
  | .column c, _, row => .pure (row.get c)
  | .outerColumn c, outer, _ => .pure (outer.get c)
  | .placeholder id, _, _ => ⟨.null, [s!"Placeholder {id} was not provided a value for execution."]⟩
  | .literal v, _, _ => .pure v
  | .cast ty e, outer, row =>
    -- a cast of a constant is folded before any row is read (`Plan.constants`)
    (e.eval env outer row).bind fun v =>
      if e.isLiteral then .pure (env.kernel.tryCast ty v) else .ofExcept .null (env.kernel.cast ty v)
  | .op f args, outer, row =>
    (evals env args outer row).bind fun vs => .ofExcept .null (f.apply env.kernel vs)
  | .caseWhen c t e, outer, row =>
    (c.eval env outer row).bind fun v => if v.isTrue then t.eval env outer row else e.eval env outer row
  | .subquery kind args plan, outer, row =>
    (evals env args outer row).bind fun vs => (plan.run env row).bind fun rows =>
      .ofExcept .null (env.kernel.subquery kind vs rows)

def evals (env : Env) : List Expr → Row → Row → Reported String (List Value)
  | [], _, _ => .pure []
  | e :: es, outer, row => (e.eval env outer row).bind fun v => (evals env es outer row).map (v :: ·)

/-- The rows of a plan. -/
def Plan.run (env : Env) : Plan → Row → Reported String (List Row)
  | .scan contract table, _ => .pure (env.read contract table)
  | .filter pred input, outer =>
    (input.run env outer).bind (Reported.filter fun row => (pred.eval env outer row).map Value.isTrue)
  | .projection names es input, outer =>
    (input.run env outer).bind (Reported.traverse fun row => (evals env es outer row).map names.zip)
  | .gate _ _ input, outer => input.run env outer
  | .join on left right, outer =>
    (left.run env outer).bind fun ls => (right.run env outer).bind fun rs =>
      Reported.filter (fun row => (on.eval env outer row).map Value.isTrue) (ls.flatMap fun l => rs.map (l ++ ·))
  | .relation kind es inputs, outer =>
    (runs env inputs outer).bind fun tables =>
      (Reported.traverse (Reported.traverse fun row => (evals env es outer row).map (row, ·)) tables).bind fun ts =>
        .ofExcept [] (env.kernel.relation kind ts)

def runs (env : Env) : List Plan → Row → Reported String (List (List Row))
  | [], _ => .pure []
  | p :: ps, outer => (p.run env outer).bind fun rows => (runs env ps outer).map (rows :: ·)

end

theorem evals_eq_traverse (env : Env) (outer row : Row) :
    ∀ es : List Expr, evals env es outer row = Reported.traverse (fun e => e.eval env outer row) es
  | [] => rfl
  | e :: es => by
    rw [evals, evals_eq_traverse env outer row es]
    rfl

mutual

/-- The casts of constants in an expression, in the order they are met. -/
def Expr.constants : Expr → List (String × Value)
  | .column _ | .outerColumn _ | .placeholder _ | .literal _ => []
  | .cast ty e => (match e with | .literal v => [(ty, v)] | _ => []) ++ e.constants
  | .op _ args => exprConstants args
  | .caseWhen c t e => c.constants ++ t.constants ++ e.constants
  | .subquery _ args plan => exprConstants args ++ plan.constants

def exprConstants : List Expr → List (String × Value)
  | [] => []
  | e :: es => e.constants ++ exprConstants es

def Plan.constants : Plan → List (String × Value)
  | .scan _ _ => []
  | .filter pred input => pred.constants ++ input.constants
  | .projection _ es input => exprConstants es ++ input.constants
  | .gate _ _ input => input.constants
  | .join on left right => on.constants ++ left.constants ++ right.constants
  | .relation _ es inputs => exprConstants es ++ planConstants inputs

def planConstants : List Plan → List (String × Value)
  | [] => []
  | p :: ps => p.constants ++ planConstants ps

end

/-- The errors of folding a plan's constants, raised before any row is read. -/
def Plan.foldErrs (env : Env) (p : Plan) : List String :=
  p.constants.flatMap fun (ty, v) =>
    match env.kernel.cast ty v with
    | .ok _ => []
    | .error e => [e]

/-- A query: its constants folded, then its rows computed. -/
def Plan.execute (env : Env) (p : Plan) : Reported String (List Row) :=
  ⟨(p.run env []).val, p.foldErrs env ++ (p.run env []).errs⟩

end Peql
