import Peql.Error
import Peql.Parcel

/-!
# Vector search

`vector_search(table, column, vector, k, metric)` in a FROM is a table function. `expand` rewrites it while it visits
the parsed statement: the call becomes a subquery that ranks one table, named by its quoted name, by a function of the
search's own, and the searches are given back with the text of the rewritten statement. After the visit no search may be
of a table whose name a CTE has, anywhere in the statement and in any case. A search's function is made when its table's
schema is known (`Search.udf`).

The parser is sqlparser's (`SqlParser`), and a statement is the tree it gives (`SqlTree`): nodes the expansion does
not look at share the constructor `node`.
-/

namespace Peql

/-! ## Parsed statements -/

/-- An identifier, and the character it is quoted with. -/
structure Ident where
  value : String
  quoteStyle : Option Char
deriving DecidableEq

structure TableAlias where
  name : Ident
  columns : List Ident
deriving DecidableEq

/-- A part of a parsed statement; the parts of a part stand in the order they are visited. -/
inductive SqlTree
  /-- `Query`: the CTEs of its WITH, then its body, its ordering and its limits. -/
  | query (recursive : Bool) (ctes parts : List SqlTree)
  | cte (as_ : TableAlias) (query : SqlTree)
  /-- `TableFactor::Table` with no arguments: a name in a FROM. -/
  | table (name : List Ident) (as_ : Option TableAlias) (modifiers : List SqlTree)
  /-- `TableFactor::Table` with arguments; `modifiers` are its hints, version, ordinality, partitions, JSON path, sample
  and settings. -/
  | tableFunction (name : List Ident) (args : List SqlTree) (as_ : Option TableAlias) (modifiers : List SqlTree)
  /-- `TableFactor::Derived`: a subquery in a FROM. -/
  | derived (lateral : Bool) (subquery : SqlTree) (as_ : Option TableAlias) (sample : List SqlTree)
  /-- An argument that is no positional expression. -/
  | argument (kind : String) (parts : List SqlTree)
  | identifier (i : Ident)
  | number (text : String)
  | string (text : String)
  | array (elem : List SqlTree) (named : Bool)
  | unaryOp (op : String) (e : SqlTree)
  | node (kind : String) (parts : List SqlTree)

/-- sqlparser: a text as statements, a statement as text, and a name as text. -/
structure SqlParser where
  parseSql : String → Except String (List SqlTree)
  print : SqlTree → String
  printName : List Ident → String

/-! ## Numbers -/

/-- Rust's conversions: the bits of the double a text spells, and of the single nearest to a double. -/
structure Floats where
  parse : String → Option UInt64
  narrow : UInt64 → UInt32

namespace Floats

def isFinite64 (b : UInt64) : Bool := b &&& 0x7ff0000000000000 ≠ 0x7ff0000000000000

def neg64 (b : UInt64) : UInt64 := b ^^^ 0x8000000000000000

def isFinite32 (b : UInt32) : Bool := b &&& 0x7f800000 ≠ 0x7f800000

/-- `== 0.0`, which both zeros are. -/
def isZero32 (b : UInt32) : Bool := b &&& 0x7fffffff = 0

end Floats

/-- `str::parse::<usize>`. -/
def parseUsize (text : String) : Option Nat :=
  let digits := match text.toList with
    | '+' :: cs => cs
    | cs => cs
  if digits.isEmpty || !digits.all Char.isDigit then none
  else
    let n := digits.foldl (fun n c => 10 * n + (c.toNat - 48)) 0
    if n < 2 ^ 64 then some n else none

/-! ## Searches -/

inductive Metric
  | cosine
  | euclidean
  | dot
deriving DecidableEq

/-- A vector search of a statement, to be a function over the view of its table. -/
structure Search where
  table : String
  column : String
  /-- The query vector, each entry by the bits of its single. -/
  vector : List UInt32
  metric : Metric
  function : String
deriving DecidableEq

/-- A search's distance function as it is registered: its name, the type of its argument, and the vector and the metric
it measures by. -/
structure VectorUdf where
  name : String
  argument : String
  vector : List UInt32
  metric : Metric
deriving DecidableEq

def invalidSearch (message : String) : PeqlError := .invalid s!"vector_search: {message}"

/-- A name in double quotes, its own doubled. -/
def quoted (name : String) : String :=
  String.ofList ('"' :: (name.toList.flatMap fun c => if c = '"' then ['"', '"'] else [c]) ++ ['"'])

/-- `text`: a name or a string literal. -/
def SqlTree.text : SqlTree → Except PeqlError String
  | .identifier i => .ok i.value
  | .string s => .ok s
  | _ => .error (invalidSearch "table, column and metric must be names or string literals")

/-- The check on every number of a query vector. -/
def finite : Option UInt64 → Except PeqlError UInt64
  | some v => if Floats.isFinite64 v then .ok v else .error (invalidSearch "query vector must contain finite numbers")
  | none => .error (invalidSearch "query vector must contain finite numbers")

/-- `number`: a number literal, or one under minus signs. -/
def SqlTree.toNumber (F : Floats) : SqlTree → Except PeqlError UInt64
  | .number n => finite (F.parse n)
  | .unaryOp op e =>
    if op = "-" then do
      let v ← e.toNumber F
      finite (some (Floats.neg64 v))
    else finite none
  | _ => finite none

/-- What the five arguments of a search say. -/
structure SearchCall where
  table : String
  column : String
  vector : List UInt32
  k : Nat
  metric : Metric
deriving DecidableEq

def positional : SqlTree → Except PeqlError SqlTree
  | .argument _ _ => .error (invalidSearch "five positional literal arguments are required")
  | e => .ok e

/-- An entry of the query vector. -/
def vectorEntry (F : Floats) (e : SqlTree) : Except PeqlError UInt32 := do
  let n ← e.toNumber F
  if Floats.isFinite32 (F.narrow n) then return F.narrow n
  else throw (invalidSearch "query vector values must fit float32")

def SqlTree.toVector (F : Floats) : SqlTree → Except PeqlError (List UInt32)
  | .array elem _ => do
    let vector ← elem.mapM (vectorEntry F)
    if vector.isEmpty then throw (invalidSearch "query vector dimension must be positive")
    return vector
  | _ => .error (invalidSearch "query_vector must be an array literal")

def SqlTree.toLimit : SqlTree → Except PeqlError Nat
  | .number n =>
    match (parseUsize n).filter fun k => 0 < k with
    | some k => .ok k
    | none => .error (invalidSearch "k must be a positive integer")
  | _ => .error (invalidSearch "k must be a positive integer")

def SqlTree.toMetric (e : SqlTree) : Except PeqlError Metric := do
  match ← e.text with
  | "cosine" => return .cosine
  | "euclidean" => return .euclidean
  | "dot" => return .dot
  | _ => throw (invalidSearch "metric must be cosine, euclidean or dot")

/-- The arguments of a call, read and checked. -/
def readSearch (F : Floats) (args modifiers : List SqlTree) : Except PeqlError SearchCall := do
  if !modifiers.isEmpty then throw (invalidSearch "table modifiers are not supported")
  match ← args.mapM positional with
  | [table, column, vector, k, metric] => do
    let table ← table.text
    let column ← column.text
    let vector ← vector.toVector F
    let k ← k.toLimit
    let metric ← metric.toMetric
    if metric = .cosine ∧ vector.all Floats.isZero32 then
      throw (invalidSearch "cosine query vector must have nonzero norm")
    return ⟨table, column, vector, k, metric⟩
  | _ => throw (invalidSearch "five arguments are required: table, column, query_vector, k, metric")

/-! ## The expansion -/

/-- The name of the function of a statement's `n`-th search, from 0. -/
def distanceFunction (n : Nat) : String := s!"__peql_vector_distance_{n}"

/-- The subquery a call becomes. -/
def searchText (function : String) (c : SearchCall) : String :=
  let score := s!"{function}({quoted c.column})"
  s!"SELECT *, {score} AS distance FROM {quoted c.table} WHERE {score} IS NOT NULL ORDER BY distance ASC LIMIT {c.k}"

/-- What the visit has gathered: the searches, and the names of the CTEs in lower case. -/
structure Expand where
  searches : List Search
  ctes : List String

def SqlTree.cteName : SqlTree → Option String
  | .cte as_ _ => some as_.name.value
  | _ => none

section Visit

variable (P : SqlParser) (F : Floats)

/-- Whether a table function is a vector search: its name as it is written, in any case; no letter outside ASCII has one
of its letters as lower case. -/
def isVectorSearch (name : List Ident) : Bool := (P.printName name).toLower = "vector_search"

/-- A call as the subquery that replaces it, and its search. -/
def expandCall (n : Nat) (args : List SqlTree) (as_ : Option TableAlias) (modifiers : List SqlTree) :
    Except PeqlError (SqlTree × Search) := do
  let c ← readSearch F args modifiers
  let function := distanceFunction n
  match P.parseSql (searchText function c) with
  | .ok (.query recursive ctes parts :: _) =>
    return (.derived false (.query recursive ctes parts) as_ [], ⟨c.table, c.column, c.vector, c.metric, function⟩)
  -- `unreachable!`
  | .ok _ => throw (invalidSearch "entered unreachable code")
  | .error e => throw (invalidSearch e)

mutual

/-- The visit, in place; `inner` visits the subquery that replaces a call. -/
def visitWith (inner : SqlTree → Expand → Except PeqlError (SqlTree × Expand)) :
    SqlTree → Expand → Except PeqlError (SqlTree × Expand)
  | .query recursive ctes parts, s => do
    let s := { s with ctes := s.ctes ++ (ctes.filterMap SqlTree.cteName).map String.toLower }
    let (ctes, s) ← visitAllWith inner ctes s
    let (parts, s) ← visitAllWith inner parts s
    return (.query recursive ctes parts, s)
  | .cte as_ query, s => do
    let (query, s) ← visitWith inner query s
    return (.cte as_ query, s)
  | .table name as_ modifiers, s => do
    let (modifiers, s) ← visitAllWith inner modifiers s
    return (.table name as_ modifiers, s)
  | .tableFunction name args as_ modifiers, s =>
    if isVectorSearch P name then do
      let (factor, search) ← expandCall P F s.searches.length args as_ modifiers
      let s := { s with searches := s.searches ++ [search] }
      match factor with
      | .derived lateral subquery as_ sample => do
        let (subquery, s) ← inner subquery s
        return (.derived lateral subquery as_ sample, s)
      | factor => return (factor, s)
    else do
      let (args, s) ← visitAllWith inner args s
      let (modifiers, s) ← visitAllWith inner modifiers s
      return (.tableFunction name args as_ modifiers, s)
  | .derived lateral subquery as_ sample, s => do
    let (subquery, s) ← visitWith inner subquery s
    let (sample, s) ← visitAllWith inner sample s
    return (.derived lateral subquery as_ sample, s)
  | .argument kind parts, s => do
    let (parts, s) ← visitAllWith inner parts s
    return (.argument kind parts, s)
  | .array elem named, s => do
    let (elem, s) ← visitAllWith inner elem s
    return (.array elem named, s)
  | .unaryOp op e, s => do
    let (e, s) ← visitWith inner e s
    return (.unaryOp op e, s)
  | .node kind parts, s => do
    let (parts, s) ← visitAllWith inner parts s
    return (.node kind parts, s)
  | .identifier i, s => return (.identifier i, s)
  | .number text, s => return (.number text, s)
  | .string text, s => return (.string text, s)

def visitAllWith (inner : SqlTree → Expand → Except PeqlError (SqlTree × Expand)) :
    List SqlTree → Expand → Except PeqlError (List SqlTree × Expand)
  | [], s => return ([], s)
  | t :: ts, s => do
    let (t, s) ← visitWith inner t s
    let (ts, s) ← visitAllWith inner ts s
    return (t :: ts, s)

end

/-- The visit of a subquery that replaces a call, which has no call in it. -/
def visitInner : SqlTree → Expand → Except PeqlError (SqlTree × Expand) := visitWith P F fun t s => return (t, s)

/-- `statements.visit`. -/
def visitAll : List SqlTree → Expand → Except PeqlError (List SqlTree × Expand) := visitAllWith P F (visitInner P F)

/-- `expand`: the statement with its searches as subqueries, and the searches. -/
def expand (sql : String) : Except PeqlError (String × List Search) := do
  match P.parseSql sql with
  | .error e => throw (invalidSearch e)
  | .ok statements => do
    let (statements, s) ← visitAll P F statements ⟨[], []⟩
    if s.searches.any fun search => search.table.toLower ∈ s.ctes then
      throw (invalidSearch "a CTE cannot shadow a vector_search contract target")
    else
      match s.searches, statements with
      | _ :: _, statement :: _ => return (P.print statement, s.searches)
      | _, _ => return (sql, s.searches)

end Visit

/-! ## The function of a search -/

/-- `Search::udf`: a search's function over the exposed columns of its table. `fixedSizeList` reads a list type's
element type and dimension off its name. -/
def Search.udf (fixedSizeList : String → Option (String × Int)) (s : Search) (schema : List ColumnDef) :
    Except PeqlError VectorUdf :=
  if schema.any fun f => f.name = "distance" then
    .error (invalidSearch "contract already exposes the reserved result column distance")
  else
    match schema.find? fun f => f.name = s.column with
    | none => .error (invalidSearch "embedding column is not exposed by the contract")
    | some field =>
      match fixedSizeList field.ty with
      | none => .error (invalidSearch "embedding column must be fixed_size_list<float32, N>")
      | some (element, dimension) =>
        if dimension ≤ 0 ∨ element ≠ "Float32" then
          .error (invalidSearch "embedding column must have positive dimension and float32 elements")
        else if dimension ≠ s.vector.length then
          .error (invalidSearch s!"query dimension {s.vector.length} does not match column dimension {dimension}")
        else .ok ⟨s.function, field.ty, s.vector, s.metric⟩

end Peql
