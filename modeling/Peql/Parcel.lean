import Peql.Gate.Plan

/-!
# Compiled contracts

What peQL reads of parcel's compiled form of a contract: its view (admits, flags, projection, in their live and stored
forms), the columns a write adds, and the rules and statistics a validation decides.
-/

namespace Peql

/-- What a failing `assert` does to its row. -/
inductive AssertOnFail
  | drop | deny | report
deriving DecidableEq

/-- What a failing `guarantee` does to a read. -/
inductive GuaranteeOnFail
  | deny | annotate
deriving DecidableEq

/-- A compiled `assert`: the column it is stored in, and its expression, true on a row that passes. -/
structure Flag where
  assertId : String
  column : String
  onFail : AssertOnFail
  expr : Expr

/-- A compiled `guarantee`, with the statistics it reads. -/
structure GuaranteeRule where
  id : String
  onFail : GuaranteeOnFail
  reads : List String
  cel : String
deriving DecidableEq

structure DerivedColumn where
  column : String
  expr : Expr

inductive ColumnStat
  | nullCount | nullRate | min | max | distinctCount
deriving DecidableEq

/-- What a statistic is of. -/
inductive DatasetField
  | rowCount
  | assertionPassRate (assertion : String)
  | column (column : String) (stat : ColumnStat)
  | other (name : String)
  | writtenAt
  | contractHash
deriving DecidableEq

/-- The type of a statistic's value. -/
inductive StatType
  | int | uint | double
  | decimal (scale : Nat)
  | string | bool | timestamp | other
deriving DecidableEq

/-- A statistic a validation computes, under the column its value has in the verdict. -/
structure Stat where
  column : String
  field : DatasetField
  ty : StatType
deriving DecidableEq

structure ColumnDef where
  name : String
  ty : String
  nullable : Bool
deriving DecidableEq

/-- Where a contract's data is, as its document says. -/
inductive Source
  | parquet (path : String)
  | iceberg (table : String)
deriving DecidableEq

structure CompiledContract where
  name : String
  version : Nat
  owner : Option String
  source : Source
  contractHash : String
  compilationHash : String
  /-- The functions it pins, with the hash each must have. -/
  functions : List (String × String)
  decisions : List String
  /-- The columns the data is written with. -/
  rowSchema : List ColumnDef
  /-- The columns enrichment adds. -/
  enrich : List DerivedColumn
  admits : List (String × Expr)
  admitsStored : List (String × Expr)
  projection : List (String × Expr)
  projectionStored : List (String × Expr)
  flags : List Flag
  /-- The derived columns the data is stored with. -/
  derived : List ColumnDef
  guarantees : List GuaranteeRule
  exposedSchema : List ColumnDef

/-- The columns a write computes for every row. -/
structure WritePlan where
  flags : List Flag
  derived : List DerivedColumn

/-- What a validation decides: its asserts, its statistics, and the guarantees the data alone decides. -/
structure ValidationPlan where
  asserts : List String
  stats : List Stat
  dataGuarantees : List String

structure Compilation where
  contract : CompiledContract
  write : WritePlan
  validation : ValidationPlan

end Peql
