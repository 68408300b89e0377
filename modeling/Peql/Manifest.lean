import Mathlib.Data.Rat.Defs
import Mathlib.Algebra.Order.Ring.Rat
import Mathlib.Data.List.Sort
import Peql.Error
import Peql.Lib.Lookup
import Peql.Parcel

/-!
# The dataset manifest

What one contract knows about the data bound to it, and its encoding: facts of another format are not recorded, facts of
this format that do not decode are refused. Times are milliseconds, and the hash of bytes is a parameter.
-/

namespace Peql

/-- A JSON value, as the statistics of a verdict are. -/
inductive Json
  | null
  | bool (b : Bool)
  | int (n : Int)
  | float (q : ℚ)
  | str (s : String)
deriving DecidableEq

namespace Json

def asI64 : Json → Option Int
  | int n => some n
  | _ => none

def asU64 : Json → Option Nat
  | int n => if 0 ≤ n then some n.toNat else none
  | _ => none

def asF64 : Json → Option ℚ
  | int n => some n
  | float q => some q
  | _ => none

def asStr : Json → Option String
  | str s => some s
  | _ => none

def asBool : Json → Option Bool
  | bool b => some b
  | _ => none

end Json

/-- The last decision of one guarantee over the whole data. -/
structure GuaranteeCheck where
  holds : Bool
  snapshotId : Option Int
  decidedAt : Int
deriving DecidableEq

inductive FlagStatus
  | allPass | allFail | mixed
deriving DecidableEq

structure FileEntry where
  path : String
  rows : Int
  bytes : Nat
  /-- The contract hash the file was written under. -/
  contractHash : String
  flags : Lookup String FlagStatus
  /-- Nulls per column the file's footer counts them of. -/
  nullCounts : Lookup String Int
  sha256 : String

structure Manifest where
  contract : String
  contractHash : String
  compilationHash : String
  writtenAt : Int
  rowCount : Int
  failures : Lookup String Int
  valid : Bool
  breached : List String
  guarantees : Lookup String GuaranteeCheck
  stats : Lookup String Json
  dataHash : String
  rowSchema : List ColumnDef
  files : List FileEntry
  snapshotId : Option Int

/-- What a table holds, from its facts and never from its files. -/
structure TableStats where
  rowCount : Int
  nullCounts : Lookup String Int

/-- Entries by their path. -/
def pathLe (a b : FileEntry) : Bool := a.path ≤ b.path

theorem pathLe_trans (a b c : FileEntry) : pathLe a b → pathLe b c → pathLe a c := by
  simp only [pathLe, decide_eq_true_eq]
  exact le_trans

theorem pathLe_total (a b : FileEntry) : pathLe a b || pathLe b a := by
  simp only [pathLe, Bool.or_eq_true, decide_eq_true_eq]
  exact le_total _ _

/-- sha256 over (path, sha256 of bytes) for every file, in path order. -/
def dataHash (sha256 : String → String) (files : List FileEntry) : String :=
  sha256 ((files.mergeSort pathLe).foldl (fun acc f => acc ++ f.path ++ ":" ++ f.sha256 ++ "\n") "")

namespace Manifest

/-- Nulls of a column over every file, when every file counts them. -/
def nulls (files : List FileEntry) (column : String) : Option Int :=
  (files.mapM fun f : FileEntry => f.nullCounts column).map List.sum

/-- The data's statistics over `columns`, summed from its files' entries. -/
def tableStats (m : Manifest) (columns : List String) : TableStats where
  rowCount := m.rowCount
  nullCounts c := if c ∈ columns then nulls m.files c else none

/-- Every file was written under this contract hash, so stored flags and derived columns can replace live rules. -/
def flagsCurrent (m : Manifest) (contractHash : String) : Bool :=
  !m.files.isEmpty && m.files.all fun f => f.contractHash == contractHash

end Manifest

/-! ## Facts as recorded -/

/-- What is recorded under a facts file's name. -/
inductive Recorded (α : Type)
  | absent
  /-- Bytes that are not a JSON object, or that are of this format and do not decode. -/
  | corrupt (cause : String)
  /-- A JSON object of another format, or with none. -/
  | otherFormat
  | facts (a : α)

namespace Recorded

variable {α : Type}

def isAbsent : Recorded α → Bool
  | absent => true
  | _ => false

/-- `decode` of what is recorded: facts of another format are treated as not recorded. -/
def load (file : String) : Recorded α → Except String (Option α)
  | absent | otherFormat => .ok none
  | corrupt cause => .error (file ++ ": " ++ cause)
  | facts a => .ok (some a)

theorem load_facts {file : String} {r : Recorded α} {a : α} : r.load file = .ok (some a) ↔ r = .facts a := by
  cases r <;> simp [load]

end Recorded

end Peql
