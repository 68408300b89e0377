import Mathlib.Order.Lattice
import Mathlib.Algebra.Order.Round
import Mathlib.Data.Rat.Floor
import Peql.Manifest
import Peql.Violation

/-!
# What a write knows, and what the data is known to be after it

`facts.rs`: a write validates its own rows under the contract's validation plan (`ofRows`), and the facts of the data it
wrote to become what they were combined with its own (`afterWrite`): counts add, null rates are turned back into counts,
minima and maxima compare in the statistic's type, and a statistic that does not combine is left out.
-/

namespace Peql

/-- What a write did to the data's files. -/
inductive Written
  | append | overwrite
  /-- Replaced some of the data's files with its own, which hold the same rows. -/
  | rewrite
deriving DecidableEq

/-- The facts of one write under one contract. -/
structure WriteFacts where
  written : Written
  facts : Manifest
  /-- The files a rewrite replaced, by path. -/
  removed : List String

/-- What parcel's validation plan finds over some rows. -/
structure Verdict where
  rowCount : Int
  failures : Lookup String Int
  valid : Bool
  breached : List String
  guarantees : Lookup String Bool
  stats : Lookup String Json

/-- Deny-level asserts with failing rows, in the contract's order. -/
def failedAsserts (c : Compilation) (failures : Lookup String Int) : List String :=
  ((c.contract.flags.filter fun f => f.onFail = .deny).filter fun f =>
    0 < (failures f.assertId).getD 0).map Flag.assertId

/-- The verdict of the row rules over a write's rows. -/
def ofRows (c : Compilation) (verdict : Verdict) : Verdict :=
  let breached := failedAsserts c verdict.failures
  { verdict with breached := breached, valid := breached.isEmpty, guarantees := Lookup.empty }

/-- Whether `stats` lacks a statistic guarantee `g` reads. -/
def undecided (c : Compilation) (g : GuaranteeRule) (stats : Lookup String Json) : Bool :=
  g.reads.any fun r => (c.validation.stats.any fun s => s.column = r) && (stats r).isNone

/-- The deny-level rules data with these failure counts and guarantee decisions breaks. -/
def breached (c : Compilation) (failures : Lookup String Int) (checks : Lookup String GuaranteeCheck) : List String :=
  failedAsserts c failures ++
    ((c.contract.guarantees.filter fun g => g.onFail = .deny ∧ (checks g.id).any fun k => !k.holds).map
      GuaranteeRule.id)

/-- The decisions a whole validation's verdict makes. -/
def checks (verdict : Verdict) (snapshotId : Option Int) (decidedAt : Int) : Lookup String GuaranteeCheck :=
  fun id => (verdict.guarantees id).map fun holds => ⟨holds, snapshotId, decidedAt⟩

/-! ## Statistics that combine -/

/-- How parcel reads the texts of decimals and timestamps. -/
structure Parsers where
  parseDecimal : String → Nat → Option Int
  parseTimestamp : String → Option Int

/-- What values of a statistic's type compare by. -/
def StatKey : StatType → Type
  | .int => Int
  | .uint => Nat
  | .double => ℚ
  | .decimal _ => Int
  | .string => String
  | .bool => Bool
  | .timestamp => Int
  | .other => Unit

instance : (ty : StatType) → LinearOrder (StatKey ty)
  | .int => inferInstanceAs (LinearOrder Int)
  | .uint => inferInstanceAs (LinearOrder Nat)
  | .double => inferInstanceAs (LinearOrder ℚ)
  | .decimal _ => inferInstanceAs (LinearOrder Int)
  | .string => inferInstanceAs (LinearOrder String)
  | .bool => inferInstanceAs (LinearOrder Bool)
  | .timestamp => inferInstanceAs (LinearOrder Int)
  | .other => inferInstanceAs (LinearOrder Unit)

/-- A statistic's value as what it compares by, when it is of the type. -/
def statKey (p : Parsers) : (ty : StatType) → Json → Option (StatKey ty)
  | .int, v => v.asI64
  | .uint, v => v.asU64
  | .double, v => v.asF64
  | .decimal scale, v => v.asStr.bind fun s => p.parseDecimal s scale
  | .string, v => v.asStr
  | .bool, v => v.asBool
  | .timestamp, v => v.asStr.bind p.parseTimestamp
  | .other, _ => none

/-- The least (`lt`) or greatest (`gt`) of two values of a statistic of type `ty`; a null is the statistic of rows with
no value, so the other one stands. -/
def extreme (p : Parsers) (ty : StatType) (x y : Json) (want : Ordering) : Option Json :=
  if x = .null then some y
  else if y = .null then some x
  else do
    let a ← statKey p ty x
    let b ← statKey p ty y
    some (if compare a b = want then x else y)

/-- The nulls a null rate over some rows stands for. -/
def nullsOf (rate : Json) (rows : Int) : Option Int := rate.asF64.map fun q => round (q * (rows : ℚ))

/-- A statistic of two sets of rows taken together, from the statistics of each; `rows` and `failures` are of both. -/
def combinedStat (p : Parsers) (a b : Manifest) (rows : Int) (failures : Lookup String Int) (s : Stat) : Option Json :=
  match s.field with
  | .rowCount => some (.int rows)
  | .assertionPassRate assertion =>
    let failed := (failures assertion).getD 0
    some (.float (if 0 < rows then 1 - failed / rows else 1))
  | .column _ .nullCount => do
    let x ← a.stats s.column
    let y ← b.stats s.column
    some (.int ((← x.asI64) + (← y.asI64)))
  | .column _ .nullRate => do
    let x ← a.stats s.column
    let y ← b.stats s.column
    let n := (← nullsOf x a.rowCount) + (← nullsOf y b.rowCount)
    some (.float (if 0 < rows then n / rows else 0))
  | .column _ .min => do extreme p s.ty (← a.stats s.column) (← b.stats s.column) .lt
  | .column _ .max => do extreme p s.ty (← a.stats s.column) (← b.stats s.column) .gt
  | .column _ .distinctCount | .other _ | .writtenAt | .contractHash => none

/-- The statistics of two sets of rows taken together, for every statistic that combines. -/
def combinedStats (p : Parsers) (c : Compilation) (a b : Manifest) (rows : Int) (failures : Lookup String Int) :
    Lookup String Json :=
  Lookup.fill Stat.column (combinedStat p a b rows failures) c.validation.stats Lookup.empty

/-! ## After a write -/

/-- The failures of two sets of rows taken together. -/
def combinedFailures (c : Compilation) (a b : Manifest) : Lookup String Int := fun assertion =>
  if assertion ∈ c.validation.asserts then
    some ((a.failures assertion).getD 0 + (b.failures assertion).getD 0)
  else none

/-- The manifest after a rewrite: the files replaced, all else as it was. -/
def rewritten (cc : CompiledContract) (b w : Manifest) (removed : List String) : Except PeqlError Manifest :=
  let gone := b.files.filter fun f => f.path ∈ removed
  if gone.length ≠ removed.dedup.length then
    .error (.invalid s!"a rewrite under `{cc.name}` replaced files its facts do not list")
  else if (gone.map FileEntry.rows).sum ≠ w.rowCount then
    .error (.invalid
      s!"a rewrite under `{cc.name}` replaced files of {(gone.map FileEntry.rows).sum} rows with {w.rowCount} rows")
  else .ok { b with files := (b.files.filter fun f => f.path ∉ removed) ++ w.files }

/-- The manifest after an append. -/
def appended (p : Parsers) (c : Compilation) (b w : Manifest) (writtenAt : Int) : Manifest :=
  let rowCount := b.rowCount + w.rowCount
  let failures := combinedFailures c b w
  { w with
    writtenAt := writtenAt
    rowCount := rowCount
    failures := failures
    stats := combinedStats p c b w rowCount failures
    files := b.files ++ w.files
    guarantees := b.guarantees }

/-- What every write leaves: the files in path order with their hash, the snapshot, and the rules broken. -/
def settled (sha256 : String → String) (c : Compilation) (snapshotId : Option Int) (m : Manifest) : Manifest :=
  let files := m.files.mergeSort pathLe
  let rules := breached c m.failures m.guarantees
  { m with
    files := files
    dataHash := dataHash sha256 files
    snapshotId := snapshotId
    breached := rules
    valid := rules.isEmpty }

/-- What a contract knows about its data after a write, from what it knew before (`none` for data with no rows) and the
write's facts; `none` when either was computed under another compilation of the contract. -/
def afterWrite (sha256 : String → String) (p : Parsers) (c : Compilation) (before : Option Manifest)
    (write : WriteFacts)
    (writtenAt : Int) (snapshotId : Option Int) : Except PeqlError (Option Manifest) :=
  let cc := c.contract
  let w := write.facts
  let first : Manifest := { w with writtenAt := writtenAt, guarantees := Lookup.empty }
  if w.compilationHash ≠ cc.compilationHash then .ok none
  else
    match write.written, before with
    | .overwrite, _ | .append, none => .ok (some (settled sha256 c snapshotId first))
    | .rewrite, none =>
      .error (.invalid s!"a rewrite under `{cc.name}` replaced files of data that had none")
    | .append, some b =>
      if b.compilationHash ≠ cc.compilationHash then .ok none
      else .ok (some (settled sha256 c snapshotId (appended p c b w writtenAt)))
    | .rewrite, some b =>
      if b.compilationHash ≠ cc.compilationHash then .ok none
      else (rewritten cc b w write.removed).map fun m => some (settled sha256 c snapshotId m)

/-! ## The manifests the engine computes -/

/-- `write_facts`: the facts of the rows a write wrote, from the verdict over them and the entries of its files. -/
def writeManifest (sha256 : String → String) (c : Compilation) (verdict : Verdict) (files : List FileEntry)
    (writtenAt : Int) : Manifest where
  contract := c.contract.name
  contractHash := c.contract.contractHash
  compilationHash := c.contract.compilationHash
  writtenAt := writtenAt
  rowCount := (ofRows c verdict).rowCount
  failures := (ofRows c verdict).failures
  valid := (ofRows c verdict).valid
  breached := (ofRows c verdict).breached
  guarantees := Lookup.empty
  stats := (ofRows c verdict).stats
  dataHash := dataHash sha256 files
  rowSchema := c.contract.rowSchema
  files := files
  snapshotId := none

/-- `refresh`: what a validation of the whole data records. -/
def wholeManifest (sha256 : String → String) (c : Compilation) (verdict : Verdict) (files : List FileEntry)
    (writtenAt decidedAt : Int) (snapshotId : Option Int) : Manifest where
  contract := c.contract.name
  contractHash := c.contract.contractHash
  compilationHash := c.contract.compilationHash
  writtenAt := writtenAt
  rowCount := verdict.rowCount
  failures := verdict.failures
  valid := verdict.valid
  breached := verdict.breached
  guarantees := checks verdict snapshotId decidedAt
  stats := verdict.stats
  dataHash := dataHash sha256 files
  rowSchema := c.contract.rowSchema
  files := files
  snapshotId := snapshotId

end Peql
