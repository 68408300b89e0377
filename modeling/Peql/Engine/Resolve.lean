import Peql.Engine.Facts

/-!
# Resolving a contract for a caller

`Engine::resolve_with` admits a caller, takes the data's manifest, checks its guarantees and counts the rows that break
its row rules; `Engine::contract_view` is the plan that then stands in for the contract, with the rows its scan reads.
-/

namespace Peql

section Pure

variable (R : Runtime)

/-- Whether a guarantee holds: as it was last decided by a validation, when the data alone decides it; of one that reads
a statistic not known since, nothing is judged. -/
def holds (c : Compilation) (caller : Caller) (m : Manifest) (g : GuaranteeRule) : Except PeqlError Bool :=
  if g.id ∈ c.validation.dataGuarantees then .ok ((m.guarantees g.id).all GuaranteeCheck.holds)
  else if undecided c g m.stats then .ok true
  else
    match R.evalBool g c caller m.stats m.writtenAt m.contractHash with
    | .ok b => .ok b
    | .error e => .error (.invalid e)

/-- The guarantees that fail with `annotate`; one that fails with `deny` fails the read. -/
def annotations (c : Compilation) (caller : Caller) (m : Manifest) : List GuaranteeRule → Except PeqlError (List String)
  | [] => .ok []
  | g :: gs => do
    if ← holds R c caller m g then annotations c caller m gs
    else
      match g.onFail with
      | .deny => .error (.guaranteeFailed c.contract.name g.id)
      | .annotate => do
        let rest ← annotations c caller m gs
        return g.id :: rest

/-- What a read of a contract by an admitted caller is, from the manifest that decides it. -/
def resolution (e : Engine) (reg : Registered) (caller : Caller) (onViolation : OnReadViolation) (m : Manifest) :
    Except PeqlError Resolution :=
  let c := reg.compilation
  let cc := c.contract
  let guarantees := m.breached.filter fun b => cc.guarantees.any fun g => g.id = b
  let broken := broken cc.flags m.failures
  if !guarantees.isEmpty then .error (.notServable cc.name guarantees)
  else if onViolation = .refuse && !broken.isEmpty then .error (.violated cc.name broken)
  else do
    let annotations ← annotations R c caller m cc.guarantees
    let shapes ← R.activeShapes cc caller
    let bound ← e.bound reg
    return {
      contract := cc.name
      version := cc.version
      contractHash := cc.contractHash
      compilationHash := cc.compilationHash
      decisions := cc.decisions
      annotations := annotations
      shapes := shapes.map ShapeRule.id
      flagsMaterialised := bound.isFiles && e.useStored && m.flagsCurrent cc.contractHash
      snapshotId := m.snapshotId
      excluded := broken }

variable {R}

/-- What a resolution says, of the contract and of the manifest that decides it. -/
structure ResolvedBy (e : Engine) (reg : Registered) (onViolation : OnReadViolation) (m : Manifest) (a : Resolution) :
    Prop where
  contract : a.contract = reg.name
  contractHash : a.contractHash = reg.compilation.contract.contractHash
  compilationHash : a.compilationHash = reg.compilation.contract.compilationHash
  flagsMaterialised : a.flagsMaterialised = true →
    e.useStored = true ∧ m.flagsCurrent reg.compilation.contract.contractHash = true
  snapshotId : a.snapshotId = m.snapshotId
  excluded : a.excluded = broken reg.compilation.contract.flags m.failures
  refused : onViolation = .refuse → a.excluded = []

theorem resolution_ok {e : Engine} {reg : Registered} {caller : Caller} {onViolation : OnReadViolation} {m : Manifest}
    {a : Resolution} (h : resolution R e reg caller onViolation m = .ok a) : ResolvedBy e reg onViolation m a := by
  unfold resolution at h
  dsimp only at h
  split at h
  · cases h
  split at h
  · cases h
  next hrefuse =>
  simp only [bind_eq_ok] at h
  obtain ⟨annotations, _, shapes, _, bound, _, h⟩ := h
  cases h
  refine ⟨rfl, rfl, rfl, fun hstored => ?_, rfl, rfl, fun hon => ?_⟩
  · simp only [Bool.and_eq_true] at hstored
    exact ⟨hstored.1.2, hstored.2⟩
  · simpa [hon] using hrefuse

end Pure

section Calls

variable (R : Runtime)

/-- `resolve_with`: over the manifest `manifest` gives, read only once the caller has been admitted. -/
def resolveWith (name : String) (caller : Caller) (onViolation : OnReadViolation) (manifest : Ask (Option Manifest)) :
    Ask (Resolution × Manifest) := do
  let reg ← Ask.engine fun e => e.visible name caller
  let cc := reg.compilation.contract
  Effects.ofExcept (R.verifyPins cc.functions)
  match ← Effects.ofExcept (R.refusal cc caller) with
  | some rule => throw (.denied cc.name rule)
  | none => do
    match ← manifest with
    | none => throw (.notWritten cc.name)
    | some m => do
      let r ← Ask.engine fun e => resolution R e reg caller onViolation m
      return (r, m)

/-- `resolve`. -/
def resolve (name : String) (caller : Caller) (onViolation : OnReadViolation) : Ask (Resolution × Manifest) :=
  resolveWith R name caller onViolation (manifest name)

/-- The rows a view of a contract scans: its bound table's, the snapshot's it was resolved for, or its files'. -/
def viewedRows (name : String) (reg : Registered) (resolution : Resolution) : Ask (Multiset Row) := do
  let cc := reg.compilation.contract
  match ← Ask.engine fun e => e.bound reg with
  | .table batches => pure (batchRows batches)
  | .files (.iceberg table) => do
    let (t, snapshot) ← icebergSnapshot table name resolution.snapshotId
    Effects.ofExcept (t.provider table cc resolution.flagsMaterialised snapshot)
  | .files l => do
    let files ← listFiles l
    pure (providedRows cc resolution.flagsMaterialised files)

/-- `contract_view`: the plan that stands in for a contract, and the rows its scan reads. -/
def contractViewFor (name : String) (caller : Caller) (resolution : Resolution) : Ask (Plan × Multiset Row) := do
  let reg ← Ask.engine fun e => e.visible name caller
  let cc := reg.compilation.contract
  let rows ← viewedRows name reg resolution
  let params ← Effects.ofExcept (R.paramValues cc caller)
  return (contractView R.enrichment cc resolution.flagsMaterialised (Lookup.ofList params), rows)

/-- `describe`: the exposed columns, if the contract admits the caller at all. -/
def describeFor (name : String) (caller : Caller) : Ask (List ColumnDef) := do
  let reg ← Ask.engine fun e => e.visible name caller
  match ← Effects.ofExcept (R.refusal reg.compilation.contract caller) with
  | some rule => throw (.denied reg.compilation.contract.name rule)
  | none => return reg.compilation.contract.exposedSchema

/-- `list_for`: the contracts a caller may see. -/
def listFor (caller : Caller) : Ask (List Registered) :=
  Ask.engine fun e => .ok (e.store.list.filter fun r => (e.visible r.name caller).isOk)

/-- `authorize_write`: the contract's owner tenant may write, and anyone for a contract with no owner. -/
def authorizeWrite (name : String) (caller : Caller) : Ask Unit := do
  let reg ← Ask.engine fun e => e.visible name caller
  match reg.owner with
  | some owner => if owner ≠ caller.tenant then throw (.denied name "writes are the owner's") else pure ()
  | none => pure ()

end Calls

end Peql
