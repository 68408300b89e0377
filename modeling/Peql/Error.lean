import Mathlib.Data.String.Basic

/-!
# What a call can refuse or fail with

`PeqlError` is the crate's error type, with the text each variant displays (`display`) and the split into refusals by
policy and failures (`isRefusal`) that the audit log records. The errors of the libraries peQL calls are carried as
their texts.
-/

namespace Peql

/-- Everything a call can refuse or fail with. -/
inductive PeqlError
  | compile (diagnostics : List String)
  | unknownContract (name : String)
  | denied (contract rule : String)
  | notWritten (contract : String)
  | notServable (contract : String) (breached : List String)
  | violated (contract : String) (violations : List (String × Nat))
  | guaranteeFailed (contract rule : String)
  | budgetExhausted (budget : String)
  | refused (verb : String)
  | ungated (contract : String)
  | signing (cause : String)
  | invalid (message : String)
  | conflict (message : String)
  | dataFusion (message : String)
  | io (message : String)
  | iceberg (message : String)
  deriving DecidableEq, Repr

/-- `rule (n rows), …` for a refusal. -/
def describe (violations : List (String × Nat)) : String :=
  ", ".intercalate (violations.map fun (rule, n) => s!"{rule} ({n} row" ++ (if n = 1 then "" else "s") ++ ")")

namespace PeqlError

/-- The text of an error. -/
def display : PeqlError → String
  | compile ds => "contract does not compile:\n" ++ "\n".intercalate (ds.map ("  " ++ ·))
  | unknownContract n => "no contract named `" ++ n ++ "`"
  | denied c r => "denied by `" ++ c ++ "` rule `" ++ r ++ "`"
  | notWritten c => "`" ++ c ++ "` has no data yet; write to it first"
  | notServable c bs => "`" ++ c ++ "` is not servable: " ++ ", ".intercalate bs
  | violated c vs => "`" ++ c ++ "` refused rows that break its rules: " ++ describe vs
  | guaranteeFailed c r => "`" ++ c ++ "` guarantee `" ++ r ++ "` does not hold"
  | budgetExhausted b => "privacy budget `" ++ b ++ "` is exhausted for this caller"
  | refused v => "only queries are allowed: `" ++ v ++ "` is refused"
  | ungated c => "the plan for this query has no gate for `" ++ c ++ "`; it will not run"
  | signing m => "the envelope could not be signed: " ++ m
  | invalid m => m
  | conflict m => "write conflict: " ++ m
  | dataFusion m => m
  | io m => m
  | iceberg m => "iceberg: " ++ m

/-- Whether the call was refused by policy rather than failing. -/
def isRefusal : PeqlError → Bool
  | denied _ _ | notServable _ _ | violated _ _ | guaranteeFailed _ _ | budgetExhausted _ | refused _
  | unknownContract _ => true
  | _ => false

end PeqlError

/-- What a call in two steps returned, its two steps returned. -/
theorem bind_eq_ok {α β : Type} {x : Except PeqlError α} {f : α → Except PeqlError β} {b : β} :
    (x >>= f) = .ok b ↔ ∃ a, x = .ok a ∧ f a = .ok b := by
  cases x <;> simp [bind, Except.bind]

end Peql
