import Mathlib.Algebra.Order.Ring.Nat
import Peql.Lib.Lookup
import Peql.Parcel

/-!
# Rows that break a contract's row rules

A row breaks its contract when it fails an `assert` whose `on_fail` is `drop` or `deny`; an assert with `report` only
counts its failures.
-/

namespace Peql

/-- What a write does when rows it is given break the contract's row rules. -/
inductive OnWriteViolation
  | refuse | exclude | warn
deriving DecidableEq

/-- What a read does when the data it reads holds rows that break the contract's row rules. -/
inductive OnReadViolation
  | exclude | refuse
deriving DecidableEq

/-- Whether a row can break an assert that fails with `on_fail`. -/
def enforced : AssertOnFail → Bool
  | .drop | .deny => true
  | .report => false

/-- The flags of the asserts a row can break, in the contract's order. -/
def enforcedFlags (flags : List Flag) : List Flag := flags.filter fun f => enforced f.onFail

/-- Rows breaking each rule, from per-assert failure counts. -/
def broken (flags : List Flag) (failures : Lookup String Int) : List (String × Nat) :=
  (enforcedFlags flags).filterMap fun f =>
    let n := (failures f.assertId).getD 0
    if 0 < n then some (f.assertId, n.toNat) else none

theorem mem_enforcedFlags {flags : List Flag} {f : Flag} :
    f ∈ enforcedFlags flags ↔ f ∈ flags ∧ enforced f.onFail = true := List.mem_filter

/-- What `broken` counts: an enforced assert with failing rows, and how many they are. -/
theorem mem_broken {flags : List Flag} {failures : Lookup String Int} {rule : String} {n : Nat} :
    (rule, n) ∈ broken flags failures ↔
      ∃ f ∈ flags, enforced f.onFail = true ∧ f.assertId = rule ∧ 0 < n ∧ failures rule = some (n : Int) := by
  unfold broken
  rw [List.mem_filterMap]
  constructor
  · rintro ⟨f, hf, heq⟩
    obtain ⟨hmem, henf⟩ := mem_enforcedFlags.1 hf
    by_cases hpos : 0 < (failures f.assertId).getD 0
    · simp only [if_pos hpos, Option.some.injEq, Prod.mk.injEq] at heq
      obtain ⟨rfl, rfl⟩ := heq
      cases hfail : failures f.assertId with
      | none => simp [hfail] at hpos
      | some k =>
        rw [hfail] at hpos
        simp only [Option.getD_some] at hpos ⊢
        exact ⟨f, hmem, henf, rfl, by omega, by congr 1; omega⟩
    · simp [if_neg hpos] at heq
  · rintro ⟨f, hmem, henf, rfl, hpos, hfail⟩
    refine ⟨f, mem_enforcedFlags.2 ⟨hmem, henf⟩, ?_⟩
    simp [hfail, hpos]

/-- Nothing is broken when no enforced assert has a failing row. -/
theorem broken_eq_nil {flags : List Flag} {failures : Lookup String Int} :
    broken flags failures = [] ↔
      ∀ f ∈ flags, enforced f.onFail = true → (failures f.assertId).getD 0 ≤ 0 := by
  unfold broken
  rw [List.filterMap_eq_nil_iff]
  constructor
  · intro h f hf henf
    have hnone := h f (mem_enforcedFlags.2 ⟨hf, henf⟩)
    by_contra hpos
    simp [show 0 < (failures f.assertId).getD 0 by omega] at hnone
  · intro h f hf
    obtain ⟨hmem, henf⟩ := mem_enforcedFlags.1 hf
    have hle := h f hmem henf
    simp [show ¬ 0 < (failures f.assertId).getD 0 by omega]

end Peql
