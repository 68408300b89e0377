import Mathlib.Order.Lattice
import Mathlib.Data.Multiset.ZeroCons
import Mathlib.Data.Multiset.AddSub
import Mathlib.Order.Compare

/-!
# The least or greatest of some values

Values compare by a key, which not every value has. `First want key xs v` says that `v` is among `xs` and comes first
(`want = .lt`: least; `want = .gt`: greatest). It is unique up to the key, and the first of two collections taken
together is the better of their firsts (`First.add`), so it can be kept up to date without reading a collection again.
-/

namespace Extreme

variable {α κ : Type*} [LinearOrder κ]

/-- `a` comes no later than `b`. -/
def Ahead (want : Ordering) (a b : κ) : Prop := compare a b = want ∨ a = b

theorem ahead_lt {a b : κ} : Ahead .lt a b ↔ a ≤ b := by
  unfold Ahead
  rw [compare_lt_iff_lt]
  exact le_iff_lt_or_eq.symm

theorem ahead_gt {a b : κ} : Ahead .gt a b ↔ b ≤ a := by
  unfold Ahead
  rw [compare_gt_iff_gt]
  constructor
  · rintro (h | rfl)
    · exact le_of_lt h
    · exact le_refl a
  · intro h
    rcases lt_or_eq_of_le h with h | h
    · exact .inl h
    · exact .inr h.symm

theorem Ahead.refl (want : Ordering) (a : κ) : Ahead want a a := .inr rfl

theorem Ahead.trans {want : Ordering} (hw : want ≠ .eq) {a b c : κ} (h : Ahead want a b) (h' : Ahead want b c) :
    Ahead want a c := by
  cases want with
  | lt => exact ahead_lt.2 (le_trans (ahead_lt.1 h) (ahead_lt.1 h'))
  | gt => exact ahead_gt.2 (le_trans (ahead_gt.1 h') (ahead_gt.1 h))
  | eq => exact absurd rfl hw

theorem Ahead.antisymm {want : Ordering} (hw : want ≠ .eq) {a b : κ} (h : Ahead want a b) (h' : Ahead want b a) :
    a = b := by
  cases want with
  | lt => exact le_antisymm (ahead_lt.1 h) (ahead_lt.1 h')
  | gt => exact le_antisymm (ahead_gt.1 h') (ahead_gt.1 h)
  | eq => exact absurd rfl hw

/-- Of two keys, the one that is not ahead is behind. -/
theorem Ahead.of_not {want : Ordering} (hw : want ≠ .eq) {a b : κ} (h : compare a b ≠ want) : Ahead want b a := by
  cases want with
  | lt => exact ahead_lt.2 (not_lt.1 fun hlt => h (compare_lt_iff_lt.2 hlt))
  | gt => exact ahead_gt.2 (not_lt.1 fun hlt => h (compare_gt_iff_gt.2 hlt))
  | eq => exact absurd rfl hw

/-- `v` is among `xs`, and its key comes first. -/
def First (want : Ordering) (key : α → Option κ) (xs : Multiset α) (v : α) : Prop :=
  v ∈ xs ∧ ∃ k, key v = some k ∧ ∀ x ∈ xs, ∃ l, key x = some l ∧ Ahead want k l

variable {want : Ordering} {key : α → Option κ} {xs ys : Multiset α} {v w : α}

/-- The first of values that their keys tell apart is unique. -/
theorem First.unique (hw : want ≠ .eq) (hinj : ∀ x ∈ xs, ∀ y ∈ xs, key x = key y → x = y)
    (h : First want key xs v) (h' : First want key xs w) : v = w := by
  obtain ⟨hv, k, hk, hfirst⟩ := h
  obtain ⟨hw', l, hl, hfirst'⟩ := h'
  obtain ⟨l', hl', hkl⟩ := hfirst w hw'
  obtain ⟨k', hk', hlk⟩ := hfirst' v hv
  rw [hl] at hl'
  rw [hk] at hk'
  cases hl'
  cases hk'
  exact hinj v hv w hw' (by rw [hk, hl, hkl.antisymm hw hlk])

/-- The better of the firsts of two collections is the first of both. -/
theorem First.add (hw : want ≠ .eq) {k l : κ} (hk : key v = some k) (hl : key w = some l)
    (h : First want key xs v) (h' : First want key ys w) :
    First want key (xs + ys) (if compare k l = want then v else w) := by
  obtain ⟨hv, k', hk', hfirst⟩ := h
  obtain ⟨hw', l', hl', hfirst'⟩ := h'
  rw [hk] at hk'
  rw [hl] at hl'
  cases hk'
  cases hl'
  split
  · next hlt =>
    refine ⟨Multiset.mem_add.2 (.inl hv), k, hk, fun x hx => ?_⟩
    rcases Multiset.mem_add.1 hx with hx | hx
    · exact hfirst x hx
    · obtain ⟨m, hm, hle⟩ := hfirst' x hx
      exact ⟨m, hm, Ahead.trans hw (.inl hlt) hle⟩
  · next hlt =>
    refine ⟨Multiset.mem_add.2 (.inr hw'), l, hl, fun x hx => ?_⟩
    rcases Multiset.mem_add.1 hx with hx | hx
    · obtain ⟨m, hm, hle⟩ := hfirst x hx
      exact ⟨m, hm, Ahead.trans hw (Ahead.of_not hw hlt) hle⟩
    · exact hfirst' x hx

/-- With a value that stands for no values at all. -/
def FirstOr (none : α) (want : Ordering) (key : α → Option κ) (xs : Multiset α) (v : α) : Prop :=
  (xs = 0 ∧ v = none) ∨ (v ≠ none ∧ First want key xs v)

theorem FirstOr.unique {none : α} (hw : want ≠ .eq) (hinj : ∀ x ∈ xs, ∀ y ∈ xs, key x = key y → x = y)
    (h : FirstOr none want key xs v) (h' : FirstOr none want key xs w) : v = w := by
  rcases h with ⟨hxs, rfl⟩ | ⟨_, h⟩
  · rcases h' with ⟨_, rfl⟩ | ⟨_, h'⟩
    · rfl
    · exact absurd h'.1 (by simp [hxs])
  · rcases h' with ⟨hxs, _⟩ | ⟨_, h'⟩
    · exact absurd h.1 (by simp [hxs])
    · exact h.unique hw hinj h'

end Extreme
