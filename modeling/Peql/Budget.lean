import Mathlib.Algebra.Order.Ring.Rat
import Mathlib.Algebra.BigOperators.Group.List.Lemmas
import Mathlib.Algebra.Order.BigOperators.Group.List
import Mathlib.Tactic.Linarith
import Mathlib.Tactic.NormNum
import Peql.Error
import Peql.Lib.Lookup

/-!
# The privacy budget ledger

Epsilon spent per caller per named budget (`BudgetStore`), with what the ledger's file holds beside it (`Book`).
`chargeAll` runs two loops over the charges: the first refuses when a charge alone does not fit under its budget's
limit, the second spends them; then the whole ledger is written to the file, which can fail. `chargeAll_saved`
and `chargeAll_unsaved` say what the second loop leaves, and the exact condition for a charge to keep the ledger's
promises follows (`kept_chargeAll_iff`): repeated budgets accumulate only in the second loop, and a failed save leaves
the ledger in memory ahead of the file.

Epsilons are exact rationals.
-/

namespace Peql

/-- Epsilon a caller may spend from a budget that has no limit of its own. -/
def defaultLimit : ℚ := 10

/-- How far past its limit a budget may be spent: `1e-12`. -/
def slack : ℚ := 1 / 1000000000000

/-- What the ledger's file holds: the limits, and what was spent under `budget\u{1f}caller`. -/
structure Ledger where
  limits : Lookup String ℚ
  spent : Lookup String ℚ

/-- A ledger in memory, kept in a JSON file when `file` is set; a `permissive` one never refuses. -/
structure BudgetStore where
  ledger : Ledger
  file : Bool
  defaultLimit : ℚ
  permissive : Bool

/-- A store and what its file holds; `none` when there is no file yet. -/
structure Book where
  store : BudgetStore
  disk : Option Ledger

/-- The key a caller's spending from a budget is kept under. -/
def key (caller budget : String) : String := budget ++ "\x1f" ++ caller

namespace Ledger

/-- The ledger of a store that was never used. -/
def empty : Ledger := ⟨Lookup.empty, Lookup.empty⟩

/-- What `caller` has spent from `budget`. -/
def spentOf (l : Ledger) (caller budget : String) : ℚ := (l.spent (key caller budget)).getD 0

end Ledger

namespace BudgetStore

def inMemory : BudgetStore := ⟨.empty, false, Peql.defaultLimit, false⟩

/-- `open`: a store kept in a file, from what the file holds. -/
def ofFile (disk : Option Ledger) : BudgetStore := ⟨disk.getD .empty, true, Peql.defaultLimit, false⟩

def limit (s : BudgetStore) (budget : String) : ℚ := (s.ledger.limits budget).getD s.defaultLimit

/-- Whether `epsilon` more from `budget` stays within its limit. -/
def fits (s : BudgetStore) (caller budget : String) (epsilon : ℚ) : Bool :=
  s.ledger.spentOf caller budget + epsilon ≤ s.limit budget + slack

/-- The first loop of `charge_all`: the first budget a charge does not fit in. -/
def exhausted (s : BudgetStore) (caller : String) (charges : List (String × ℚ)) : Option String :=
  (charges.find? fun (b, ε) => !s.permissive && !s.fits caller b ε).map Prod.fst

/-- The second loop of `charge_all`: the charges spent one by one, and what is left of each budget. -/
def spend (s : BudgetStore) (caller : String) :
    List (String × ℚ) → Lookup String ℚ → Lookup String ℚ → Lookup String ℚ × Lookup String ℚ
  | [], spent, left => (spent, left)
  | (b, ε) :: rest, spent, left =>
    let now := (spent (key caller b)).getD 0 + ε
    s.spend caller rest (spent.insert (key caller b) now) (left.insert b (max (s.limit b - now) 0))

end BudgetStore

namespace Book

/-- `save`: the ledger written whole to the file; `fault` is the error the write meets, if any. A failed write leaves
the file as it was. -/
def save (b : Book) (fault : Option String) : Except PeqlError Unit × Book :=
  if b.store.file then
    match fault with
    | some cause => (.error (.io cause), b)
    | none => (.ok (), { b with disk := some b.store.ledger })
  else (.ok (), b)

def setLimit (b : Book) (budget : String) (epsilon : ℚ) (fault : Option String) : Except PeqlError Unit × Book :=
  let l := { b.store.ledger with limits := b.store.ledger.limits.insert budget epsilon }
  save { b with store := { b.store with ledger := l } } fault

/-- The store after the spend loop. -/
def charged (b : Book) (caller : String) (charges : List (String × ℚ)) : Book :=
  { b with store := { b.store with ledger := { b.store.ledger with
      spent := (b.store.spend caller charges b.store.ledger.spent Lookup.empty).1 } } }

/-- Charge every budget a query spends; what is left of each. -/
def chargeAll (b : Book) (caller : String) (charges : List (String × ℚ)) (fault : Option String) :
    Except PeqlError (Lookup String ℚ) × Book :=
  match b.store.exhausted caller charges with
  | some budget => (.error (.budgetExhausted budget), b)
  | none =>
    match (b.charged caller charges).save fault with
    | (.ok (), b') => (.ok (b.store.spend caller charges b.store.ledger.spent Lookup.empty).2, b')
    | (.error e, b') => (.error e, b')

end Book

/-- A call of a store, with the error its save meets, if any. -/
inductive BudgetCall
  | setLimit (budget : String) (epsilon : ℚ) (fault : Option String)
  | chargeAll (caller : String) (charges : List (String × ℚ)) (fault : Option String)

/-- The store and its file after a call. -/
def Book.after (b : Book) : BudgetCall → Book
  | .setLimit budget ε fault => (b.setLimit budget ε fault).2
  | .chargeAll caller charges fault => (b.chargeAll caller charges fault).2

/-- The charges of one budget in a list, together. -/
def totalOf (budget : String) (charges : List (String × ℚ)) : ℚ :=
  ((charges.filter (·.1 = budget)).map Prod.snd).sum

/-- A charge keeps the ledger's promises: when it answers, every budget charged is within its limit and was spent
exactly its charges; when it fails, the ledger in memory and in the file is what it was. -/
def Kept (b : Book) : BudgetCall → Prop
  | .setLimit .. => True
  | .chargeAll caller charges fault =>
    match b.chargeAll caller charges fault with
    | (.ok _, b') => ∀ c ∈ charges,
        b'.store.ledger.spentOf caller c.1 ≤ b'.store.limit c.1 + slack ∧
        b'.store.ledger.spentOf caller c.1 = b.store.ledger.spentOf caller c.1 + totalOf c.1 charges
    | (.error _, b') => b'.store.ledger = b.store.ledger ∧ b'.disk = b.disk

/-- Whether the save after a call goes through. -/
def Book.saves (b : Book) (fault : Option String) : Prop := b.store.file = true → fault = none

/-- When a charge keeps the ledger's promises: a charge alone does not fit; or the ledger is saved and the charges of
each budget fit together; or it is not saved, and there was nothing to spend. -/
def Settles (b : Book) : BudgetCall → Prop
  | .setLimit .. => True
  | .chargeAll caller charges fault =>
    (∃ c ∈ charges, b.store.fits caller c.1 c.2 = false) ∨
    (b.saves fault ∧ ∀ c ∈ charges, b.store.fits caller c.1 (totalOf c.1 charges) = true) ∨
    (¬b.saves fault ∧ ∀ c ∈ charges, c.2 = 0 ∧ (b.store.ledger.spent (key caller c.1)).isSome)

/-- The epsilons a call charges are not negative. -/
def BudgetCall.NonNeg : BudgetCall → Prop
  | .setLimit .. => True
  | .chargeAll _ charges _ => ∀ c ∈ charges, 0 ≤ c.2

/-! ## What the loops do -/

theorem key_inj {caller a b : String} : key caller a = key caller b ↔ a = b := by
  unfold key
  rw [String.append_left_inj, String.append_left_inj]

theorem totalOf_cons (budget b : String) (ε : ℚ) (rest : List (String × ℚ)) :
    totalOf budget ((b, ε) :: rest) = (if b = budget then ε else 0) + totalOf budget rest := by
  by_cases h : b = budget <;> simp [totalOf, h]

theorem totalOf_nonneg {charges : List (String × ℚ)} (h : ∀ c ∈ charges, 0 ≤ c.2) (budget : String) :
    0 ≤ totalOf budget charges := by
  apply List.sum_nonneg
  intro x hx
  obtain ⟨c, hc, rfl⟩ := List.mem_map.mp hx
  exact h c (List.mem_of_mem_filter hc)

/-- A charge is part of its budget's total. -/
theorem le_totalOf {charges : List (String × ℚ)} (h : ∀ c ∈ charges, 0 ≤ c.2) {c : String × ℚ} (hc : c ∈ charges) :
    c.2 ≤ totalOf c.1 charges := by
  induction charges with
  | nil => cases hc
  | cons d rest ih =>
    obtain ⟨b, ε⟩ := d
    have hrest : ∀ c ∈ rest, 0 ≤ c.2 := fun c hc => h c (List.mem_cons_of_mem _ hc)
    have hpos : 0 ≤ ε := h (b, ε) List.mem_cons_self
    rw [totalOf_cons]
    rcases List.mem_cons.mp hc with rfl | hc
    · simpa using totalOf_nonneg hrest b
    · have := ih hrest hc
      split <;> linarith

namespace BudgetStore

variable (s : BudgetStore) (caller : String)

/-- After the spend loop, what is spent of a budget has grown by its total. -/
theorem spend_getD : ∀ (charges : List (String × ℚ)) (spent left : Lookup String ℚ) (budget : String),
    ((s.spend caller charges spent left).1 (key caller budget)).getD 0 =
      (spent (key caller budget)).getD 0 + totalOf budget charges
  | [], _, _, _ => by simp [spend, totalOf]
  | (b, ε) :: rest, spent, left, budget => by
    rw [spend, spend_getD rest, totalOf_cons, Lookup.insert_apply]
    by_cases h : b = budget
    · subst h; simp [add_assoc]
    · have hk : key caller budget ≠ key caller b := fun e => h (key_inj.mp e).symm
      simp [h, hk]

/-- The spend loop forgets no entry. -/
theorem spend_isSome : ∀ (charges : List (String × ℚ)) (spent left : Lookup String ℚ) (k : String),
    (spent k).isSome → ((s.spend caller charges spent left).1 k).isSome
  | [], _, _, _, h => h
  | (b, ε) :: rest, spent, left, k, h => by
    rw [spend]
    apply spend_isSome rest
    rw [Lookup.insert_apply]
    split
    · rfl
    · exact h

/-- The spend loop records every budget charged. -/
theorem spend_mem : ∀ (charges : List (String × ℚ)) (spent left : Lookup String ℚ),
    ∀ c ∈ charges, ((s.spend caller charges spent left).1 (key caller c.1)).isSome
  | (b, ε) :: rest, spent, left, c, hc => by
    rw [spend]
    rcases List.mem_cons.mp hc with rfl | hc
    · exact spend_isSome _ _ _ _ _ _ (by simp)
    · exact spend_mem rest _ _ c hc

/-- The spend loop over charges of nothing from budgets on record changes nothing. -/
theorem spend_zero : ∀ (charges : List (String × ℚ)) (spent left : Lookup String ℚ),
    (∀ c ∈ charges, c.2 = 0 ∧ (spent (key caller c.1)).isSome) → (s.spend caller charges spent left).1 = spent
  | [], _, _, _ => rfl
  | (b, ε) :: rest, spent, left, h => by
    obtain ⟨hz, hs⟩ := h (b, ε) List.mem_cons_self
    obtain ⟨v, hv⟩ := Option.isSome_iff_exists.mp hs
    have hsame : spent.insert (key caller b) ((spent (key caller b)).getD 0 + ε) = spent := by
      funext k
      rw [Lookup.insert_apply]
      split
      · rename_i hk; subst hk; simp only at hz; simp [hv, hz]
      · rfl
    rw [spend, hsame]
    exact spend_zero rest _ _ (fun c hc => h c (List.mem_cons_of_mem _ hc))

/-- The spend loop changes nothing only when there was nothing to spend. -/
theorem spend_eq_self_iff {charges : List (String × ℚ)} (hn : ∀ c ∈ charges, 0 ≤ c.2) (spent left : Lookup String ℚ) :
    (s.spend caller charges spent left).1 = spent ↔
      ∀ c ∈ charges, c.2 = 0 ∧ (spent (key caller c.1)).isSome := by
  refine ⟨fun h c hc => ⟨?_, ?_⟩, spend_zero s caller charges spent left⟩
  · have hsum := spend_getD s caller charges spent left c.1
    rw [h] at hsum
    have hle := le_totalOf hn hc
    have := hn c hc
    linarith
  · have hrec := spend_mem s caller charges spent left c hc
    rwa [h] at hrec

/-- The check loop refuses exactly when a charge alone does not fit. -/
theorem exhausted_eq_none_iff (hp : s.permissive = false) (charges : List (String × ℚ)) :
    s.exhausted caller charges = none ↔ ∀ c ∈ charges, s.fits caller c.1 c.2 = true := by
  simp [exhausted, hp]

end BudgetStore

/-! ## A charge, exactly -/

variable {b : Book} {caller : String} {charges : List (String × ℚ)} {fault : Option String}

/-- A save that goes through leaves the ledger as it was. -/
theorem save_ok (h : b.saves fault) : ∃ disk, b.save fault = (.ok (), { b with disk }) := by
  unfold Book.save
  split
  · rename_i hf
    rw [h hf]
    exact ⟨some b.store.ledger, rfl⟩
  · exact ⟨b.disk, rfl⟩

/-- A save that does not go through leaves the ledger and the file as they were. -/
theorem save_error (h : ¬b.saves fault) : ∃ e, b.save fault = (.error e, b) := by
  obtain ⟨hf, hnone⟩ := Classical.not_imp.mp h
  obtain ⟨cause, rfl⟩ := Option.ne_none_iff_exists'.mp hnone
  exact ⟨.io cause, by simp [Book.save, hf]⟩

/-- A charge that is not exhausted and is saved answers, from the ledger after the spend loop. -/
theorem chargeAll_saved (he : b.store.exhausted caller charges = none) (hs : b.saves fault) :
    ∃ left disk, b.chargeAll caller charges fault = (.ok left, { b.charged caller charges with disk }) := by
  obtain ⟨disk, hsave⟩ := save_ok (b := b.charged caller charges) hs
  exact ⟨_, disk, by simp only [Book.chargeAll, he, hsave]; rfl⟩

/-- A charge that is not exhausted and is not saved fails, with the ledger in memory after the spend loop. -/
theorem chargeAll_unsaved (he : b.store.exhausted caller charges = none) (hs : ¬b.saves fault) :
    ∃ e, b.chargeAll caller charges fault = (.error e, b.charged caller charges) := by
  obtain ⟨e, hsave⟩ := save_error (b := b.charged caller charges) hs
  exact ⟨e, by simp only [Book.chargeAll, he, hsave]⟩

/-- **A charge keeps the ledger's promises exactly when it settles.** -/
theorem kept_chargeAll_iff (hp : b.store.permissive = false) (hn : ∀ c ∈ charges, 0 ≤ c.2) :
    Kept b (.chargeAll caller charges fault) ↔ Settles b (.chargeAll caller charges fault) := by
  cases he : b.store.exhausted caller charges with
  | some budget =>
    have hone : ∃ c ∈ charges, b.store.fits caller c.1 c.2 = false := by
      by_contra hall
      push Not at hall
      have := (b.store.exhausted_eq_none_iff caller hp charges).mpr
        (fun c hc => by simpa using hall c hc)
      rw [he] at this; cases this
    have hleft : Kept b (.chargeAll caller charges fault) := by simp [Kept, Book.chargeAll, he]
    exact iff_of_true hleft (.inl hone)
  | none =>
    have hfit := (b.store.exhausted_eq_none_iff caller hp charges).mp he
    have hno : ¬∃ c ∈ charges, b.store.fits caller c.1 c.2 = false := by
      rintro ⟨c, hc, hf⟩
      rw [hfit c hc] at hf; cases hf
    by_cases hs : b.saves fault
    · obtain ⟨left, disk, hok⟩ := chargeAll_saved he hs
      have hspent : ∀ budget, ({ b.charged caller charges with disk } : Book).store.ledger.spentOf caller budget =
          b.store.ledger.spentOf caller budget + totalOf budget charges :=
        fun budget => b.store.spend_getD caller charges _ _ budget
      simp only [Kept, hok, Settles, hno, hs, not_true, false_and, or_false, false_or, true_and]
      refine forall₂_congr fun c _ => ?_
      rw [hspent]
      simp only [and_true, BudgetStore.fits, decide_eq_true_eq]
      rfl
    · obtain ⟨e, herr⟩ := chargeAll_unsaved he hs
      simp only [Kept, herr, Settles, hno, hs, false_and, not_false_eq_true, true_and, false_or]
      rw [← b.store.spend_eq_self_iff caller hn b.store.ledger.spent Lookup.empty]
      constructor
      · exact fun h => congrArg Ledger.spent h.1
      · intro h
        refine ⟨?_, rfl⟩
        simp only [Book.charged, h]

/-- A call leaves the store as permissive as it was. -/
theorem after_permissive (b : Book) (call : BudgetCall) : (b.after call).store.permissive = b.store.permissive := by
  cases call with
  | setLimit budget ε fault =>
    simp only [Book.after, Book.setLimit, Book.save]
    split
    · cases fault <;> rfl
    · rfl
  | chargeAll caller charges fault =>
    cases he : b.store.exhausted caller charges with
    | some _ => simp [Book.after, Book.chargeAll, he]
    | none =>
      by_cases hs : b.saves fault
      · obtain ⟨_, _, hok⟩ := chargeAll_saved he hs
        simp [Book.after, hok, Book.charged]
      · obtain ⟨_, herr⟩ := chargeAll_unsaved he hs
        simp [Book.after, herr, Book.charged]

theorem foldl_after_permissive (calls : List BudgetCall) (b : Book) :
    (calls.foldl Book.after b).store.permissive = b.store.permissive := by
  induction calls generalizing b with
  | nil => rfl
  | cons call calls ih => rw [List.foldl_cons, ih, after_permissive]

/-- After any calls, the next call keeps the ledger's promises exactly when it settles. -/
theorem kept_iff_settles (b : Book) (hp : b.store.permissive = false) (calls : List BudgetCall) (call : BudgetCall)
    (hn : call.NonNeg) : Kept (calls.foldl Book.after b) call ↔ Settles (calls.foldl Book.after b) call := by
  have hp' := (foldl_after_permissive calls b).trans hp
  cases call with
  | setLimit _ _ _ => exact Iff.rfl
  | chargeAll caller charges fault => exact kept_chargeAll_iff hp' hn

/-- A limit, then charges of two budgets that are saved. -/
theorem kept_iff_settles_two_budgets :
    Kept ([.setLimit "pay" 5 none].foldl Book.after ⟨.ofFile none, none⟩)
        (.chargeAll "acme/ann" [("pay", 3), ("age", 4)] none) ↔
      Settles ([.setLimit "pay" 5 none].foldl Book.after ⟨.ofFile none, none⟩)
        (.chargeAll "acme/ann" [("pay", 3), ("age", 4)] none) :=
  kept_iff_settles ⟨.ofFile none, none⟩ rfl [.setLimit "pay" 5 none]
    (.chargeAll "acme/ann" [("pay", 3), ("age", 4)] none)
    (by intro c hc; simp at hc; rcases hc with rfl | rfl <;> norm_num)

/-- Two charges of 6 on one budget of 10: each alone fits, so both are spent. -/
theorem repeated_budget_not_kept :
    BudgetStore.inMemory.permissive = false ∧
    BudgetCall.NonNeg (.chargeAll "acme/ann" [("pay", 6), ("pay", 6)] none) ∧
    ¬Kept ⟨.inMemory, none⟩ (.chargeAll "acme/ann" [("pay", 6), ("pay", 6)] none) := by
  have hn : BudgetCall.NonNeg (.chargeAll "acme/ann" [("pay", 6), ("pay", 6)] none) := by
    intro c hc
    simp at hc
    subst hc
    norm_num
  refine ⟨rfl, hn, ?_⟩
  rw [kept_chargeAll_iff rfl hn]
  rintro (⟨c, hc, hf⟩ | ⟨_, hf⟩ | ⟨hs, _⟩)
  · simp at hc
    subst hc
    revert hf
    decide +kernel
  · have := hf ("pay", 6) List.mem_cons_self
    revert this
    decide +kernel
  · exact hs (fun _ => rfl)

end Peql
