import Peql.Budget
import Peql.Lib.Runs

/-!
# Stores that share a ledger file

A store reads the ledger's file once, when it opens, and writes its own ledger over it whole at every call: so one that
is behind the file takes back what others wrote since. `Shared` is any number of stores over one file, with what was
granted and which limit was set last kept beside them; its calls keep the promises (`Honoured`) in every run in which
the store that saves is up to date with the file (`Safe`).

A call's check and its spending are of the store's own ledger, under its lock, and the file is replaced at one moment:
a call is one step.
-/

namespace Peql

/-- What was granted of a budget so far, and the limit last set for it, at one grant. -/
structure Grant where
  total : ℚ
  limit : ℚ
deriving DecidableEq

/-- Stores over one ledger file, and what their calls did. -/
structure Shared where
  stores : Nat → Option BudgetStore
  disk : Option Ledger
  /-- The limits last set, by whichever store. -/
  limits : Lookup String ℚ
  granted : String → String → ℚ
  grants : List Grant

/-- A step of one of the stores, with the error its save meets, if any. -/
inductive SharedAction
  | opens (n : Nat)
  | sets (n : Nat) (budget : String) (epsilon : ℚ) (fault : Option String)
  | charges (n : Nat) (caller : String) (charges : List (String × ℚ)) (fault : Option String)

namespace Shared

/-- What the file holds. -/
def file (s : Shared) : Ledger := s.disk.getD .empty

/-- The limit last set for a budget. -/
def lastLimit (s : Shared) (budget : String) : ℚ := (s.limits budget).getD defaultLimit

/-- A store and the file, as a call left them. -/
def keep (s : Shared) (n : Nat) (b : Book) : Shared :=
  { s with stores := Function.update s.stores n (some b.store), disk := b.disk }

/-- What charges of a caller, granted together, add to the history. -/
def grant (s : Shared) (caller : String) (charges : List (String × ℚ)) : Shared :=
  { s with
    granted := fun c budget => s.granted c budget + if c = caller then totalOf budget charges else 0
    grants := s.grants ++ charges.map fun c => ⟨s.granted caller c.1 + totalOf c.1 charges, s.lastLimit c.1⟩ }

def setLimit (s : Shared) (n : Nat) (st : BudgetStore) (budget : String) (epsilon : ℚ) (fault : Option String) :
    Shared :=
  match (⟨st, s.disk⟩ : Book).setLimit budget epsilon fault with
  | (.ok _, b) => { s.keep n b with limits := s.limits.insert budget epsilon }
  | (.error _, b) => s.keep n b

def charge (s : Shared) (n : Nat) (st : BudgetStore) (caller : String) (charges : List (String × ℚ))
    (fault : Option String) : Shared :=
  match (⟨st, s.disk⟩ : Book).chargeAll caller charges fault with
  | (.ok _, b) => (s.keep n b).grant caller charges
  | (.error _, b) => s.keep n b

end Shared

inductive SharedStep : Shared → SharedAction → Shared → Prop
  | opens {s : Shared} (n : Nat) : SharedStep s (.opens n) (s.keep n ⟨.ofFile s.disk, s.disk⟩)
  | sets {s : Shared} {n : Nat} {st : BudgetStore} (h : s.stores n = some st) (budget : String) (epsilon : ℚ)
      (fault : Option String) : SharedStep s (.sets n budget epsilon fault) (s.setLimit n st budget epsilon fault)
  /-- The epsilons a query charges are not negative. -/
  | charges {s : Shared} {n : Nat} {st : BudgetStore} (h : s.stores n = some st) (caller : String)
      {charges : List (String × ℚ)} (hpos : ∀ c ∈ charges, 0 ≤ c.2) (fault : Option String) :
      SharedStep s (.charges n caller charges fault) (s.charge n st caller charges fault)

/-- No grant went past the limit last set, the file has all that was granted, and the limits last set. -/
structure Honoured (s : Shared) : Prop where
  bounded : ∀ g ∈ s.grants, g.total ≤ g.limit + slack
  recorded : ∀ caller budget, s.granted caller budget ≤ s.file.spentOf caller budget
  limits : s.file.limits = s.limits

/-- A store has the limits of the file, and at least the spending in it. -/
structure UpToDate (st : BudgetStore) (file : Ledger) : Prop where
  limits : st.ledger.limits = file.limits
  spent : ∀ caller budget, file.spentOf caller budget ≤ st.ledger.spentOf caller budget

/-- The store that saves is up to date, and the charges it grants of one budget fit together. -/
def Safe (s : Shared) : SharedAction → Prop
  | .opens _ => True
  | .sets n _ _ fault => ∀ st, s.stores n = some st → fault = none → UpToDate st s.file
  | .charges n caller charges fault => ∀ st, s.stores n = some st → fault = none →
      (∀ c ∈ charges, st.fits caller c.1 c.2 = true) →
      UpToDate st s.file ∧ ∀ c ∈ charges, st.fits caller c.1 (totalOf c.1 charges) = true

/-! ## What a run keeps -/

/-- Every store was opened on the file. -/
def Opened (s : Shared) : Prop :=
  ∀ n st, s.stores n = some st → st.file = true ∧ st.permissive = false ∧ st.defaultLimit = defaultLimit

theorem Opened.keep {s : Shared} (h : Opened s) {n : Nat} {b : Book} (hfile : b.store.file = true)
    (hperm : b.store.permissive = false) (hdef : b.store.defaultLimit = defaultLimit) : Opened (s.keep n b) := by
  intro k st hk
  by_cases hkn : k = n
  · subst hkn
    have hst : b.store = st := by simpa [Shared.keep] using hk
    subst hst
    exact ⟨hfile, hperm, hdef⟩
  · refine h k st ?_
    simpa [Shared.keep, Function.update_of_ne hkn] using hk

/-- The spend loop takes nothing back. -/
theorem BudgetStore.le_spend (s : BudgetStore) (caller : String) {charges : List (String × ℚ)}
    (hpos : ∀ c ∈ charges, 0 ≤ c.2) (spent left : Lookup String ℚ) (k : String) :
    (spent k).getD 0 ≤ ((s.spend caller charges spent left).1 k).getD 0 := by
  induction charges generalizing spent left with
  | nil => exact le_refl _
  | cons c rest ih =>
    obtain ⟨b, ε⟩ := c
    have hε : 0 ≤ ε := hpos (b, ε) List.mem_cons_self
    have hrest := ih (fun c hc => hpos c (List.mem_cons_of_mem _ hc)) (spent.insert (key caller b)
      ((spent (key caller b)).getD 0 + ε)) (left.insert b (max (s.limit b - ((spent (key caller b)).getD 0 + ε)) 0))
    rw [BudgetStore.spend]
    refine le_trans ?_ hrest
    rw [Lookup.insert_apply]
    split
    · next hk =>
      subst hk
      simp only [Option.getD_some]
      linarith
    · exact le_refl _

/-- A store that is up to date sets the limit it sees, and writes no less than was in the file. -/
theorem Honoured.setLimit {s : Shared} (h : Honoured s) (hopen : Opened s) {n : Nat} {st : BudgetStore}
    (hst : s.stores n = some st) (budget : String) (epsilon : ℚ) (fault : Option String)
    (hup : fault = none → UpToDate st s.file) :
    Honoured (s.setLimit n st budget epsilon fault) ∧ Opened (s.setLimit n st budget epsilon fault) := by
  obtain ⟨hfile, hperm, hdef⟩ := hopen n st hst
  unfold Shared.setLimit Book.setLimit Book.save
  simp only [hfile, if_true]
  cases fault with
  | some cause => exact ⟨⟨h.bounded, h.recorded, h.limits⟩, hopen.keep rfl hperm hdef⟩
  | none =>
    have hnow := hup rfl
    have hrecorded : ∀ caller b, s.granted caller b ≤ st.ledger.spentOf caller b :=
      fun caller b => (h.recorded caller b).trans (hnow.spent caller b)
    have hlimits : st.ledger.limits.insert budget epsilon = s.limits.insert budget epsilon := by
      rw [hnow.limits, h.limits]
    exact ⟨⟨h.bounded, hrecorded, hlimits⟩, hopen.keep rfl hperm hdef⟩

/-- A store that is up to date grants what fits, and writes it all. -/
theorem Honoured.charge {s : Shared} (h : Honoured s) (hopen : Opened s) {n : Nat} {st : BudgetStore}
    (hst : s.stores n = some st) (caller : String) {charges : List (String × ℚ)} (hpos : ∀ c ∈ charges, 0 ≤ c.2)
    (fault : Option String)
    (hup : fault = none → (∀ c ∈ charges, st.fits caller c.1 c.2 = true) →
      UpToDate st s.file ∧ ∀ c ∈ charges, st.fits caller c.1 (totalOf c.1 charges) = true) :
    Honoured (s.charge n st caller charges fault) ∧ Opened (s.charge n st caller charges fault) := by
  obtain ⟨hfile, hperm, hdef⟩ := hopen n st hst
  unfold Shared.charge Book.chargeAll
  cases hex : st.exhausted caller charges with
  | some budget => exact ⟨⟨h.bounded, h.recorded, h.limits⟩, hopen.keep hfile hperm hdef⟩
  | none =>
    have hfits : ∀ c ∈ charges, st.fits caller c.1 c.2 = true := (st.exhausted_eq_none_iff caller hperm charges).1 hex
    unfold Book.save Book.charged
    simp only [hfile, if_true]
    cases fault with
    | some cause => exact ⟨⟨h.bounded, h.recorded, h.limits⟩, hopen.keep rfl hperm hdef⟩
    | none =>
      obtain ⟨hnow, htogether⟩ := hup rfl hfits
      have hcovers : ∀ c b, s.granted c b ≤ st.ledger.spentOf c b :=
        fun c b => (h.recorded c b).trans (hnow.spent c b)
      have hbounded : ∀ g ∈ s.grants ++ charges.map fun c =>
          (⟨s.granted caller c.1 + totalOf c.1 charges, s.lastLimit c.1⟩ : Grant), g.total ≤ g.limit + slack := by
        intro g hg
        rcases List.mem_append.1 hg with hg | hg
        · exact h.bounded g hg
        obtain ⟨c, hc, rfl⟩ := List.mem_map.1 hg
        have hfit : st.ledger.spentOf caller c.1 + totalOf c.1 charges ≤ st.limit c.1 + slack :=
          of_decide_eq_true (htogether c hc)
        have hlimit : st.limit c.1 = s.lastLimit c.1 := by
          unfold BudgetStore.limit Shared.lastLimit
          rw [hnow.limits, h.limits, hdef]
        have hown := hcovers caller c.1
        dsimp only
        rw [← hlimit]
        linarith
      have hrecorded : ∀ c b, s.granted c b + (if c = caller then totalOf b charges else 0) ≤
          ((st.spend caller charges st.ledger.spent Lookup.empty).1 (key c b)).getD 0 := by
        intro c b
        have hown := hcovers c b
        by_cases hc : c = caller
        · subst hc
          rw [if_pos rfl, st.spend_getD]
          unfold Ledger.spentOf at hown
          linarith
        · rw [if_neg hc, add_zero]
          exact hown.trans (st.le_spend caller hpos _ _ _)
      have hlimits : st.ledger.limits = s.limits := by rw [hnow.limits, h.limits]
      exact ⟨⟨hbounded, hrecorded, hlimits⟩, hopen.keep rfl hperm hdef⟩

/-- What the file held is granted, and no store is open. -/
def Shared.start (disk : Option Ledger) : Shared :=
  { stores := fun _ => none
    disk := disk
    limits := (disk.getD .empty).limits
    granted := (disk.getD .empty).spentOf
    grants := [] }

/-- Stores over one file keep the ledger's promises in every run whose steps are safe. -/
theorem shared_honoured {disk : Option Ledger} {as : List SharedAction} {t : Shared}
    (h : Runs.Run (Runs.Guarded Safe SharedStep) (Shared.start disk) as t) : Honoured t := by
  have hstep : ∀ s a t, Honoured s ∧ Opened s → Safe s a → SharedStep s a t → Honoured t ∧ Opened t := by
    rintro s a t ⟨hs, hopen⟩ hsafe hstep
    cases hstep with
    | opens n => exact ⟨⟨hs.bounded, hs.recorded, hs.limits⟩, hopen.keep rfl rfl rfl⟩
    | sets hst budget epsilon fault => exact hs.setLimit hopen hst budget epsilon fault (hsafe _ hst)
    | charges hst caller hpos fault => exact hs.charge hopen hst caller hpos fault (hsafe _ hst)
  have hstart : Honoured (Shared.start disk) ∧ Opened (Shared.start disk) :=
    ⟨⟨(fun _ h => nomatch h), fun _ _ => le_refl _, rfl⟩, fun _ _ h => nomatch h⟩
  exact (h.inv_of_all hstep hstart).1

/-- A store that was just opened is up to date. -/
theorem upToDate_opened (disk : Option Ledger) : UpToDate (.ofFile disk) (disk.getD .empty) :=
  ⟨rfl, fun _ _ => le_refl _⟩

/-- A store charges, and another, opened after, sets a limit. -/
theorem shared_honoured_in_turn : ∃ t,
    Runs.Run (Runs.Guarded Safe SharedStep) (.start none)
      [.opens 0, .charges 0 "acme/ann" [("pay", 3)] none, .opens 1, .sets 1 "pay" 5 none] t ∧ Honoured t := by
  let s₁ := (Shared.start none).keep 0 ⟨.ofFile none, none⟩
  let s₂ := s₁.charge 0 (.ofFile none) "acme/ann" [("pay", 3)] none
  let s₃ := s₂.keep 1 ⟨.ofFile s₂.disk, s₂.disk⟩
  let t := s₃.setLimit 1 (.ofFile s₂.disk) "pay" 5 none
  have hrun : Runs.Run (Runs.Guarded Safe SharedStep) (.start none)
      [.opens 0, .charges 0 "acme/ann" [("pay", 3)] none, .opens 1, .sets 1 "pay" 5 none] t := by
    refine .cons ⟨trivial, .opens 0⟩ (.cons (t := s₂) ⟨?_, .charges rfl "acme/ann" ?_ none⟩ ?_)
    · intro st hst _ _
      obtain rfl : BudgetStore.ofFile none = st := Option.some.inj hst
      refine ⟨upToDate_opened none, fun c hc => ?_⟩
      obtain rfl := List.mem_singleton.1 hc
      decide +kernel
    · intro c hc
      obtain rfl := List.mem_singleton.1 hc
      norm_num
    refine .cons (t := s₃) ⟨trivial, .opens 1⟩ (.cons (t := t) ⟨?_, .sets rfl "pay" 5 none⟩ (.nil t))
    intro st hst _
    obtain rfl : BudgetStore.ofFile s₂.disk = st := Option.some.inj hst
    exact upToDate_opened s₂.disk
  exact ⟨t, hrun, shared_honoured hrun⟩

theorem Shared.charge_stores_of_ne (s : Shared) {n k : Nat} (hk : k ≠ n) (st : BudgetStore) (caller : String)
    (charges : List (String × ℚ)) (fault : Option String) :
    (s.charge n st caller charges fault).stores k = s.stores k := by
  unfold Shared.charge
  split <;> simp [Shared.keep, Shared.grant, Function.update_of_ne hk]

/-- Two stores opened on one file each grant 6 of a budget of 10, and the file has the 6 of the second; a charge by one
puts back the limit it opened with. -/
theorem stale_store_not_honoured :
    (∃ t, Runs.Run SharedStep (.start none)
        [.opens 0, .opens 1, .charges 0 "acme/ann" [("pay", 6)] none, .charges 1 "acme/ann" [("pay", 6)] none] t ∧
      (∃ g ∈ t.grants, ¬ g.total ≤ g.limit + slack) ∧
      ¬ t.granted "acme/ann" "pay" ≤ t.file.spentOf "acme/ann" "pay") ∧
    ∃ t, Runs.Run SharedStep (.start none)
        [.opens 0, .opens 1, .sets 0 "pay" 3 none, .charges 1 "acme/ann" [("age", 1)] none] t ∧
      t.limits "pay" = some 3 ∧ t.file.limits "pay" = none := by
  have hpos : ∀ (b : String) (ε : ℚ), 0 ≤ ε → ∀ c ∈ [(b, ε)], 0 ≤ c.2 := by
    intro b ε hε c hc
    obtain rfl := List.mem_singleton.1 hc
    exact hε
  let s₁ := (Shared.start none).keep 0 ⟨.ofFile none, none⟩
  let s₂ := s₁.keep 1 ⟨.ofFile none, none⟩
  constructor
  · let s₃ := s₂.charge 0 (.ofFile none) "acme/ann" [("pay", 6)] none
    let t := s₃.charge 1 (.ofFile none) "acme/ann" [("pay", 6)] none
    have hrun : Runs.Run SharedStep (.start none)
        [.opens 0, .opens 1, .charges 0 "acme/ann" [("pay", 6)] none, .charges 1 "acme/ann" [("pay", 6)] none] t := by
      refine .cons (t := s₁) (.opens 0) (.cons (t := s₂) (.opens 1) ?_)
      refine .cons (t := s₃) (.charges rfl "acme/ann" (hpos "pay" 6 (by norm_num)) none) ?_
      refine .cons (t := t) (.charges ?_ "acme/ann" (hpos "pay" 6 (by norm_num)) none) (.nil t)
      rw [Shared.charge_stores_of_ne s₂ one_ne_zero]
      rfl
    exact ⟨t, hrun, ⟨⟨12, 10⟩, by decide +kernel, by decide +kernel⟩, by decide +kernel⟩
  · let s₃ := s₂.setLimit 0 (.ofFile none) "pay" 3 none
    let t := s₃.charge 1 (.ofFile none) "acme/ann" [("age", 1)] none
    have hrun : Runs.Run SharedStep (.start none)
        [.opens 0, .opens 1, .sets 0 "pay" 3 none, .charges 1 "acme/ann" [("age", 1)] none] t := by
      refine .cons (t := s₁) (.opens 0) (.cons (t := s₂) (.opens 1) ?_)
      refine .cons (t := s₃) (.sets rfl "pay" 3 none) ?_
      exact .cons (t := t) (.charges rfl "acme/ann" (hpos "age" 1 (by norm_num)) none) (.nil t)
    exact ⟨t, hrun, by decide +kernel, by decide +kernel⟩

end Peql
