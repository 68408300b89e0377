import Peql.Engine.Query

/-!
# Budgets per caller

A charge is kept under one text, the budget, a separator, the tenant, a slash and the caller's id. Two callers share no
spending exactly when these texts never meet, whatever the budgets (`KeptApart`): their names in the ledger differ, and
neither is the end of the other after a separator.
-/

namespace Peql

open Effects

/-- The name the ledger knows a caller by. -/
def ledgerName (c : Caller) : String := s!"{c.tenant}/{c.id}"

/-- The separator of a ledger's keys. -/
def unitSeparator : String := "\x1f"

/-- No spending of one caller is kept where spending of the other is. -/
structure KeptApart (c c' : Caller) : Prop where
  names : ledgerName c ≠ ledgerName c'
  notEnd : ∀ s, ledgerName c ≠ s ++ unitSeparator ++ ledgerName c'
  notEnd' : ∀ s, ledgerName c' ≠ s ++ unitSeparator ++ ledgerName c

namespace Node

/-- The engine after a caller was charged, or refused. -/
def afterCharge (n : Node) (c : Caller) (charges : List (String × ℚ)) : Node :=
  match charge c charges n with
  | .ok _ m => m
  | .error _ m => m

def spentBy (n : Node) (c : Caller) (budget : String) : ℚ := n.engine.budgets.store.ledger.spentOf (ledgerName c) budget

/-- What a caller has left of a budget. -/
def leftTo (n : Node) (c : Caller) (budget : String) : ℚ :=
  max (n.engine.budgets.store.limit budget - n.spentBy c budget) 0

end Node

/-! ## The keys -/

/-- Two keys are one exactly when the callers' names are, or one is the end of the other after a separator. -/
theorem key_eq_key_iff {x y : String} :
    (∃ b b', key x b = key y b') ↔ x = y ∨ (∃ s, x = s ++ unitSeparator ++ y) ∨ ∃ s, y = s ++ unitSeparator ++ x := by
  have hlist : ∀ u v : String, u = v ↔ u.toList = v.toList := fun u v => String.toList_inj.symm
  have hsep : ∀ (p x : String), (p ++ unitSeparator ++ x).toList = p.toList ++ '\x1f' :: x.toList := by
    intro p x
    simp [unitSeparator, String.toList_append]
  constructor
  · rintro ⟨b, b', h⟩
    have h : b.toList ++ '\x1f' :: x.toList = b'.toList ++ '\x1f' :: y.toList := by
      rw [← hsep b x, ← hsep b' y]
      exact congrArg String.toList h
    rcases List.append_eq_append_iff.1 h with ⟨as, _, has⟩ | ⟨as, _, has⟩
    · cases as with
      | nil => exact .inl ((hlist _ _).2 (List.cons.inj has).2)
      | cons a as =>
        right; left
        refine ⟨String.ofList as, (hlist _ _).2 ?_⟩
        rw [hsep, String.toList_ofList]
        exact (List.cons.inj has).2
    · cases as with
      | nil => exact .inl ((hlist _ _).2 (List.cons.inj has).2).symm
      | cons a as =>
        right; right
        refine ⟨String.ofList as, (hlist _ _).2 ?_⟩
        rw [hsep, String.toList_ofList]
        exact (List.cons.inj has).2
  · have hjoin : ∀ s z : String, key (s ++ unitSeparator ++ z) "" = key z (unitSeparator ++ s) := by
      intro s z
      unfold key
      rw [hlist]
      simp [unitSeparator, String.toList_append]
    rintro (rfl | ⟨s, rfl⟩ | ⟨s, rfl⟩)
    · exact ⟨"", "", rfl⟩
    · exact ⟨"", unitSeparator ++ s, hjoin s y⟩
    · exact ⟨unitSeparator ++ s, "", (hjoin s x).symm⟩

theorem KeptApart.key_ne {c c' : Caller} (h : KeptApart c c') (b b' : String) :
    key (ledgerName c) b ≠ key (ledgerName c') b' := by
  intro heq
  rcases key_eq_key_iff.1 ⟨b, b', heq⟩ with hn | ⟨s, hs⟩ | ⟨s, hs⟩
  · exact h.names hn
  · exact h.notEnd s hs
  · exact h.notEnd' s hs

/-- The spend loop leaves what is under other keys. -/
theorem BudgetStore.spend_of_ne (s : BudgetStore) (caller : String) {charges : List (String × ℚ)} {k : String}
    (hk : ∀ c ∈ charges, k ≠ key caller c.1) (spent left : Lookup String ℚ) :
    (s.spend caller charges spent left).1 k = spent k := by
  induction charges generalizing spent left with
  | nil => rfl
  | cons c rest ih =>
    obtain ⟨b, ε⟩ := c
    rw [BudgetStore.spend, ih fun c hc => hk c (List.mem_cons_of_mem _ hc)]
    exact Lookup.insert_of_ne _ _ (hk (b, ε) List.mem_cons_self)

/-- A charge of some budgets asks the ledger. -/
theorem charge_eq (c : Caller) {charges : List (String × ℚ)} (hne : charges ≠ []) (n : Node) :
    charge c charges n =
      (do
        Ask.remember fun e =>
          { e with budgets := (n.engine.budgets.chargeAll (ledgerName c) charges n.engine.budgetFault).2 }
        Effects.ofExcept (n.engine.budgets.chargeAll (ledgerName c) charges n.engine.budgetFault).1 :
          Ask (Lookup String ℚ)) n := by
  have hcharge : charge c charges = (do
      let n ← MonadState.get
      Ask.remember fun e =>
        { e with budgets := (n.engine.budgets.chargeAll (ledgerName c) charges n.engine.budgetFault).2 }
      Effects.ofExcept (n.engine.budgets.chargeAll (ledgerName c) charges n.engine.budgetFault).1) := by
    unfold charge
    rw [if_neg (by simpa using hne)]
    rfl
  rw [hcharge, bind_apply]
  rfl

/-- A charge of some budgets does to the engine what the ledger's answer is. -/
theorem afterCharge_budgets (n : Node) (c : Caller) {charges : List (String × ℚ)} (hne : charges ≠ []) :
    (n.afterCharge c charges).engine.budgets =
      (n.engine.budgets.chargeAll (ledgerName c) charges n.engine.budgetFault).2 := by
  unfold Node.afterCharge
  rw [charge_eq c hne]
  rcases n.engine.budgets.chargeAll (ledgerName c) charges n.engine.budgetFault with ⟨left, book⟩
  cases left <;> rfl

/-- The ledger after a charge is as it was, or as the spend loop leaves it. -/
theorem chargeAll_store (b : Book) (caller : String) (charges : List (String × ℚ)) (fault : Option String) :
    (b.chargeAll caller charges fault).2.store = b.store ∨
      (b.chargeAll caller charges fault).2.store = (b.charged caller charges).store := by
  cases he : b.store.exhausted caller charges with
  | some budget =>
    left
    simp only [Book.chargeAll, he]
  | none =>
    right
    by_cases hs : b.saves fault
    · obtain ⟨left, disk, hok⟩ := chargeAll_saved he hs
      rw [hok]
    · obtain ⟨e, herr⟩ := chargeAll_unsaved he hs
      rw [herr]

/-- A charge of one of two callers apart is nothing to the other. -/
theorem KeptApart.afterCharge {c c' : Caller} (h : KeptApart c c') (n : Node) (charges : List (String × ℚ))
    (budget : String) :
    (n.afterCharge c' charges).spentBy c budget = n.spentBy c budget ∧
      (n.afterCharge c' charges).leftTo c budget = n.leftTo c budget := by
  have hstore : (n.afterCharge c' charges).spentBy c budget = n.spentBy c budget ∧
      (n.afterCharge c' charges).engine.budgets.store.limit budget = n.engine.budgets.store.limit budget := by
    unfold Node.spentBy
    cases charges with
    | nil => exact ⟨rfl, rfl⟩
    | cons d rest =>
      rw [afterCharge_budgets n c' (List.cons_ne_nil d rest)]
      rcases chargeAll_store n.engine.budgets (ledgerName c') (d :: rest) n.engine.budgetFault with hs | hs
      · rw [hs]
        exact ⟨rfl, rfl⟩
      · have hother := n.engine.budgets.store.spend_of_ne (ledgerName c')
          (fun e (_ : e ∈ d :: rest) => h.key_ne budget e.1) n.engine.budgets.store.ledger.spent Lookup.empty
        rw [hs]
        refine ⟨?_, rfl⟩
        show (((n.engine.budgets.store.spend (ledgerName c') (d :: rest) n.engine.budgets.store.ledger.spent
          Lookup.empty).1) (key (ledgerName c) budget)).getD 0 = _
        rw [hother]
        rfl
  unfold Node.leftTo
  rw [hstore.1, hstore.2]
  exact ⟨rfl, rfl⟩

/-- A charge of 1 on a ledger never used, under a key of the other caller's, is spent by both. -/
theorem spent_of_key_eq {c c' : Caller} {b b' : String} (h : key (ledgerName c) b = key (ledgerName c') b') :
    ∃ n : Node, n.spentBy c b = 0 ∧ (n.afterCharge c' [(b', 1)]).spentBy c b = 1 := by
  let n : Node := ⟨freshEngine .empty fun _ => none, emptyStorage, 0, []⟩
  have hfits : n.engine.budgets.store.exhausted (ledgerName c') [(b', 1)] = none := by
    have hzero : n.engine.budgets.store.fits (ledgerName c') b' 1 = true := by
      have : ((0 : ℚ) + 1 ≤ 10 + slack) := by
        unfold slack
        norm_num
      exact decide_eq_true this
    refine (BudgetStore.exhausted_eq_none_iff _ _ rfl _).2 fun d hd => ?_
    obtain rfl := List.mem_singleton.1 hd
    exact hzero
  refine ⟨n, rfl, ?_⟩
  have hbook : (n.engine.budgets.chargeAll (ledgerName c') [(b', 1)] n.engine.budgetFault).2.store =
      (n.engine.budgets.charged (ledgerName c') [(b', 1)]).store := by
    have hsaves : n.engine.budgets.saves n.engine.budgetFault := fun hf => nomatch hf
    obtain ⟨left, disk, hok⟩ := chargeAll_saved hfits hsaves
    rw [hok]
  have hspent : (n.afterCharge c' [(b', 1)]).engine.budgets.store =
      (n.engine.budgets.charged (ledgerName c') [(b', 1)]).store := by
    rw [afterCharge_budgets n c' (List.cons_ne_nil _ _), hbook]
  have hsum := n.engine.budgets.store.spend_getD (ledgerName c') [(b', 1)] n.engine.budgets.store.ledger.spent
    Lookup.empty b'
  have htotal : totalOf b' [(b', (1 : ℚ))] = 1 := by
    rw [totalOf_cons]
    simp [totalOf]
  have hzero : (n.engine.budgets.store.ledger.spent (key (ledgerName c') b')).getD 0 = 0 := rfl
  unfold Node.spentBy Ledger.spentOf
  rw [hspent, h]
  refine hsum.trans ?_
  rw [htotal, hzero, zero_add]

/-- Over every sequence of charges, what one caller is charged is nothing to another, exactly when they are apart. -/
theorem perCaller_iff (c c' : Caller) :
    (∀ (n : Node) (earlier : List (Caller × List (String × ℚ))) (charges : List (String × ℚ)) (budget : String),
      let m := earlier.foldl (fun n charged => n.afterCharge charged.1 charged.2) n
      (m.afterCharge c' charges).spentBy c budget = m.spentBy c budget ∧
        (m.afterCharge c' charges).leftTo c budget = m.leftTo c budget) ↔ KeptApart c c' := by
  constructor
  · intro hall
    have hkeys : ∀ b b', key (ledgerName c) b ≠ key (ledgerName c') b' := by
      intro b b' hkey
      obtain ⟨n, hbefore, hafter⟩ := spent_of_key_eq hkey
      have hsame := (hall n [] [(b', 1)] b).1
      simp only [List.foldl_nil] at hsame
      rw [hbefore, hafter] at hsame
      exact absurd hsame one_ne_zero
    refine ⟨fun h => ?_, fun s h => ?_, fun s h => ?_⟩
    · obtain ⟨b, b', hk⟩ := key_eq_key_iff.2 (.inl h)
      exact hkeys b b' hk
    · obtain ⟨b, b', hk⟩ := key_eq_key_iff.2 (.inr (.inl ⟨s, h⟩))
      exact hkeys b b' hk
    · obtain ⟨b, b', hk⟩ := key_eq_key_iff.2 (.inr (.inr ⟨s, h⟩))
      exact hkeys b b' hk
  · intro h n earlier charges budget
    exact h.afterCharge _ charges budget

/-- The tenant `a/b` with the caller `c`, and the tenant `a` with the caller `b/c`. -/
theorem slashed_callers_share : ∃ c c' : Caller, (c.tenant, c.id) ≠ (c'.tenant, c'.id) ∧
    ∃ n : Node, n.spentBy c "pay" = 0 ∧ (n.afterCharge c' [("pay", 1)]).spentBy c "pay" = 1 :=
  ⟨⟨"c", "a/b", "", []⟩, ⟨"b/c", "a", "", []⟩, by decide, spent_of_key_eq (by decide)⟩

end Peql
