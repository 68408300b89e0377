import Peql.Engine.Kept
import Peql.Engine.PerCaller
import Peql.Lib.Runs

/-!
# The audit log and the ledger

A query is charged when it is planned, and the record of it is made when it has ended: one that fails in between, while
it is executed or its envelope signed, is recorded as failed, with no charges, and its charges are not given back. So
what the ledger spent since the start is what the records tell of and what such queries lost (`audit_reconciles`).
-/

namespace Peql

open Effects

section Calls

variable (R : Runtime)

/-- What a query is charged on the way to its answer: nothing, when the cache has it. -/
def charged (sql : String) (caller : Caller) (asOf : AsOf) (onViolation : OnReadViolation) :
    Ask (List (String × ℚ)) := do
  let p ← prepare R sql caller asOf onViolation
  match ← cached p.cacheKey with
  | some _ => pure []
  | none => do
    let _ ← planned R p caller
    return p.charges

/-- What a spooled query is charged. -/
def spoolCharged (sql : String) (caller : Caller) (onViolation : OnReadViolation) : Ask (List (String × ℚ)) := do
  let p ← prepare R sql caller [] onViolation
  let _ ← planned R p caller
  return p.charges

/-- What a call that fails was charged before it did. -/
def lostBy {α : Type} (call : Ask α) (charged : Ask (List (String × ℚ))) (n : Node) : List (String × ℚ) :=
  match call n, charged n with
  | .error _ _, .ok charges _ => charges
  | _, _ => []

/-- A call that reads, or plans what another reads. -/
inductive Attempt
  | query (auditId sql : String) (asOf : AsOf) (onViolation : OnReadViolation)
  | querySpooled (auditId sql : String) (onViolation : OnReadViolation) (fault : Option PeqlError)
  | plan (auditId sql : String) (asOf : AsOf) (onViolation : OnReadViolation)
  | view (auditId name : String) (onViolation : OnReadViolation)
  | viewAsOf (auditId name : String) (snapshot : Int) (onViolation : OnReadViolation)
  | check (auditId sql : String) (onViolation : OnReadViolation)
  | explain (sql : String)

/-- The engine after an attempt, whatever it gave. -/
def afterAttempt (caller : Caller) : Attempt → Node → Node
  | .query auditId sql asOf onViolation => final (query R auditId sql caller asOf onViolation)
  | .querySpooled auditId sql onViolation fault => final (querySpooled R auditId sql caller onViolation fault)
  | .plan auditId sql asOf onViolation => final (Peql.plan R auditId sql caller asOf onViolation)
  | .view auditId name onViolation => final (Peql.view R auditId name caller onViolation)
  | .viewAsOf auditId name snapshot onViolation => final (Peql.viewAsOf R auditId name caller snapshot onViolation)
  | .check auditId sql onViolation => final (Peql.check R auditId sql caller onViolation)
  | .explain sql => final (Peql.explain R sql caller)

/-- What an attempt loses: the charges of a query that fails once it is planned. -/
def lostAttempt (caller : Caller) : Attempt → Node → List (String × ℚ)
  | .query auditId sql asOf onViolation =>
    lostBy (run R sql caller auditId asOf onViolation) (charged R sql caller asOf onViolation)
  | .querySpooled auditId sql onViolation fault =>
    lostBy (spool R sql caller auditId onViolation fault) (spoolCharged R sql caller onViolation)
  | .plan .. | .view .. | .viewAsOf .. | .check .. | .explain .. => fun _ => []

/-- The id and the statement of each record an attempt owes the log: one for a query, a plan or a view, and for a check
that fails. -/
def owed (caller : Caller) : Attempt → Node → List (String × String)
  | .query auditId sql _ _ | .querySpooled auditId sql _ _ | .plan auditId sql _ _ => fun _ => [(auditId, sql)]
  | .view auditId name _ | .viewAsOf auditId name _ _ => fun _ => [(auditId, selectAll name)]
  | .check auditId sql onViolation => fun n =>
    match prepare R sql caller [] onViolation n with
    | .ok _ _ => []
    | .error _ _ => [(auditId, sql)]
  | .explain _ => fun _ => []

/-- An engine, the records it owes the log since the start, and what was lost of whom. -/
structure Accounts where
  node : Node
  owed : List (String × String × String × String)
  lost : List (Caller × List (String × ℚ))

inductive AccountAction
  | attempts (caller : Caller) (attempt : Attempt)
  /-- Anything that is not an attempt: the clock, writes, validations, registrations. -/
  | elsewhere

/-- An attempt while the log and the ledger's file take what they are given; or a step that leaves both alone. -/
inductive AccountStep : Accounts → AccountAction → Accounts → Prop
  | attempts {a : Accounts} (hlog : a.node.engine.auditFault = none) (hsave : a.node.engine.budgetFault = none)
      (caller : Caller) (attempt : Attempt) :
      AccountStep a (.attempts caller attempt) {
        node := afterAttempt R caller attempt a.node
        owed := a.owed ++ (owed R caller attempt a.node).map fun o => (o.1, caller.id, caller.tenant, R.sha256 o.2)
        lost := a.lost ++ [(caller, lostAttempt R caller attempt a.node)] }
  | elsewhere {a : Accounts} {n : Node} (hbudgets : n.engine.budgets.store = a.node.engine.budgets.store)
      (haudit : n.engine.audit = a.node.engine.audit) : AccountStep a .elsewhere { a with node := n }

end Calls

/-- One caller, as the engine was told. -/
def SameCaller (c c' : Caller) : Prop := c.tenant = c'.tenant ∧ c.id = c'.id

instance (c c' : Caller) : Decidable (SameCaller c c') := inferInstanceAs (Decidable (_ ∧ _))

/-- A caller's charges of a budget, together. -/
def chargedTo (c : Caller) (budget : String) (charges : List (Caller × List (String × ℚ))) : ℚ :=
  (charges.map fun d => if SameCaller c d.1 then totalOf budget d.2 else 0).sum

/-- The charges in a caller's records. -/
def recordedTo (c : Caller) (budget : String) (records : List AuditRecord) : ℚ :=
  (records.map fun r => if c.tenant = r.tenant ∧ c.id = r.callerId then totalOf budget r.charges else 0).sum

/-- A call is by the caller itself, or by one apart from it in the ledger. -/
def KnownApart (c : Caller) : AccountAction → Prop
  | .attempts caller _ => SameCaller c caller ∨ KeptApart c caller
  | .elsewhere => True

/-! ## What one attempt does -/

/-- Nothing was charged, and nothing recorded. -/
structure Unspent (n m : Node) : Prop where
  budgets : m.engine.budgets = n.engine.budgets
  audit : m.engine.audit = n.engine.audit
  auditFault : m.engine.auditFault = n.engine.auditFault
  budgetFault : m.engine.budgetFault = n.engine.budgetFault

/-- A caller was charged, and `records` were made. -/
structure Settled (caller : Caller) (n m : Node) (charges : List (String × ℚ)) (records : List AuditRecord) : Prop where
  audit : m.engine.audit = n.engine.audit ++ records
  own : ∀ c budget, SameCaller c caller → m.spentBy c budget = n.spentBy c budget + totalOf budget charges
  others : ∀ c budget, KeptApart c caller → m.spentBy c budget = n.spentBy c budget
  auditFault : m.engine.auditFault = n.engine.auditFault

variable {R : Runtime} {caller : Caller}

/-- What spends nothing settles nothing. -/
theorem Unspent.settled {n m : Node} (h : Unspent n m) : Settled caller n m [] [] where
  audit := by rw [h.audit, List.append_nil]
  own c budget _ := by
    unfold Node.spentBy
    rw [h.budgets]
    simp [totalOf]
  others c budget _ := by
    unfold Node.spentBy
    rw [h.budgets]
  auditFault := h.auditFault

/-- What is settled stays so while nothing is spent. -/
theorem Settled.unspent {n m k : Node} {charges : List (String × ℚ)} {records : List AuditRecord}
    (h : Settled caller n m charges records) (hk : Unspent m k) : Settled caller n k charges records where
  audit := hk.audit.trans h.audit
  own c budget hc := by
    rw [← h.own c budget hc]
    unfold Node.spentBy
    rw [hk.budgets]
  others c budget hc := by
    rw [← h.others c budget hc]
    unfold Node.spentBy
    rw [hk.budgets]
  auditFault := hk.auditFault.trans h.auditFault

/-- Reads and recordings of data spend nothing. -/
theorem unspent_stable (n : Node) : DataStable (Unspent n) :=
  DataStable.ofEngine fun _ _ hb ha hf _ hs h =>
    ⟨hb.trans h.budgets, ha.trans h.audit, hf.trans h.auditFault, hs.trans h.budgetFault⟩

theorem Unspent.refl (n : Node) : Unspent n n := ⟨rfl, rfl, rfl, rfl⟩

/-- A state of a call that keeps what is unspent. -/
theorem keeps_unspent {α : Type} {x : Ask α} {n : Node} (h : Effects.Keeps (Unspent n) x) :
    (∀ a m, x n = .ok a m → Unspent n m) ∧ ∀ e m, x n = .error e m → Unspent n m := by
  have hx := h n (Unspent.refl n)
  constructor
  · intro a m ha
    rw [ha] at hx
    exact hx
  · intro e m he
    rw [he] at hx
    exact hx

theorem keeps_cached (n : Node) (key : CacheKey) : Effects.Keeps (Unspent n) (cached key) := by
  unfold cached
  refine Effects.Keeps.read fun m hm => ?_
  cases m.engine.cache with
  | none => exact Effects.Keeps.ret _
  | some cache =>
    exact (Effects.Keeps.write fun _ h => ⟨h.budgets, h.audit, h.auditFault, h.budgetFault⟩).bind fun _ =>
      Effects.Keeps.ret _

/-- Keeping an answer spends nothing. -/
theorem keeps_cachePut (n : Node) (key : CacheKey) (batches : List Batch) :
    Effects.Keeps (Unspent n) (cachePut R key batches) := by
  unfold cachePut
  exact Effects.Keeps.read fun m hm => Effects.Keeps.write fun _ h => ⟨h.budgets, h.audit, h.auditFault, h.budgetFault⟩

theorem keeps_sign (n : Node) (envelope : Envelope) : Effects.Keeps (Unspent n) (sign envelope) := keeps_engine _

/-- The ledger charges a caller, or the call fails with nothing spent. -/
theorem charge_ends (n : Node) (hsave : n.engine.budgetFault = none) (charges : List (String × ℚ)) :
    Ends (Unspent n) (charge caller charges) (fun _ m => Settled caller n m charges []) (fun _ m => Unspent n m) := by
  intro m hm
  by_cases hempty : charges = []
  · subst hempty
    exact hm.settled
  rw [charge_eq caller hempty]
  have hfault : m.engine.budgetFault = none := hm.budgetFault.trans hsave
  cases he : m.engine.budgets.store.exhausted (ledgerName caller) charges with
  | some budget =>
    have hrefused : m.engine.budgets.chargeAll (ledgerName caller) charges m.engine.budgetFault =
        (.error (.budgetExhausted budget), m.engine.budgets) := by simp only [Book.chargeAll, he]
    rw [hrefused]
    exact ⟨hm.budgets, hm.audit, hm.auditFault, hm.budgetFault⟩
  | none =>
    have hsaves : m.engine.budgets.saves m.engine.budgetFault := fun _ => hfault
    obtain ⟨left, disk, hok⟩ := chargeAll_saved he hsaves
    rw [hok]
    have hspent : ∀ name budget,
        (({ m.engine.budgets.charged (ledgerName caller) charges with disk } : Book).store.ledger).spentOf
        name budget = ((m.engine.budgets.store.spend (ledgerName caller) charges m.engine.budgets.store.ledger.spent
          Lookup.empty).1 (key name budget)).getD 0 := fun _ _ => rfl
    refine ⟨by rw [List.append_nil]; exact hm.audit, fun c budget hc => ?_, fun c budget hc => ?_, hm.auditFault⟩
    · have hname : ledgerName c = ledgerName caller := by
        unfold ledgerName
        rw [hc.1, hc.2]
      unfold Node.spentBy
      refine (hspent (ledgerName c) budget).trans ?_
      rw [hname, BudgetStore.spend_getD, hm.budgets]
      rfl
    · unfold Node.spentBy
      refine (hspent (ledgerName c) budget).trans ?_
      rw [BudgetStore.spend_of_ne _ _ fun d _ => hc.key_ne budget d.1, hm.budgets]
      rfl

/-- A prepared query is planned and charged, or the call fails with nothing spent. -/
theorem planned_ends (n : Node) (hsave : n.engine.budgetFault = none) (p : Prepared) :
    Ends (Unspent n) (planned R p caller)
      (fun planned m => Settled caller n m p.charges [] ∧ planned.charges = chargesOf p.charges)
      (fun _ m => Unspent n m) := by
  unfold planned
  refine Ends.bind (Q := fun _ m => Unspent n m) (Effects.Keeps.ofExcept _) fun plan => ?_
  refine (charge_ends n hsave p.charges).bind fun budgets => ?_
  exact fun m hm => ⟨hm, rfl⟩

/-- A charge added counts for its own budget. -/
theorem totalOf_addCharge (b budget : String) (ε : ℚ) (charges : List (String × ℚ)) :
    totalOf b (addCharge budget ε charges) = (if budget = b then ε else 0) + totalOf b charges := by
  induction charges with
  | nil => exact totalOf_cons b budget ε []
  | cons c rest ih =>
    obtain ⟨b', e⟩ := c
    unfold addCharge
    split
    · next h =>
      subst h
      rw [totalOf_cons, totalOf_cons]
      split <;> ring
    split
    · exact totalOf_cons _ _ _ _
    · rw [totalOf_cons, ih, totalOf_cons]
      ring

/-- Epsilons added up per budget are as much of each. -/
theorem totalOf_chargesOf (b : String) (charges : List (String × ℚ)) :
    totalOf b (chargesOf charges) = totalOf b charges := by
  have hfold : ∀ (charges out : List (String × ℚ)),
      totalOf b (charges.foldl (fun out c => addCharge c.1 c.2 out) out) = totalOf b out + totalOf b charges := by
    intro charges
    induction charges with
    | nil => intro out; simp [totalOf]
    | cons c rest ih =>
      intro out
      rw [List.foldl_cons, ih, totalOf_addCharge, totalOf_cons]
      ring
  unfold chargesOf
  rw [hfold]
  simp [totalOf]

/-- What is known of a call's end, from what is known of its value and its error. -/
theorem ends_at {α : Type} {n : Node} {x : Ask α} {Q : α → Node → Prop} {E : PeqlError → Node → Prop}
    (h : Ends (· = n) x Q E) : (∀ a m, x n = .ok a m → Q a m) ∧ ∀ e m, x n = .error e m → E e m := by
  have hx := h n rfl
  constructor
  · intro a m ha
    rw [ha] at hx
    exact hx
  · intro e m he
    rw [he] at hx
    exact hx

/-- What follows a charge settles no more. -/
theorem keeps_settled {α : Type} {n : Node} {charges : List (String × ℚ)} {x : Ask α}
    (h : ∀ k, Effects.Keeps (Unspent k) x) : Effects.Keeps (fun m => Settled caller n m charges []) x := by
  intro m hm
  have hx := h m m (Unspent.refl m)
  cases hxs : x m with
  | ok a t =>
    rw [hxs] at hx
    exact hm.unspent hx
  | error e t =>
    rw [hxs] at hx
    exact hm.unspent hx

/-- A query that was planned and charged ends with those charges, whether it is answered or fails. -/
theorem answer_planned {sql auditId : String} {p : Prepared} {n m k : Node} {pl : Planned}
    (hpl : planned R p caller m = .ok pl k) (hk : Settled caller n k p.charges [])
    (hcs : pl.charges = chargesOf p.charges) :
    Ends (· = m) (answer R sql caller auditId p)
      (fun r t => Settled caller n t p.charges [] ∧ r.envelope.charges = chargesOf p.charges)
      (fun _ t => Settled caller n t p.charges []) := by
  have hplanned : Ends (· = m) (planned R p caller)
      (fun a t => a.charges = chargesOf p.charges ∧ Settled caller n t p.charges [])
      (fun _ t => Settled caller n t p.charges []) := by
    rintro _ rfl
    rw [hpl]
    exact ⟨hcs, hk⟩
  unfold answer
  refine hplanned.bind fun a => ?_
  rintro t ⟨ha, ht⟩
  refine Ends.bind (P := fun t => Settled caller n t p.charges []) (Q := fun _ t => Settled caller n t p.charges [])
    (Effects.Keeps.ofExcept _) (fun found => ?_) t ht
  refine Ends.bind (Q := fun _ t => Settled caller n t p.charges [])
    (keeps_settled fun k => keeps_cachePut k _ _) fun _ => ?_
  refine Ends.bind (Q := fun _ t => Settled caller n t p.charges []) keeps_now fun at_ => ?_
  refine Ends.bind (Q := fun _ t => Settled caller n t p.charges [])
    (keeps_settled fun k => keeps_sign k _) fun signature => ?_
  exact fun t ht => ⟨ht, ha⟩

/-- A spooled query that is planned is charged what its plan says. -/
theorem spool_planned {sql auditId : String} {onViolation : OnReadViolation} {fault : Option PeqlError} {p : Prepared}
    {n l m k : Node} {pl : Planned} (hp : prepare R sql caller [] onViolation l = .ok p m)
    (hpl : planned R p caller m = .ok pl k) (hk : Settled caller n k p.charges [])
    (hcs : pl.charges = chargesOf p.charges) :
    Ends (· = l) (spool R sql caller auditId onViolation fault)
      (fun r t => Settled caller n t p.charges [] ∧ r.envelope.charges = chargesOf p.charges)
      (fun _ t => Settled caller n t p.charges []) := by
  rintro _ rfl
  unfold spool
  rw [bind_apply, hp]
  dsimp only
  rw [bind_apply, hpl]
  dsimp only
  refine Ends.bind (P := fun t => Settled caller n t p.charges []) (Q := fun _ t => Settled caller n t p.charges [])
    (Effects.Keeps.ofExcept _) (fun found => ?_) k hk
  refine Ends.bind (Q := fun _ t => Settled caller n t p.charges []) (Effects.Keeps.ofExcept _) fun _ => ?_
  refine Ends.bind (Q := fun _ t => Settled caller n t p.charges []) keeps_now fun at_ => ?_
  refine Ends.bind (Q := fun _ t => Settled caller n t p.charges [])
    (keeps_settled fun k => keeps_sign k _) fun signature => ?_
  exact fun t ht => ⟨ht, hcs⟩

/-- An answer from the cache is charged nothing. -/
theorem answerCached_ends (n : Node) (sql auditId : String) (p : Prepared) (batches : List Batch) :
    Ends (Unspent n) (answerCached R sql caller auditId p batches) (fun r m => Unspent n m ∧ r.envelope.charges = [])
      (fun _ m => Unspent n m) := by
  unfold answerCached
  refine Ends.bind (Q := fun _ m => Unspent n m) keeps_now fun at_ => ?_
  refine Ends.bind (Q := fun _ m => Unspent n m) (keeps_sign n _) fun signature => ?_
  exact fun m hm => ⟨hm, rfl⟩

/-- What a call's outcome settles: an answer its envelope's charges, a failure what was lost. -/
structure Accounted (caller : Caller) (call : Ask QueryResult) (charged : Ask (List (String × ℚ))) (n : Node) :
    Prop where
  answered : ∀ r m, call n = .ok r m → Settled caller n m r.envelope.charges []
  failed : ∀ e m, call n = .error e m → Settled caller n m (lostBy call charged n) []

/-- Charges with the same totals settle alike. -/
theorem Settled.sameTotals {n m : Node} {charges charges' : List (String × ℚ)} {records : List AuditRecord}
    (h : Settled caller n m charges records) (htotal : ∀ b, totalOf b charges' = totalOf b charges) :
    Settled caller n m charges' records :=
  ⟨h.audit, fun c b hc => by rw [htotal]; exact h.own c b hc, h.others, h.auditFault⟩

/-- A call that spent nothing, and neither did what charges it. -/
theorem accounted_unspent {call : Ask QueryResult} {charged : Ask (List (String × ℚ))} {n : Node}
    (hok : ∀ r m, call n = .ok r m → Unspent n m ∧ r.envelope.charges = [])
    (herr : ∀ e m, call n = .error e m → Unspent n m)
    (hcharged : ∀ cs m, charged n = .ok cs m → cs = []) : Accounted caller call charged n where
  answered r m h := by
    rw [(hok r m h).2]
    exact (hok r m h).1.settled
  failed e m h := by
    have hlost : lostBy call charged n = [] := by
      unfold lostBy
      rw [h]
      cases hc : charged n with
      | ok cs k => exact hcharged cs k hc
      | error e' k => rfl
    rw [hlost]
    exact (herr e m h).settled

/-- A call that was charged, by the same steps that charge it. -/
theorem accounted_settled {call : Ask QueryResult} {charged : Ask (List (String × ℚ))} {n k : Node}
    {charges : List (String × ℚ)}
    (h : Ends (· = n) call (fun r t => Settled caller n t charges [] ∧ r.envelope.charges = chargesOf charges)
      (fun _ t => Settled caller n t charges []))
    (hcharged : charged n = .ok charges k) : Accounted caller call charged n where
  answered r m hr := by
    obtain ⟨hm, hcs⟩ := (ends_at h).1 r m hr
    rw [hcs]
    exact hm.sameTotals fun b => totalOf_chargesOf b charges
  failed e m he := by
    have hlost : lostBy call charged n = charges := by
      unfold lostBy
      rw [he, hcharged]
    rw [hlost]
    exact (ends_at h).2 e m he

/-- A query accounts for what it is charged. -/
theorem run_accounted (n : Node) (hsave : n.engine.budgetFault = none) (sql auditId : String) (asOf : AsOf)
    (onViolation : OnReadViolation) :
    Accounted caller (run R sql caller auditId asOf onViolation) (charged R sql caller asOf onViolation) n := by
  have hprepare := keeps_unspent (keeps_prepare (R := R) (unspent_stable n) sql caller asOf onViolation)
  cases hp : prepare R sql caller asOf onViolation n with
  | error e m =>
    have hrun : run R sql caller auditId asOf onViolation n = .error e m := by
      unfold run
      rw [bind_apply, hp]
    have hcharged : charged R sql caller asOf onViolation n = .error e m := by
      unfold charged
      rw [bind_apply, hp]
    refine accounted_unspent ?_ ?_ ?_
    · intro r k hr
      cases hrun.symm.trans hr
    · intro e' k he
      cases hrun.symm.trans he
      exact hprepare.2 e m hp
    · intro cs k hc
      cases hcharged.symm.trans hc
  | ok p m =>
    have hm := hprepare.1 p m hp
    have hcached := keeps_cached n p.cacheKey m hm
    have hrun : run R sql caller auditId asOf onViolation n = (do
        match ← cached p.cacheKey with
        | some batches => answerCached R sql caller auditId p batches
        | none => answer R sql caller auditId p : Ask QueryResult) m := by
      unfold run
      exact bind_of_ok hp _
    have hcharged : charged R sql caller asOf onViolation n = (do
        match ← cached p.cacheKey with
        | some _ => pure []
        | none => do
          let _ ← planned R p caller
          return p.charges : Ask (List (String × ℚ))) m := by
      unfold charged
      rw [bind_apply, hp]
    rw [bind_apply] at hrun hcharged
    cases hc : cached p.cacheKey m with
    | error e k =>
      rw [hc] at hrun hcharged hcached
      refine accounted_unspent ?_ ?_ ?_
      · intro r t hr
        cases hrun.symm.trans hr
      · intro e' t he
        cases hrun.symm.trans he
        exact hcached
      · intro cs t hcs
        cases hcharged.symm.trans hcs
    | ok found k =>
      rw [hc] at hrun hcharged hcached
      cases found with
      | some batches =>
        have hends := @answerCached_ends R caller n sql auditId p batches k hcached
        dsimp only at hrun hcharged
        refine accounted_unspent ?_ ?_ ?_
        · intro r t hr
          rw [hrun.symm.trans hr] at hends
          exact hends
        · intro e t he
          rw [hrun.symm.trans he] at hends
          exact hends
        · intro cs t hcs
          cases hcharged.symm.trans hcs
          rfl
      | none =>
        have hplanned := @planned_ends R caller n hsave p k hcached
        dsimp only at hrun hcharged
        cases hpl : planned R p caller k with
        | error e t =>
          rw [hpl] at hplanned
          have hanswer : answer R sql caller auditId p k = .error e t := by
            unfold answer
            rw [bind_apply, hpl]
          rw [bind_apply, hpl] at hcharged
          refine accounted_unspent ?_ ?_ ?_
          · intro r t' hr
            cases (hrun.trans hanswer).symm.trans hr
          · intro e' t' he
            cases (hrun.trans hanswer).symm.trans he
            exact hplanned
          · intro cs t' hcs
            cases hcharged.symm.trans hcs
        | ok pl t =>
          rw [hpl] at hplanned
          rw [bind_apply, hpl] at hcharged
          refine accounted_settled ?_ hcharged
          rintro _ rfl
          rw [hrun]
          exact answer_planned hpl hplanned.1 hplanned.2 k rfl

/-- A spooled query accounts for what it charges. -/
theorem spool_accounted (n : Node) (hsave : n.engine.budgetFault = none) (sql auditId : String)
    (onViolation : OnReadViolation) (fault : Option PeqlError) :
    Accounted caller (spool R sql caller auditId onViolation fault) (spoolCharged R sql caller onViolation) n := by
  have hprepare := keeps_unspent (keeps_prepare (R := R) (unspent_stable n) sql caller [] onViolation)
  cases hp : prepare R sql caller [] onViolation n with
  | error e m =>
    have hrun : spool R sql caller auditId onViolation fault n = .error e m := by
      unfold spool
      rw [bind_apply, hp]
    have hcharged : spoolCharged R sql caller onViolation n = .error e m := by
      unfold spoolCharged
      rw [bind_apply, hp]
    refine accounted_unspent ?_ ?_ ?_
    · intro r k hr
      cases hrun.symm.trans hr
    · intro e' k he
      cases hrun.symm.trans he
      exact hprepare.2 e m hp
    · intro cs k hc
      cases hcharged.symm.trans hc
  | ok p m =>
    have hplanned := @planned_ends R caller n hsave p m (hprepare.1 p m hp)
    cases hpl : planned R p caller m with
    | error e t =>
      rw [hpl] at hplanned
      have hrun : spool R sql caller auditId onViolation fault n = .error e t := by
        unfold spool
        rw [bind_apply, hp]
        dsimp only
        rw [bind_apply, hpl]
      have hcharged : spoolCharged R sql caller onViolation n = .error e t := by
        unfold spoolCharged
        rw [bind_apply, hp]
        dsimp only
        rw [bind_apply, hpl]
      refine accounted_unspent ?_ ?_ ?_
      · intro r k hr
        cases hrun.symm.trans hr
      · intro e' k he
        cases hrun.symm.trans he
        exact hplanned
      · intro cs k hc
        cases hcharged.symm.trans hc
    | ok pl t =>
      rw [hpl] at hplanned
      have hcharged : spoolCharged R sql caller onViolation n = .ok p.charges t := by
        unfold spoolCharged
        rw [bind_apply, hp]
        dsimp only
        rw [bind_apply, hpl]
        rfl
      exact accounted_settled (spool_planned hp hpl hplanned.1 hplanned.2) hcharged

/-! ## The record of it -/

/-- What is told of a record: its id, who asked, and the hash of what was asked. -/
def AuditRecord.told (r : AuditRecord) : String × String × String × String := (r.id, r.callerId, r.tenant, r.sqlSha256)

/-- Whose charges a record is of. -/
def AuditRecord.isOf (caller : Caller) (r : AuditRecord) : Prop := r.callerId = caller.id ∧ r.tenant = caller.tenant

/-- What an attempt did: the records it owed, of the caller, and the charges they tell of or that were lost. -/
structure Reconciled (R : Runtime) (caller : Caller) (n m : Node) (owed : List (String × String))
    (lost : List (String × ℚ)) : Prop where
  left : ∃ records charges, Settled caller n m charges records ∧ (∀ r ∈ records, r.isOf caller) ∧
    records.map AuditRecord.told = owed.map (fun o => (o.1, caller.id, caller.tenant, R.sha256 o.2)) ∧
    ∀ b, totalOf b charges = (records.map fun r => totalOf b r.charges).sum + totalOf b lost

/-- What is charged is recorded once. -/
theorem Settled.record {n m : Node} {charges : List (String × ℚ)} (h : Settled caller n m charges [])
    (r : AuditRecord) :
    Settled caller n { m with engine := { m.engine with audit := m.engine.audit ++ [r] } } charges [r] where
  audit := by
    have := h.audit
    rw [List.append_nil] at this
    show m.engine.audit ++ [r] = _
    rw [this]
  own := h.own
  others := h.others
  auditFault := h.auditFault

/-- A call whose outcome is recorded, once it is known what it settled. -/
theorem recorded_reconciled {α : Type} {x : Ask α} {n : Node} (hlog : n.engine.auditFault = none) {auditId sql : String}
    {lost : List (String × ℚ)} (tell : α → Telling)
    (hok : ∀ a m, x n = .ok a m → Settled caller n m (tell a).charges [] ∧ lost = [])
    (herr : ∀ e m, x n = .error e m → Settled caller n m lost []) :
    Reconciled R caller n (final (audited R auditId sql caller tell x) n) [(auditId, sql)] lost := by
  cases hx : x n with
  | ok a m =>
    obtain ⟨hm, rfl⟩ := hok a m hx
    have hfault : m.engine.auditFault = none := hm.auditFault.trans hlog
    have hattempt : Effects.attempt x n = .ok (.ok a) m := by
      unfold Effects.attempt
      rw [hx]
    refine ⟨[auditRecord R auditId sql caller (tell a).outcome (tell a).rows (tell a).charges (tell a).contracts m.now],
      (tell a).charges, ?_, ?_, rfl, ?_⟩
    · unfold final audited
      rw [bind_apply, hattempt]
      dsimp only
      rw [bind_apply, audit_recorded R hfault]
      exact hm.record _
    · intro r hr
      obtain rfl := List.mem_singleton.1 hr
      exact ⟨rfl, rfl⟩
    · intro b
      simp [auditRecord, totalOf]
  | error e m =>
    have hm := herr e m hx
    have hfault : m.engine.auditFault = none := hm.auditFault.trans hlog
    have hattempt : Effects.attempt x n = .ok (.error e) m := by
      unfold Effects.attempt
      rw [hx]
    refine ⟨[auditRecord R auditId sql caller (.ofError e) 0 [] [] m.now], lost, ?_, ?_, rfl, ?_⟩
    · unfold final audited
      rw [bind_apply, hattempt]
      dsimp only
      rw [bind_apply, audit_recorded R hfault]
      exact hm.record _
    · intro r hr
      obtain rfl := List.mem_singleton.1 hr
      exact ⟨rfl, rfl⟩
    · intro b
      simp [auditRecord, totalOf]

/-- A call that plans is charged, and told of, or fails with nothing spent. -/
theorem plan_reconciled (n : Node) (hlog : n.engine.auditFault = none) (hsave : n.engine.budgetFault = none)
    (auditId sql : String) (asOf : AsOf) (onViolation : OnReadViolation) :
    Reconciled R caller n (final (plan R auditId sql caller asOf onViolation) n) [(auditId, sql)] [] := by
  have hends : Ends (Unspent n) (do
      let p ← prepare R sql caller asOf onViolation
      planned R p caller) (fun pl m => Settled caller n m pl.charges []) (fun _ m => Unspent n m) := by
    refine Ends.bind (Q := fun _ m => Unspent n m) (keeps_prepare (unspent_stable n) _ _ _ _) fun p => ?_
    refine (planned_ends n hsave p).mono (fun _ => id) (fun pl m h => ?_) fun _ _ => id
    rw [h.2]
    exact h.1.sameTotals fun b => totalOf_chargesOf b p.charges
  have hstart : ∀ m, m = n → Unspent n m := fun m hm => hm ▸ Unspent.refl n
  have hat := ends_at (hends.mono hstart (fun _ _ => id) fun _ _ => id)
  exact recorded_reconciled hlog Planned.telling (fun pl m h => ⟨hat.1 pl m h, rfl⟩) fun e m h => (hat.2 e m h).settled

/-- The accounts of one attempt. -/
theorem attempt_reconciled (n : Node) (hlog : n.engine.auditFault = none) (hsave : n.engine.budgetFault = none)
    (attempt : Attempt) :
    Reconciled R caller n (afterAttempt R caller attempt n) (owed R caller attempt n)
      (lostAttempt R caller attempt n) := by
  have hnothing : ∀ m, Unspent n m → Reconciled R caller n m [] [] := by
    intro m hm
    refine ⟨[], [], hm.settled, fun _ h => (nomatch h), rfl, fun b => ?_⟩
    simp [totalOf]
  have hlost : ∀ {call : Ask QueryResult} {charged : Ask (List (String × ℚ))} {r m}, call n = .ok r m →
      lostBy call charged n = [] := by
    intro call charged r m h
    unfold lostBy
    rw [h]
  cases attempt with
  | query auditId sql asOf onViolation =>
    have h := @run_accounted R caller n hsave sql auditId asOf onViolation
    exact recorded_reconciled hlog QueryResult.telling (fun r m hr => ⟨h.answered r m hr, hlost hr⟩) h.failed
  | querySpooled auditId sql onViolation fault =>
    have h := @spool_accounted R caller n hsave sql auditId onViolation fault
    exact recorded_reconciled hlog QueryResult.telling (fun r m hr => ⟨h.answered r m hr, hlost hr⟩) h.failed
  | plan auditId sql asOf onViolation => exact plan_reconciled n hlog hsave auditId sql asOf onViolation
  | view auditId name onViolation => exact plan_reconciled n hlog hsave auditId (selectAll name) [] onViolation
  | viewAsOf auditId name snapshot onViolation =>
    exact plan_reconciled n hlog hsave auditId (selectAll name) [(name, snapshot)] onViolation
  | check auditId sql onViolation =>
    have hprepare := keeps_unspent (keeps_prepare (R := R) (unspent_stable n) sql caller [] onViolation)
    show Reconciled R caller n (final (check R auditId sql caller onViolation) n)
      (match prepare R sql caller [] onViolation n with
        | .ok _ _ => []
        | .error _ _ => [(auditId, sql)]) []
    cases hp : prepare R sql caller [] onViolation n with
    | ok p m =>
      have hattempt : Effects.attempt (prepare R sql caller [] onViolation) n = .ok (.ok p) m := by
        unfold Effects.attempt
        rw [hp]
      have hend : final (check R auditId sql caller onViolation) n = m := by
        unfold final check
        rw [bind_apply, hattempt]
        rfl
      rw [hend]
      exact hnothing m (hprepare.1 p m hp)
    | error e m =>
      have hm := hprepare.2 e m hp
      have hattempt : Effects.attempt (prepare R sql caller [] onViolation) n = .ok (.error e) m := by
        unfold Effects.attempt
        rw [hp]
      refine ⟨[auditRecord R auditId sql caller (.ofError e) 0 [] [] m.now], [], ?_, ?_, rfl, fun b => ?_⟩
      · unfold final check
        rw [bind_apply, hattempt]
        dsimp only
        rw [bind_apply, audit_recorded R (hm.auditFault.trans hlog)]
        exact hm.settled.record _
      · intro r hr
        obtain rfl := List.mem_singleton.1 hr
        exact ⟨rfl, rfl⟩
      · simp [auditRecord, totalOf]
  | explain sql =>
    have hkeeps : Effects.Keeps (Unspent n) (explain R sql caller) := by
      unfold explain
      exact (keeps_prepare (unspent_stable n) _ _ _ _).bind fun p => (Effects.Keeps.ofExcept _).bind fun _ =>
        Effects.Keeps.ret _
    have hends := keeps_unspent hkeeps
    show Reconciled R caller n (final (explain R sql caller) n) [] []
    unfold final
    cases hx : explain R sql caller n with
    | ok a m => exact hnothing m (hends.1 a m hx)
    | error e m => exact hnothing m (hends.2 e m hx)

/-! ## A run of attempts -/

/-- Callers kept apart are not one. -/
theorem not_sameCaller_of_apart {c d : Caller} (h : KeptApart c d) : ¬ SameCaller c d := by
  rintro ⟨htenant, hid⟩
  refine h.names ?_
  unfold ledgerName
  rw [htenant, hid]

/-- What two lists of records say was charged adds up. -/
theorem recordedTo_append (c : Caller) (budget : String) (xs ys : List AuditRecord) :
    recordedTo c budget (xs ++ ys) = recordedTo c budget xs + recordedTo c budget ys := by
  unfold recordedTo
  rw [List.map_append, List.sum_append]

theorem chargedTo_append (c : Caller) (budget : String) (xs ys : List (Caller × List (String × ℚ))) :
    chargedTo c budget (xs ++ ys) = chargedTo c budget xs + chargedTo c budget ys := by
  unfold chargedTo
  rw [List.map_append, List.sum_append]

/-- Records of one caller say nothing of another. -/
theorem recordedTo_isOf {c caller : Caller} {records : List AuditRecord} (h : ∀ r ∈ records, r.isOf caller)
    (budget : String) : recordedTo c budget records =
      if SameCaller c caller then (records.map fun r => totalOf budget r.charges).sum else 0 := by
  induction records with
  | nil => simp [recordedTo]
  | cons r rs ih =>
    have hr := h r List.mem_cons_self
    have hrest := ih fun r hr => h r (List.mem_cons_of_mem _ hr)
    unfold recordedTo at hrest ⊢
    rw [List.map_cons, List.sum_cons, hrest, List.map_cons, List.sum_cons, hr.1, hr.2]
    by_cases hc : SameCaller c caller
    · rw [if_pos hc, if_pos hc, if_pos (show c.tenant = caller.tenant ∧ c.id = caller.id from hc)]
    · rw [if_neg hc, if_neg hc, if_neg (show ¬ (c.tenant = caller.tenant ∧ c.id = caller.id) from hc), add_zero]

/-- What a part of a run did: the records made were owed, and a caller's spending is in them or lost. -/
structure Reconciles (a t : Accounts) (as : List AccountAction) : Prop where
  made : ∃ records lost, t.node.engine.audit = a.node.engine.audit ++ records ∧
    t.owed = a.owed ++ records.map AuditRecord.told ∧ t.lost = a.lost ++ lost ∧
    ∀ c, (∀ act ∈ as, KnownApart c act) → ∀ budget, t.node.spentBy c budget =
      a.node.spentBy c budget + recordedTo c budget records + chargedTo c budget lost

/-- One attempt's charges are those its record tells of, or lost. -/
theorem AccountStep.reconciles {a t : Accounts} {act : AccountAction} (h : AccountStep R a act t) :
    Reconciles a t [act] := by
  cases h with
  | attempts hlog hsave caller attempt =>
    obtain ⟨records, charges, hsettled, hof, htold, htotal⟩ :=
      (@attempt_reconciled R caller a.node hlog hsave attempt).left
    refine ⟨records, [(caller, lostAttempt R caller attempt a.node)], hsettled.audit, by rw [htold], rfl, ?_⟩
    intro c hc budget
    have hlost : chargedTo c budget [(caller, lostAttempt R caller attempt a.node)] =
        if SameCaller c caller then totalOf budget (lostAttempt R caller attempt a.node) else 0 := by
      simp [chargedTo]
    rw [recordedTo_isOf hof, hlost]
    rcases hc _ List.mem_cons_self with hsame | hapart
    · rw [if_pos hsame, if_pos hsame, hsettled.own c budget hsame, htotal]
      ring
    · have hne := not_sameCaller_of_apart hapart
      rw [if_neg hne, if_neg hne, hsettled.others c budget hapart]
      ring
  | elsewhere hbudgets haudit =>
    refine ⟨[], [], by rw [List.append_nil]; exact haudit, by rw [List.map_nil, List.append_nil],
      by rw [List.append_nil], ?_⟩
    intro c _ budget
    have hspent : ∀ n m : Node, n.engine.budgets.store = m.engine.budgets.store →
        n.spentBy c budget = m.spentBy c budget := by
      intro n m h
      unfold Node.spentBy
      rw [h]
    rw [hspent _ _ hbudgets]
    simp [recordedTo, chargedTo]

/-- Two runs reconcile one after the other. -/
theorem Reconciles.append {a b t : Accounts} {as bs : List AccountAction} (h : Reconciles a b as)
    (h' : Reconciles b t bs) :
    Reconciles a t (as ++ bs) := by
  obtain ⟨rs, ls, haudit, howed, hlost, hspent⟩ := h.made
  obtain ⟨rs', ls', haudit', howed', hlost', hspent'⟩ := h'.made
  refine ⟨rs ++ rs', ls ++ ls', ?_, ?_, ?_, fun c hc budget => ?_⟩
  · rw [haudit', haudit, List.append_assoc]
  · rw [howed', howed, List.map_append, List.append_assoc]
  · rw [hlost', hlost, List.append_assoc]
  · rw [hspent' c (fun act hact => hc act (List.mem_append_right _ hact)),
      hspent c (fun act hact => hc act (List.mem_append_left _ hact)), recordedTo_append, chargedTo_append]
    ring

/-- An engine at the start of its accounts. -/
def Accounts.start (n : Node) : Accounts := ⟨n, [], []⟩

/-- Over every run, the log has exactly the records owed, and what the ledger spent of a caller's budget since the start
is what the caller's records tell of, and what its queries that failed after they were planned had been charged. -/
theorem audit_reconciles {n : Node} {as : List AccountAction} {t : Accounts}
    (h : Runs.Run (AccountStep R) (.start n) as t) :
    ∃ records, t.node.engine.audit = n.engine.audit ++ records ∧ records.map AuditRecord.told = t.owed ∧
      ∀ c, (∀ act ∈ as, KnownApart c act) → ∀ budget,
        t.node.spentBy c budget = n.spentBy c budget + recordedTo c budget records + chargedTo c budget t.lost := by
  have hall : ∀ {a t : Accounts} {as : List AccountAction}, Runs.Run (AccountStep R) a as t → Reconciles a t as := by
    intro a t as h
    induction h with
    | nil s =>
      refine ⟨[], [], by rw [List.append_nil], by rw [List.map_nil, List.append_nil], by rw [List.append_nil], ?_⟩
      intro c _ budget
      simp [recordedTo, chargedTo]
    | cons hs _ ih => exact hs.reconciles.append ih
  obtain ⟨records, lost, haudit, howed, hlost, hspent⟩ := (hall h).made
  have howed' : t.owed = records.map AuditRecord.told := howed
  have hlost' : t.lost = lost := hlost
  exact ⟨records, haudit, howed'.symm, fun c hc budget => by rw [hlost']; exact hspent c hc budget⟩

/-- The amounts under a noise shape of one epsilon, and an execution that fails. -/
def failingRuntime : Runtime :=
  { amountsRuntime with
    references := fun _ => .ok [⟨none, "acme/amounts"⟩]
    applyShapes := fun plan _ _ => .ok ⟨plan, [("pay", 1)], none, true⟩
    collect := fun _ _ _ => .error (.dataFusion "Divide by zero error") }

def ann : Caller := ⟨"ann", "acme", "research", []⟩

/-- The amounts bound to a table of one row, and validated. -/
def oneAmount : Node where
  engine :=
    { freshEngine (Contents.empty.put ⟨amountContract⟩) fun _ => some amountsDir with
      tables := Lookup.ofList [("acme/amounts", [⟨amountContract.contract.exposedSchema, [[("amount", .int 1)]]⟩])]
      tableManifests := Lookup.ofList [("acme/amounts",
        wholeManifest id amountContract (validateAmounts {[("amount", .int 1)]}) [] 5 5 none)] }
  storage := emptyStorage
  now := 5
  touched := []

def annsQuery : Attempt := .query "a1" (selectAll "acme/amounts") [] .exclude

/-- One query, from an engine that asked nothing yet. -/
theorem ann_asks : ∃ t, Runs.Run (AccountStep failingRuntime) (.start oneAmount) [.attempts ann annsQuery] t ∧
    t.node = afterAttempt failingRuntime ann annsQuery oneAmount :=
  ⟨_, .cons (.attempts rfl rfl ann annsQuery) (.nil _), rfl⟩

theorem audit_reconciles_ann : ∃ t,
    Runs.Run (AccountStep failingRuntime) (.start oneAmount) [.attempts ann annsQuery] t ∧
    ∃ records, t.node.engine.audit = oneAmount.engine.audit ++ records ∧ records.map AuditRecord.told = t.owed ∧
      t.node.spentBy ann "pay" =
        oneAmount.spentBy ann "pay" + recordedTo ann "pay" records + chargedTo ann "pay" t.lost := by
  obtain ⟨t, hrun, _⟩ := ann_asks
  obtain ⟨records, haudit, htold, hspent⟩ := audit_reconciles hrun
  refine ⟨t, hrun, records, haudit, htold, hspent ann (fun act hact => ?_) "pay"⟩
  obtain rfl := List.mem_singleton.1 hact
  exact .inl ⟨rfl, rfl⟩

/-- The ledger spent 1 for the query that failed, and the log tells of no charge. -/
theorem failed_query_untold : ∃ t,
    Runs.Run (AccountStep failingRuntime) (.start oneAmount) [.attempts ann annsQuery] t ∧
    t.node.spentBy ann "pay" = oneAmount.spentBy ann "pay" + 1 ∧
    ∀ records, t.node.engine.audit = oneAmount.engine.audit ++ records → recordedTo ann "pay" records = 0 := by
  obtain ⟨t, hrun, hnode⟩ := ann_asks
  refine ⟨t, hrun, ?_, fun records haudit => ?_⟩
  · rw [hnode]
    decide +kernel
  · have hrecords : records = (afterAttempt failingRuntime ann annsQuery oneAmount).engine.audit := by
      rw [← hnode, haudit]
      rfl
    rw [hrecords]
    decide +kernel

end Peql
