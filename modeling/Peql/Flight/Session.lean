import Peql.Engine.Invisible
import Peql.Flight

/-!
# What a client is told

The service adds nothing to what the engine tells a caller: its answers to a whole session of requests, their codes and
messages included, are one for two engines that differ only in contracts the caller may not see
(`session_indistinguishable`). What `GetFlightInfo` or `CreatePreparedStatement` refuses, `DoGet` refuses in the same
words (`refused_alike`).
-/

namespace Peql

open Effects

namespace Flight

variable {R : Runtime} {W : Wire} {callers : Callers} {caller : Caller} {e₀ : Engine} {α : Type}

/-! ## Calls that leave the cache alone -/

theorem blind_sign (envelope : Envelope) : Blind caller e₀ (fun _ => True) (sign envelope) :=
  blind_engine (fun e e' h => by rw [h.signer]) fun _ _ _ _ => trivial

theorem blind_audit (auditId sql : String) (outcome : Outcome) (rows : Nat) (charges : List (String × ℚ))
    (contracts : List String) :
    Blind caller e₀ (fun _ => True) (audit R auditId sql caller outcome rows charges contracts) := by
  intro n n' h
  cases hn : n.engine.auditFault with
  | some err =>
    rw [audit_failed R hn, audit_failed R (h.engine.auditFault.trans hn)]
    exact ⟨rfl, h⟩
  | none =>
    rw [audit_recorded R hn, audit_recorded R (h.engine.auditFault.trans hn)]
    exact ⟨rfl, trivial, ⟨⟨h.engine.setAudit _ _, h.storage, h.now⟩, h.cache⟩⟩

/-- A call audited is as blind as the call. -/
theorem blind_audited (auditId sql : String) (tell : α → Telling) {call : Ask α}
    (h : Blind caller e₀ (fun _ => True) call) :
    Blind caller e₀ (fun _ => True) (audited R auditId sql caller tell call) := by
  unfold audited
  refine h.attempt.bind fun out _ => ?_
  cases out with
  | ok a => exact (blind_audit _ _ _ _ _ _).bind fun _ _ => (blind_ofExcept _).value fun _ _ => trivial
  | error e => exact (blind_audit _ _ _ _ _ _).bind fun _ _ => (blind_ofExcept _).value fun _ _ => trivial

/-- Nor does a spooled query tell of a hidden contract. -/
theorem blind_spool (sql auditId : String) (onViolation : OnReadViolation) (fault : Option PeqlError) :
    Blind caller e₀ (fun _ => True) (spool R sql caller auditId onViolation fault) := by
  unfold spool
  refine (blind_prepare sql [] onViolation).bind fun p _ => (blind_planned p).bind fun planned _ => ?_
  refine (blind_ofExcept _).bind fun found _ => (blind_ofExcept _).bind fun _ _ => blind_now.bind fun _ _ => ?_
  exact (blind_sign _).bind fun _ _ => Twins.ret trivial

theorem blind_querySpooled (auditId sql : String) (onViolation : OnReadViolation) (fault : Option PeqlError) :
    Blind caller e₀ (fun _ => True) (querySpooled R auditId sql caller onViolation fault) :=
  blind_audited auditId sql _ (blind_spool sql auditId onViolation fault)

theorem blind_check (auditId sql : String) (onViolation : OnReadViolation) :
    Blind caller e₀ (fun _ => True) (check R auditId sql caller onViolation) := by
  unfold check
  refine ((blind_prepare sql [] onViolation).value fun _ _ => trivial).attempt.bind fun out _ => ?_
  cases out with
  | ok p => exact Twins.ret trivial
  | error e =>
    exact ((blind_audit auditId sql _ _ _ _).bind fun _ _ => Twins.fail e :
      Blind caller e₀ (fun _ => True) (do
        audit R auditId sql caller (.ofError e) 0 [] []
        throw e : Ask Checked))

/-! ## A request -/

/-- Two runs of a request that what two engines share keeps alike. -/
abbrev BlindServe {β : Type} (caller : Caller) (e₀ : Engine) (x : EStateM Status Node β) : Prop :=
  Twins (Same caller e₀) (Same caller e₀) (fun _ => True) x

theorem blind_status (r : Except Status α) : BlindServe caller e₀ (Effects.ofExcept r) :=
  (Twins.ofExcept r).value fun _ _ => trivial

/-- What follows the caller's name is asked for the caller. -/
theorem blind_caller {m : Metadata} (hm : ∀ c, callerOf W callers m = .ok c → c = caller) {f : Caller → Serve α}
    (hf : BlindServe caller e₀ (f caller)) : BlindServe caller e₀ (Effects.ofExcept (callerOf W callers m) >>= f) := by
  refine (Twins.ofExcept _).bind fun c hc => ?_
  rw [hm c hc]
  exact hf

variable {m : Metadata} (hm : ∀ c, callerOf W callers m = .ok c → c = caller)

include hm

/-- A statement is described alike. -/
theorem blind_info (a : Around) (sql : String) (ticket : Ticket) :
    BlindServe caller e₀ (info R W callers a m sql ticket) := by
  refine blind_caller hm ((blind_status _).bind fun onViolation _ => ?_)
  refine ((blind_check _ _ _).mapError _).bind fun checked _ => (blind_status _).bind fun _ _ => Twins.ret trivial

/-- It is answered alike. -/
theorem blind_answerSql (a : Around) (bytes : ByteArray) : BlindServe caller e₀ (answerSql R W callers a m bytes) := by
  refine blind_caller hm ((blind_status _).bind fun sql _ => (blind_status _).bind fun onViolation _ => ?_)
  exact ((blind_querySpooled _ _ _ _).mapError _).bind fun _ _ => Twins.ret trivial

theorem blind_createPrepared (a : Around) (query : String) :
    BlindServe caller e₀ (createPrepared R W callers a m query) := by
  refine blind_caller hm ((blind_status _).bind fun onViolation _ => ?_)
  refine ((blind_check _ _ _).mapError _).bind fun checked _ => ?_
  exact (blind_status _).bind fun _ _ => (blind_status _).bind fun _ _ => Twins.ret trivial

omit hm in
/-- A caller that may not write under a contract is told so in both. -/
theorem blind_denied {name : String} (h : ¬ e₀.MayWrite name caller) :
    Blind caller e₀ (fun _ => False) (authorizeWrite name caller) := by
  unfold authorizeWrite
  refine (blind_visible name).bind fun reg hreg => ?_
  cases ho : reg.owner with
  | none => exact absurd ⟨reg, hreg, fun owner howner => absurd (ho.symm.trans howner) (by simp)⟩ h
  | some owner =>
    dsimp only
    split
    · exact Twins.fail _
    · next hsame =>
      refine absurd ⟨reg, hreg, fun o howner => ?_⟩ h
      cases ho.symm.trans howner
      exact not_not.1 hsame

/-- An ingest the caller may not make is refused alike. -/
theorem blind_ingest (a : Around) (command : CommandStatementIngest) (h : ¬ e₀.MayWrite command.table caller) :
    BlindServe caller e₀ (ingest R W callers a m command) := by
  have hadmission : Twins (Same caller e₀) (Same caller e₀) (fun _ => False) (admission W callers m command) := by
    unfold admission
    refine (Twins.ofExcept _).bind fun c hc => ?_
    rw [hm c hc]
    split
    · exact Twins.fail _
    · exact ((blind_denied h).mapError _).bind fun _ => False.elim
  exact hadmission.bind fun _ => False.elim

/-- Every request of the caller's is served alike. -/
theorem blind_serve (a : Around) (q : Request)
    (hq : ∀ command, q = .ingest command → ¬ e₀.MayWrite command.table caller) :
    BlindServe caller e₀ (serve R W callers a m q) := by
  cases q with
  | infoStatement query => exact blind_info hm a query _
  | infoPrepared handle => exact (blind_status _).bind fun sql _ => blind_info hm a sql _
  | get ticket =>
    cases ticket with
    | statement handle => exact blind_answerSql hm a handle
    | prepared handle => exact blind_answerSql hm a handle
  | createPrepared query => exact blind_createPrepared hm a query
  | closePrepared => exact Twins.ret trivial
  | ingest command => exact blind_ingest hm a command (hq command rfl)

/-! ## A session -/

omit hm

/-- What a service answers to requests, one after another. -/
def session (R : Runtime) (W : Wire) (callers : Callers) : List Call → Node → List (Except Status Response)
  | [], _ => []
  | c :: cs, n =>
    Effects.outcome (serve R W callers c.around c.metadata c.request) { n with now := c.now } ::
      session R W callers cs (Effects.final (serve R W callers c.around c.metadata c.request) { n with now := c.now })

/-- The engine and its storage after them. -/
def afterSession (R : Runtime) (W : Wire) (callers : Callers) : List Call → Node → Node
  | [], n => n
  | c :: cs, n =>
    afterSession R W callers cs
      (Effects.final (serve R W callers c.around c.metadata c.request) { n with now := c.now })

/-- A request that names no other caller, and is not an ingest that the caller may make. -/
structure Call.ReadsFor (W : Wire) (callers : Callers) (caller : Caller) (e : Engine) (c : Call) : Prop where
  names : ∀ d, callerOf W callers c.metadata = .ok d → d = caller
  reads : ∀ command, c.request = .ingest command → ¬ e.MayWrite command.table caller

/-- Engines that are the same are so at any time. -/
theorem Same.at {n n' : Node} (h : Same caller e₀ n n') (now : Int) :
    Same caller e₀ { n with now := now } { n' with now := now } := ⟨⟨h.engine, h.storage, rfl⟩, h.cache⟩

/-- A session answered alike leaves engines that differ in nothing more. -/
theorem session_blind {calls : List Call} (hcalls : ∀ c ∈ calls, c.ReadsFor W callers caller e₀) {n n' : Node}
    (h : Same caller e₀ n n') :
    session R W callers calls n' = session R W callers calls n ∧
      Same caller e₀ (afterSession R W callers calls n) (afterSession R W callers calls n') := by
  induction calls generalizing n n' with
  | nil => exact ⟨rfl, h⟩
  | cons c calls ih =>
    have hc := hcalls c List.mem_cons_self
    have hserve : BlindServe caller e₀ (serve R W callers c.around c.metadata c.request) :=
      blind_serve hc.names c.around c.request hc.reads
    have hnow := Same.at h c.now
    obtain ⟨hanswers, hsame⟩ := ih (fun d hd => hcalls d (List.mem_cons_of_mem _ hd)) (hserve.final hnow)
    constructor
    · unfold session
      rw [hserve.outcome_eq hnow, hanswers]
    · unfold afterSession
      exact hsame

/-- Two engines over their storages that differ only in contracts a caller may not see answer alike every session of the
caller's requests in which no ingest is the caller's to make, and differ afterwards only in those contracts again. -/
theorem session_indistinguishable (R : Runtime) (W : Wire) (callers : Callers) (caller : Caller) (calls : List Call)
    {n n' : Node} (h : Same caller n.engine n n')
    (hcalls : ∀ c ∈ calls, c.ReadsFor W callers caller n.engine) :
    session R W callers calls n' = session R W callers calls n ∧
      Same caller n.engine (afterSession R W callers calls n) (afterSession R W callers calls n') :=
  session_blind hcalls h

/-- Libraries that take a text for its bytes and know one caller. -/
def plainWire : Wire where
  planning _ := false
  headerText bytes := (String.fromUTF8? bytes).elim (.error "not text") .ok
  base64 := .ok
  callerJson _ := .ok globexCaller
  schemaMessage _ := .ok .empty

def globexAround : Around := ⟨"a1", none, [], "w1", fun _ => .error (.conflict "no table")⟩

def amountsIngest : CommandStatementIngest := ⟨none, none, "acme/amounts", none, Lookup.empty, .ok []⟩

/-- A caller asks for another's amounts, and sends some. -/
def globexCalls : List Call :=
  [⟨5, globexAround, ⟨none, none⟩, .infoStatement (selectAll "acme/amounts")⟩,
    ⟨6, globexAround, ⟨none, none⟩, .get (.statement (selectAll "acme/amounts").toUTF8)⟩,
    ⟨7, globexAround, ⟨none, none⟩, .ingest amountsIngest⟩]

theorem session_indistinguishable_amounts :
    session amountsRuntime plainWire (.fixed globexCaller) globexCalls withAmounts =
        session amountsRuntime plainWire (.fixed globexCaller) globexCalls withoutAmounts ∧
      Same globexCaller withoutAmounts.engine
        (afterSession amountsRuntime plainWire (.fixed globexCaller) globexCalls withoutAmounts)
        (afterSession amountsRuntime plainWire (.fixed globexCaller) globexCalls withAmounts) := by
  refine session_indistinguishable amountsRuntime plainWire (.fixed globexCaller) globexCaller globexCalls same_amounts
    fun c _ => ⟨fun d hd => (Except.ok.inj hd).symm, ?_⟩
  rintro command - ⟨reg, hreg, -⟩
  cases hreg

/-! ## Refused alike -/

/-- What is refused when it is checked is refused when it is run, in the same words, and leaves the same state. -/
theorem querySpooled_of_refused {auditId sql : String} {onViolation : OnReadViolation} {n t : Node} {e : PeqlError}
    (fault : Option PeqlError) (h : check R auditId sql caller onViolation n = .error e t) :
    querySpooled R auditId sql caller onViolation fault n = .error e t := by
  unfold check at h
  unfold querySpooled audited
  rw [bind_apply] at h ⊢
  unfold attempt at h ⊢
  cases hp : prepare R sql caller [] onViolation n with
  | ok p s =>
    rw [hp] at h
    cases h
  | error err s =>
    have hspool : spool R sql caller auditId onViolation fault n = .error err s := by
      unfold spool
      rw [bind_apply, hp]
    rw [hp] at h
    rw [hspool]
    dsimp only at h ⊢
    rw [bind_apply] at h ⊢
    cases ha : audit R auditId sql caller (Outcome.ofError err) 0 [] [] s with
    | ok u s' =>
      rw [ha] at h
      cases h
      rfl
    | error err' s' =>
      rw [ha] at h
      cases h
      rfl

/-- The ticket or handle a client is given for the statement a request has checked. -/
def Request.ticket : Request → Option Ticket
  | .infoStatement query => some (.statement query.toUTF8)
  | .infoPrepared handle => some (.prepared handle)
  | .createPrepared query => some (.prepared query.toUTF8)
  | _ => none

def Ticket.bytes : Ticket → ByteArray
  | .statement handle | .prepared handle => handle

/-- The statement it has checked. -/
def Request.sql (q : Request) : Option String := q.ticket.bind fun ticket => String.fromUTF8? ticket.bytes

/-- The schemas a request describes to the client, of a statement that is checked. -/
def Request.describes (q : Request) (checked : Checked) : List (List ColumnDef) :=
  match q with
  | .createPrepared _ => [checked.schema, []]
  | _ => [checked.schema]

/-- A text's bytes are the text. -/
theorem fromUTF8?_toUTF8 (s : String) : String.fromUTF8? s.toUTF8 = some s := by
  unfold String.fromUTF8?
  exact dif_pos s.isValidUTF8

/-- A statement is refused before its answer is described: by its headers, or when it is checked. -/
inductive Refuses (R : Runtime) (W : Wire) (callers : Callers) (a : Around) (m : Metadata) (sql : String) (n : Node) :
    Status → Node → Prop
  | caller {st : Status} (named : callerOf W callers m = .error st) : Refuses R W callers a m sql n st n
  | onViolation {st : Status} {caller : Caller} (named : callerOf W callers m = .ok caller)
      (header : onViolationOf W m = .error st) : Refuses R W callers a m sql n st n
  | checked {caller : Caller} {onViolation : OnReadViolation} {e : PeqlError} {t : Node}
      (named : callerOf W callers m = .ok caller) (header : onViolationOf W m = .ok onViolation)
      (refused : check R a.auditId sql caller onViolation n = .error e t) :
      Refuses R W callers a m sql n (status W e) t

/-- A statement checked for the caller a request names. -/
def checkFor (R : Runtime) (W : Wire) (callers : Callers) (a : Around) (m : Metadata) (sql : String)
    (describe : Checked → Serve Response) : Serve Response := do
  let caller ← Effects.ofExcept (callerOf W callers m)
  let onViolation ← Effects.ofExcept (onViolationOf W m)
  let checked ← Effects.mapError (status W) (check R a.auditId sql caller onViolation)
  describe checked

variable {a : Around} {m : Metadata} {sql : String} {n t : Node} {st : Status}

/-- A statement is checked, and a schema a request describes has no message. -/
def Undescribed (R : Runtime) (W : Wire) (callers : Callers) (a : Around) (m : Metadata) (q : Request) (sql : String)
    (n : Node) (st : Status) (t : Node) : Prop :=
  ∃ caller onViolation checked, callerOf W callers m = .ok caller ∧ onViolationOf W m = .ok onViolation ∧
    check R a.auditId sql caller onViolation n = .ok checked t ∧
      ∃ schema ∈ q.describes checked, ∃ e, W.schemaMessage schema = .error e ∧ st = ⟨.internal, e⟩

/-- A check for a caller refuses by its headers, by the check, or in describing the answer. -/
theorem refuses_of_checkFor {describe : Checked → Serve Response}
    (h : checkFor R W callers a m sql describe n = .error st t) :
    Refuses R W callers a m sql n st t ∨ ∃ caller onViolation checked s, callerOf W callers m = .ok caller ∧
      onViolationOf W m = .ok onViolation ∧ check R a.auditId sql caller onViolation n = .ok checked s ∧
        describe checked s = .error st t := by
  rcases bind_eq_error.1 h with herr | ⟨caller, s, hcaller, hrest⟩
  · obtain ⟨hnamed, rfl⟩ := ofExcept_eq_error.1 herr
    exact .inl (.caller hnamed)
  obtain ⟨hnamed, rfl⟩ := ofExcept_eq_ok.1 hcaller
  rcases bind_eq_error.1 hrest with herr | ⟨onViolation, s', hviolation, hcheck⟩
  · obtain ⟨hheader, rfl⟩ := ofExcept_eq_error.1 herr
    exact .inl (.onViolation hnamed hheader)
  obtain ⟨hheader, rfl⟩ := ofExcept_eq_ok.1 hviolation
  rcases bind_eq_error.1 hcheck with herr | ⟨checked, s'', hchecked, hdescribe⟩
  · obtain ⟨e, he, rfl⟩ := mapError_eq_error.1 herr
    exact .inl (.checked hnamed hheader he)
  · exact .inr ⟨caller, onViolation, checked, s'', hnamed, hheader, mapError_eq_ok.1 hchecked, hdescribe⟩

/-- A schema without a message is the server's error. -/
theorem schemaMessage_error {schema : List ColumnDef} (h : schemaMessage W schema = .error st) :
    ∃ e, W.schemaMessage schema = .error e ∧ st = ⟨.internal, e⟩ := by
  unfold schemaMessage at h
  cases hm : W.schemaMessage schema with
  | ok bytes =>
    rw [hm] at h
    cases h
  | error e =>
    rw [hm] at h
    cases h
    exact ⟨e, rfl, rfl⟩

/-- A statement that is checked is refused by its headers or its check, or for a schema that has no message. -/
theorem refuses_of_sql {q : Request} (hq : q.sql = some sql) (h : serve R W callers a m q n = .error st t) :
    Refuses R W callers a m sql n st t ∨ Undescribed R W callers a m q sql n st t := by
  have hinfo : ∀ ticket, (∀ checked, q.describes checked = [checked.schema]) →
      info R W callers a m sql ticket n = .error st t →
        Refuses R W callers a m sql n st t ∨ Undescribed R W callers a m q sql n st t := by
    intro ticket hdescribes h
    refine (refuses_of_checkFor h).imp_right ?_
    rintro ⟨caller, onViolation, checked, s, hnamed, hheader, hchecked, hdescribe⟩
    rcases bind_eq_error.1 hdescribe with hschema | ⟨_, _, _, hret⟩
    · obtain ⟨hmessage, rfl⟩ := ofExcept_eq_error.1 hschema
      refine ⟨caller, onViolation, checked, hnamed, hheader, hchecked, checked.schema, ?_, schemaMessage_error hmessage⟩
      rw [hdescribes]
      exact List.mem_singleton_self _
    · cases hret
  cases q with
  | infoStatement query =>
    obtain rfl := Option.some.inj ((fromUTF8?_toUTF8 query).symm.trans hq)
    exact hinfo _ (fun _ => rfl) h
  | infoPrepared handle =>
    have hsql : sqlOf "statement handle" handle = .ok sql := by
      have hq : String.fromUTF8? handle = some sql := hq
      simp [sqlOf, hq]
    rcases bind_eq_error.1 h with herr | ⟨found, s, hfound, hrest⟩
    · rw [hsql] at herr
      cases herr
    · obtain ⟨hok, rfl⟩ := ofExcept_eq_ok.1 hfound
      cases hsql.symm.trans hok
      exact hinfo _ (fun _ => rfl) hrest
  | createPrepared query =>
    obtain rfl := Option.some.inj ((fromUTF8?_toUTF8 query).symm.trans hq)
    refine (refuses_of_checkFor h).imp_right ?_
    rintro ⟨caller, onViolation, checked, s, hnamed, hheader, hchecked, hdescribe⟩
    rcases bind_eq_error.1 hdescribe with hschema | ⟨_, s', hdataset, hrest⟩
    · obtain ⟨hmessage, rfl⟩ := ofExcept_eq_error.1 hschema
      exact ⟨caller, onViolation, checked, hnamed, hheader, hchecked, checked.schema, List.mem_cons_self,
        schemaMessage_error hmessage⟩
    obtain ⟨_, rfl⟩ := ofExcept_eq_ok.1 hdataset
    rcases bind_eq_error.1 hrest with hschema | ⟨_, _, _, hret⟩
    · obtain ⟨hmessage, rfl⟩ := ofExcept_eq_error.1 hschema
      exact ⟨caller, onViolation, checked, hnamed, hheader, hchecked, [], List.mem_cons_of_mem _ List.mem_cons_self,
        schemaMessage_error hmessage⟩
    · cases hret
  | get ticket => cases hq
  | closePrepared => cases hq
  | ingest command => cases hq

/-- What refuses a check refuses the query. -/
theorem answerSql_of_refuses {bytes : ByteArray} (hbytes : String.fromUTF8? bytes = some sql)
    (h : Refuses R W callers a m sql n st t) : answerSql R W callers a m bytes n = .error st t := by
  have hsql : sqlOf "ticket" bytes = .ok sql := by simp [sqlOf, hbytes]
  unfold answerSql
  cases h with
  | caller named => simp only [named, bind_apply, ofExcept_apply]
  | onViolation named header => simp only [named, hsql, header, bind_apply, ofExcept_apply]
  | checked named header refused =>
    have hquery := querySpooled_of_refused a.fault refused
    simp only [named, hsql, header, bind_apply, ofExcept_apply]
    rw [mapError_eq_error.2 ⟨_, hquery, rfl⟩]

/-- A ticket whose bytes are no text is refused, for its caller first. -/
theorem answerSql_of_not_sql {bytes : ByteArray} (hbytes : String.fromUTF8? bytes = none) :
    ∃ st, (callerOf W callers m = .error st ∨ st = ⟨.invalidArgument, "the ticket is not UTF-8 SQL"⟩) ∧
      answerSql R W callers a m bytes n = .error st n := by
  have hsql : sqlOf "ticket" bytes = .error ⟨.invalidArgument, "the ticket is not UTF-8 SQL"⟩ := by
    simp [sqlOf, hbytes]
  unfold answerSql
  cases hnamed : callerOf W callers m with
  | error st => exact ⟨st, .inl rfl, rfl⟩
  | ok caller =>
    refine ⟨_, .inr rfl, ?_⟩
    simp only [hsql, bind_apply, ofExcept_apply]

/-- Every ticket is answered as its bytes' SQL. -/
theorem serve_get (ticket : Ticket) :
    serve R W callers a m (.get ticket) = answerSql R W callers a m ticket.bytes := by
  cases ticket <;> rfl

/-- What `GetFlightInfo` or `CreatePreparedStatement` refuses, `DoGet` with its ticket refuses in the same words and
leaving the same state, but for a statement that is checked and has a schema without a message; of a handle that is no
text each says so. -/
theorem refused_alike {q : Request} {ticket : Ticket} (hq : q.ticket = some ticket)
    (h : serve R W callers a m q n = .error st t) :
    (∃ sql, q.sql = some sql ∧ (serve R W callers a m (.get ticket) n = .error st t ∨
        Undescribed R W callers a m q sql n st t)) ∨
      q.sql = none ∧ st = ⟨.invalidArgument, "the statement handle is not UTF-8 SQL"⟩ ∧ t = n ∧
        ∃ st', (callerOf W callers m = .error st' ∨ st' = ⟨.invalidArgument, "the ticket is not UTF-8 SQL"⟩) ∧
          serve R W callers a m (.get ticket) n = .error st' n := by
  have hsql : q.sql = String.fromUTF8? ticket.bytes := by
    unfold Request.sql
    rw [hq]
    rfl
  rw [serve_get]
  cases hbytes : String.fromUTF8? ticket.bytes with
  | some sql =>
    refine .inl ⟨sql, hsql.trans hbytes, ?_⟩
    exact (refuses_of_sql (hsql.trans hbytes) h).imp_left (answerSql_of_refuses hbytes)
  | none =>
    refine .inr ⟨hsql.trans hbytes, ?_⟩
    cases q with
    | infoStatement query => cases (fromUTF8?_toUTF8 query).symm.trans (hsql.trans hbytes)
    | createPrepared query => cases (fromUTF8?_toUTF8 query).symm.trans (hsql.trans hbytes)
    | infoPrepared handle =>
      have hhandle : sqlOf "statement handle" handle =
          .error ⟨.invalidArgument, "the statement handle is not UTF-8 SQL"⟩ := by
        have hnone : String.fromUTF8? handle = none := hsql.trans hbytes
        simp [sqlOf, hnone]
      rcases bind_eq_error.1 h with herr | ⟨found, s, hfound, _⟩
      · rw [hhandle] at herr
        obtain ⟨heq, rfl⟩ := ofExcept_eq_error.1 herr
        exact ⟨(Except.error.inj heq).symm, rfl, answerSql_of_not_sql hbytes⟩
      · rw [hhandle] at hfound
        cases (ofExcept_eq_ok.1 hfound).1
    | get ticket => cases hq
    | closePrepared => cases hq
    | ingest command => cases hq

/-- Where every statement is over the amounts. -/
def overAmounts : Runtime := { amountsRuntime with references := fun _ => .ok [⟨none, "acme/amounts"⟩] }

theorem refused_alike_amounts : ∃ t,
    serve overAmounts plainWire (.fixed globexCaller) globexAround ⟨none, none⟩ (.createPrepared "TABLE amounts")
        withoutAmounts = .error ⟨.notFound, "no contract named `acme/amounts`"⟩ t ∧
      serve overAmounts plainWire (.fixed globexCaller) globexAround ⟨none, none⟩
          (.get (.prepared "TABLE amounts".toUTF8)) withoutAmounts =
        .error ⟨.notFound, "no contract named `acme/amounts`"⟩ t := by
  have hrefused : ∃ t, serve overAmounts plainWire (.fixed globexCaller) globexAround ⟨none, none⟩
      (.createPrepared "TABLE amounts") withoutAmounts =
        .error ⟨.notFound, "no contract named `acme/amounts`"⟩ t := ⟨_, rfl⟩
  obtain ⟨t, hrefused⟩ := hrefused
  refine ⟨t, hrefused, ?_⟩
  rcases refused_alike rfl hrefused with
    ⟨sql, -, hserve | ⟨_, _, _, _, _, _, _, _, _, hmessage, _⟩⟩ | ⟨hnone, _⟩
  · exact hserve
  · cases hmessage
  · cases (fromUTF8?_toUTF8 "TABLE amounts").symm.trans hnone

end Flight

end Peql
