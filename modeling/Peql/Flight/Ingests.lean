import Peql.Engine.Truth
import Peql.Flight.Session

/-!
# Services over one storage

Any number of services, each of an engine, with the storage the engines share and the ingests under way. A request that
reads is served in one step. An ingest is admitted, begins its write, writes its rows and finishes, and other requests,
operators and other software come between. What they do to the engines and the storage is what a fleet does
(`traffic_simulates`), so what is recorded stays true of the data; and the data of a place changes only when an ingest
of a caller that was let in is finished there, or other software commits to the table (`changed_by_writer`).
-/

namespace Peql

open Effects Runs

namespace Flight

/-- How far an ingest is; the number is that of its write. -/
inductive IngestStage
  | admitted
  | begun (i : Nat)
  | written (i : Nat)

/-- The write an ingest has begun. -/
def IngestStage.write : IngestStage → Option Nat
  | .admitted => none
  | .begun i | .written i => some i

/-- An ingest under way. -/
structure Ingest where
  engine : Nat
  caller : Caller
  command : CommandStatementIngest
  mode : WriteMode
  onViolation : OnWriteViolation
  stage : IngestStage

structure Traffic where
  fleet : Fleet
  ingests : Nat → Option Ingest

def Traffic.setIngest (σ : Traffic) (j : Nat) (g : Option Ingest) : Traffic :=
  { σ with ingests := Function.update σ.ingests j g }

inductive TrafficAction
  | serves (k : Nat) (call : Call)
  | admits (k j : Nat) (now : Int) (m : Metadata) (command : CommandStatementIngest)
  | begins (k j i : Nat) (now : Int) (name : String) (mode : WriteMode) (onViolation : OnWriteViolation) (id : String)
  | writes (j i : Nat) (rows : List Row) (files : List StoredFile)
  | finishes (j i : Nat) (now : Int) (commit : TableMetadata → Except PeqlError (Int × Option Int))
  /-- An ingest ends early: it fails, or its client goes away. -/
  | drops (j : Nat) (write : Option Nat)
  /-- An operator's call, or a commit of other software. -/
  | operates (a : FleetAction)

/-- What operators and other software do. -/
def Operates : FleetAction → Prop
  | .registers _ _ | .publishes _ _ _ | .unpublishes _ _ _ | .calls _ _ _ | .commits _ _ => True
  | _ => False

section Steps

variable (R : Runtime) (V : Compilation → Prop) (W : Wire) (callers : Nat → Callers)

/-- The steps of the services; an ingest is admitted by `admission`, and what it does then is a step of the fleet. -/
inductive TrafficStep : Traffic → TrafficAction → Traffic → Prop
  /-- A request is served; of the ingests, those that are refused. -/
  | serves {σ : Traffic} (k : Nat) (call : Call)
      (refused : ∀ command, call.request = .ingest command → ∃ st n,
        admission W (callers k) call.metadata command (σ.fleet.node k call.now) = .error st n) :
      TrafficStep σ (.serves k call) { σ with
        fleet := σ.fleet.after k
          (final (serve R W (callers k) call.around call.metadata call.request) (σ.fleet.node k call.now)) }
  | admits {σ : Traffic} {k j : Nat} {now : Int} {m : Metadata} {command : CommandStatementIngest} {caller : Caller}
      {mode : WriteMode} {onViolation : OnWriteViolation} {n : Node} (free : σ.ingests j = none)
      (admitted : admission W (callers k) m command (σ.fleet.node k now) = .ok (caller, mode, onViolation) n) :
      TrafficStep σ (.admits k j now m command)
        (σ.setIngest j (some ⟨k, caller, command, mode, onViolation, .admitted⟩))
  | begins {σ : Traffic} {j i : Nat} {now : Int} {id : String} {g : Ingest} {f : Fleet} (held : σ.ingests j = some g)
      (waiting : g.stage = .admitted)
      (begun : FleetStep R V σ.fleet (.begins g.engine i now g.command.table g.mode g.onViolation id) f) :
      TrafficStep σ (.begins g.engine j i now g.command.table g.mode g.onViolation id)
        { fleet := f, ingests := Function.update σ.ingests j (some { g with stage := .begun i }) }
  | writes {σ : Traffic} {j i : Nat} {rows : List Row} {files : List StoredFile} {g : Ingest} {f : Fleet}
      (held : σ.ingests j = some g) (begun : g.stage = .begun i) (batches : g.command.batches = .ok rows)
      (part : FleetStep R V σ.fleet (.writes i rows files) f) :
      TrafficStep σ (.writes j i rows files)
        { fleet := f, ingests := Function.update σ.ingests j (some { g with stage := .written i }) }
  | finishes {σ : Traffic} {j i : Nat} {now : Int} {commit : TableMetadata → Except PeqlError (Int × Option Int)}
      {g : Ingest} {f : Fleet} (held : σ.ingests j = some g) (written : g.stage = .written i)
      (finished : FleetStep R V σ.fleet (.finishes i now commit) f) :
      TrafficStep σ (.finishes j i now commit) { fleet := f, ingests := Function.update σ.ingests j none }
  | leaves {σ : Traffic} {j : Nat} {g : Ingest} (held : σ.ingests j = some g) (waiting : g.stage = .admitted) :
      TrafficStep σ (.drops j none) (σ.setIngest j none)
  | drops {σ : Traffic} {j i : Nat} {g : Ingest} {f : Fleet} (held : σ.ingests j = some g)
      (begun : g.stage.write = some i) (dropped : FleetStep R V σ.fleet (.drops i) f) :
      TrafficStep σ (.drops j (some i)) { fleet := f, ingests := Function.update σ.ingests j none }
  | operates {σ : Traffic} {a : FleetAction} {f : Fleet} (operator : Operates a) (step : FleetStep R V σ.fleet a f) :
      TrafficStep σ (.operates a) { σ with fleet := f }

end Steps

/-! ## As a fleet -/

/-- A call for the caller a request names, when its headers are in order. -/
def readFor (W : Wire) (callers : Callers) (m : Metadata) (f : Caller → OnReadViolation → EngineCall) :
    Option EngineCall :=
  match callerOf W callers m, onViolationOf W m with
  | .ok caller, .ok onViolation => some (f caller onViolation)
  | _, _ => none

/-- The call of the engine a request comes to, when it comes to one. -/
def Call.made (W : Wire) (callers : Callers) (c : Call) : Option EngineCall :=
  let checks := fun sql => readFor W callers c.metadata fun caller onViolation =>
    .asks caller (.check c.around.auditId sql onViolation)
  match c.request with
  | .infoStatement sql | .createPrepared sql => checks sql
  | .infoPrepared handle => (String.fromUTF8? handle).bind checks
  | .get (.statement handle) | .get (.prepared handle) =>
    (String.fromUTF8? handle).bind fun sql => readFor W callers c.metadata fun caller onViolation =>
      .querySpooled c.around.auditId sql caller onViolation c.around.fault
  | .closePrepared | .ingest _ => none

/-- What an action is to the fleet. -/
def TrafficAction.shown (W : Wire) (callers : Nat → Callers) : TrafficAction → Option FleetAction
  | .serves k call => (call.made W (callers k)).map (.calls k call.now)
  | .admits _ _ _ _ _ => none
  | .begins k _ i now name mode onViolation id => some (.begins k i now name mode onViolation id)
  | .writes _ i rows files => some (.writes i rows files)
  | .finishes _ i now commit => some (.finishes i now commit)
  | .drops _ write => write.map .drops
  | .operates a => some a

section Shown

variable {R : Runtime} {W : Wire} {callers : Callers}

/-- What a request does when it comes to no call of the engine, or to one. -/
def Made (R : Runtime) (c : Option EngineCall) (n : Node) : Node := c.elim n fun c => final (c.make R) n

/-- A request for a caller comes to a call where its headers name one and say what to do with broken rows. -/
theorem final_for {m : Metadata} {f : Caller → OnReadViolation → EngineCall}
    {x : Caller → OnReadViolation → Serve Response} {n : Node}
    (hx : ∀ caller onViolation, final (x caller onViolation) n = final ((f caller onViolation).make R) n) :
    final (do
      let caller ← Effects.ofExcept (callerOf W callers m)
      let onViolation ← Effects.ofExcept (onViolationOf W m)
      x caller onViolation) n =
      Made R (readFor W callers m f) n := by
  unfold readFor
  cases hc : callerOf W callers m with
  | error st => rfl
  | ok caller =>
    cases hv : onViolationOf W m with
    | error st => rfl
    | ok onViolation => exact hx caller onViolation

/-- A check leaves what `check` leaves. -/
theorem final_check (auditId sql : String) (caller : Caller) (onViolation : OnReadViolation)
    {f : Checked → Serve Response} (hf : ∀ a t, final (f a) t = t) (n : Node) :
    final (Effects.mapError (status W) (check R auditId sql caller onViolation) >>= f) n =
      final ((EngineCall.asks caller (.check auditId sql onViolation)).make R) n := by
  rw [final_bind_still hf, final_mapError]
  refine Eq.symm ((final_bind_still (fun _ _ => rfl) n).trans ?_)
  exact final_bind_still (fun _ _ => rfl) n

theorem final_querySpooled (auditId sql : String) (caller : Caller) (onViolation : OnReadViolation)
    (fault : Option PeqlError) {f : QueryResult → Serve Response} (hf : ∀ a t, final (f a) t = t) (n : Node) :
    final (Effects.mapError (status W) (querySpooled R auditId sql caller onViolation fault) >>= f) n =
      final ((EngineCall.querySpooled auditId sql caller onViolation fault).make R) n := by
  rw [final_bind_still hf, final_mapError]
  exact Eq.symm (final_bind_still (fun _ _ => rfl) n)

/-- Describing a statement leaves what checking it does. -/
theorem final_info (a : Around) (m : Metadata) (sql : String) (ticket : Ticket) (n : Node) :
    final (info R W callers a m sql ticket) n =
      Made R (readFor W callers m fun caller onViolation => .asks caller (.check a.auditId sql onViolation)) n := by
  refine final_for fun caller onViolation => final_check _ _ _ _ (fun checked t => ?_) n
  rw [final_bind_still (fun _ _ => rfl), final_ofExcept]

theorem final_createPrepared (a : Around) (m : Metadata) (query : String) (n : Node) :
    final (createPrepared R W callers a m query) n =
      Made R (readFor W callers m fun caller onViolation => .asks caller (.check a.auditId query onViolation)) n := by
  refine final_for fun caller onViolation => final_check _ _ _ _ (fun checked t => ?_) n
  rw [final_bind_still fun _ s => by rw [final_bind_still (fun _ _ => rfl), final_ofExcept], final_ofExcept]

/-- Answering one leaves what running it does. -/
theorem final_answerSql (a : Around) (m : Metadata) (bytes : ByteArray) (n : Node) :
    final (answerSql R W callers a m bytes) n =
      Made R ((String.fromUTF8? bytes).bind fun sql => readFor W callers m fun caller onViolation =>
        .querySpooled a.auditId sql caller onViolation a.fault) n := by
  cases hb : String.fromUTF8? bytes with
  | none =>
    have hsql : sqlOf "ticket" bytes = .error ⟨.invalidArgument, "the ticket is not UTF-8 SQL"⟩ := by
      unfold sqlOf
      rw [hb]
      rfl
    unfold answerSql
    rw [hsql]
    exact (final_bind_still (fun _ _ => rfl) n).trans (final_ofExcept _ n)
  | some sql =>
    have hsql : sqlOf "ticket" bytes = .ok sql := by
      unfold sqlOf
      rw [hb]
    unfold answerSql
    rw [hsql]
    exact final_for fun caller onViolation => final_querySpooled _ _ _ _ _ (fun _ _ => rfl) n

/-- An ingest that is refused changes nothing. -/
theorem final_refused {m : Metadata} {command : CommandStatementIngest} {n : Node}
    (h : ∃ st t, admission W callers m command n = .error st t) (a : Around) :
    final (ingest R W callers a m command) n = n := by
  have hkeeps : Effects.Keeps (· = n) (admission W callers m command) := by
    unfold admission
    refine (Effects.Keeps.ofExcept _).bind fun caller => ?_
    split
    · exact Effects.Keeps.fail _
    · refine Effects.Keeps.bind (Effects.Keeps.mapError ?_ _) fun _ => (Effects.Keeps.ofExcept _).bind fun _ =>
        (Effects.Keeps.ofExcept _).bind fun _ => Effects.Keeps.ret _
      refine (Effects.Keeps.reading _).bind fun reg => ?_
      split
      · split
        · exact Effects.Keeps.fail _
        · exact Effects.Keeps.ret _
      · exact Effects.Keeps.ret _
  obtain ⟨st, t, hadmission⟩ := h
  have ht := hkeeps n rfl
  rw [hadmission] at ht
  unfold ingest
  rw [final_bind, hadmission]
  exact ht

/-- What a request does to its engine and the storage, but an ingest that is admitted. -/
theorem final_serve (c : Call) {n : Node} (hc : ∀ command, c.request = .ingest command →
      ∃ st t, admission W callers c.metadata command n = .error st t) :
    final (serve R W callers c.around c.metadata c.request) n = Made R (c.made W callers) n := by
  obtain ⟨now, a, m, q⟩ := c
  cases q with
  | infoStatement query => exact final_info a m query _ n
  | infoPrepared handle =>
    unfold Call.made
    dsimp only
    cases hb : String.fromUTF8? handle with
    | none =>
      have hsql : sqlOf "statement handle" handle =
          .error ⟨.invalidArgument, "the statement handle is not UTF-8 SQL"⟩ := by
        unfold sqlOf
        rw [hb]
        rfl
      show final (Effects.ofExcept (sqlOf "statement handle" handle) >>= _) n = n
      rw [hsql]
      rfl
    | some sql =>
      have hsql : sqlOf "statement handle" handle = .ok sql := by
        unfold sqlOf
        rw [hb]
      show final (Effects.ofExcept (sqlOf "statement handle" handle) >>= _) n = _
      rw [hsql]
      exact final_info a m sql _ n
  | get ticket =>
    cases ticket with
    | statement handle => exact final_answerSql a m handle n
    | prepared handle => exact final_answerSql a m handle n
  | createPrepared query => exact final_createPrepared a m query n
  | closePrepared => rfl
  | ingest command => exact final_refused (hc command rfl) a

end Shown

variable {R : Runtime} {V : Compilation → Prop} {rd : Compilation → Reading} {W : Wire} {callers : Nat → Callers}

/-- A step is one of a fleet that covers the manifests beside the files it writes. -/
def CoversShown (W : Wire) (callers : Nat → Callers) (σ : Traffic) (a : TrafficAction) : Prop :=
  ∀ b, a.shown W callers = some b → Covers σ.fleet b

abbrev Goes (R : Runtime) (V : Compilation → Prop) (W : Wire) (callers : Nat → Callers) :
    Traffic → TrafficAction → Traffic → Prop :=
  Guarded (CoversShown W callers) (TrafficStep R V W callers)

/-- A call that does nothing leaves the fleet. -/
theorem after_node (σ : Fleet) (k : Nat) (now : Int) : σ.after k (σ.node k now) = σ := by
  unfold Fleet.after Fleet.node
  dsimp only
  rw [Function.update_eq_self]

/-- **Services do what a fleet does**: every step of theirs is one of a fleet, or changes no engine and no data. -/
theorem traffic_simulates : Simulates (Goes R V W callers) (Guarded Covers (FleetStep R V))
    (TrafficAction.shown W callers) (fun σ f => σ.fleet = f) where
  hidden := by
    rintro σ a τ _ rfl ⟨-, hstep⟩ hv
    cases hstep with
    | serves k call refused =>
      have hmade : call.made W (callers k) = none := Option.map_eq_none_iff.1 hv
      show σ.fleet.after k _ = σ.fleet
      rw [final_serve call refused, hmade]
      exact after_node _ _ _
    | admits | leaves => rfl
    | begins | writes | finishes | drops | operates => cases hv
  shown := by
    rintro σ a τ _ b rfl ⟨hcovers, hstep⟩ hv
    have hb := hcovers b hv
    cases hstep with
    | serves k call refused =>
      obtain ⟨c, hc, rfl⟩ := Option.map_eq_some_iff.1 hv
      refine ⟨_, ⟨hb, .calls k call.now c⟩, ?_⟩
      show σ.fleet.after k _ = _
      rw [final_serve call refused, hc]
      rfl
    | admits | leaves => cases hv
    | begins held waiting begun =>
      cases hv
      exact ⟨_, ⟨hb, begun⟩, rfl⟩
    | writes held begun batches part =>
      cases hv
      exact ⟨_, ⟨hb, part⟩, rfl⟩
    | finishes held written finished =>
      cases hv
      exact ⟨_, ⟨hb, finished⟩, rfl⟩
    | drops held begun dropped =>
      cases hv
      exact ⟨_, ⟨hb, dropped⟩, rfl⟩
    | operates operator step =>
      cases hv
      exact ⟨_, ⟨hb, step⟩, rfl⟩

/-- Services over data that others wrote, if any, with nothing under way. -/
structure Traffic.Opened (V : Compilation → Prop) (σ : Traffic) : Prop where
  fleet : σ.fleet.Unrecorded V
  idle : ∀ j, σ.ingests j = none

theorem Traffic.Opened.sound (hR : Counts R V rd) {σ τ : Traffic} {as : List TrafficAction} (h : σ.Opened V)
    (hrun : Run (Goes R V W callers) σ as τ) : τ.fleet.Sound V rd := by
  obtain ⟨f, hfleet, rfl⟩ := traffic_simulates.run hrun rfl
  exact (h.fleet.sound.run hR hfleet).1

/-! ## Whose ingests they are -/

/-- A run has admitted an ingest of a caller that may write under the contract it names. -/
def Admitted (R : Runtime) (V : Compilation → Prop) (W : Wire) (callers : Nat → Callers) (σ : Traffic)
    (as : List TrafficAction) (k j : Nat) (caller : Caller) (name : String) : Prop :=
  ∃ bs υ now m command, bs ++ [.admits k j now m command] <+: as ∧ Run (Goes R V W callers) σ bs υ ∧
    callerOf W (callers k) m = .ok caller ∧ command.table = name ∧ (υ.fleet.engines k).MayWrite name caller

/-- A run has begun a write of an ingest, to the place its contract was bound to. -/
def BegunTo (R : Runtime) (V : Compilation → Prop) (W : Wire) (callers : Nat → Callers) (σ : Traffic)
    (as : List TrafficAction) (k j : Nat) (name : String) (l : Location) : Prop :=
  ∃ bs υ i now mode onViolation id reg, bs ++ [.begins k j i now name mode onViolation id] <+: as ∧
    Run (Goes R V W callers) σ bs υ ∧ (υ.fleet.engines k).get name = .ok reg ∧
    (υ.fleet.engines k).bound reg = .ok (.files l)

/-- Who was admitted stays admitted. -/
theorem Admitted.later {σ : Traffic} {as : List TrafficAction} {k j : Nat} {caller : Caller} {name : String}
    (h : Admitted R V W callers σ as k j caller name) (a : TrafficAction) :
    Admitted R V W callers σ (as ++ [a]) k j caller name := by
  obtain ⟨bs, υ, now, m, command, hpre, hrest⟩ := h
  exact ⟨bs, υ, now, m, command, hpre.trans (List.prefix_append _ _), hrest⟩

/-- What was begun stays begun. -/
theorem BegunTo.later {σ : Traffic} {as : List TrafficAction} {k j : Nat} {name : String} {l : Location}
    (h : BegunTo R V W callers σ as k j name l) (a : TrafficAction) :
    BegunTo R V W callers σ (as ++ [a]) k j name l := by
  obtain ⟨bs, υ, i, now, mode, onViolation, id, reg, hpre, hrest⟩ := h
  exact ⟨bs, υ, i, now, mode, onViolation, id, reg, hpre.trans (List.prefix_append _ _), hrest⟩

/-- An ingest admitted is a caller's who may write. -/
theorem admit_ok {callers : Callers} {m : Metadata} {command : CommandStatementIngest} {n t : Node}
    {out : Caller × WriteMode × OnWriteViolation} (h : admission W callers m command n = .ok out t) :
    callerOf W callers m = .ok out.1 ∧ n.engine.MayWrite command.table out.1 := by
  obtain ⟨caller, s, hcaller, hrest⟩ := Effects.bind_eq_ok.1 h
  obtain ⟨hnamed, rfl⟩ := ofExcept_eq_ok.1 hcaller
  split at hrest
  · cases hrest
  obtain ⟨u, s', hmay, hrest⟩ := Effects.bind_eq_ok.1 hrest
  obtain ⟨mode, s₁, _, hrest⟩ := Effects.bind_eq_ok.1 hrest
  obtain ⟨onViolation, s₂, _, hrest⟩ := Effects.bind_eq_ok.1 hrest
  cases hrest
  obtain ⟨reg, hreg, howns⟩ := Ask.engine_bind_ok.1 (mapError_eq_ok.1 hmay)
  refine ⟨hnamed, reg, hreg, fun owner howner => ?_⟩
  rw [howner] at howns
  by_contra hne
  simp only [ne_eq, hne, not_false_eq_true, if_true] at howns
  cases howns

/-! ## The writes of a fleet -/

section Writes

variable {σ f : Fleet}

/-- Operators leave the writes. -/
theorem writes_operates {a : FleetAction} (h : FleetStep R V σ a f) (ho : Operates a) : f.writes = σ.writes := by
  cases h with
  | registers | publishes | unpublishes | calls | commits => rfl
  | begins | compacts | writes | finishes | drops => exact ho.elim

/-- A part written leaves the write where it was, and the others. -/
theorem writes_part {i : Nat} {rows : List Row} {files : List StoredFile}
    (h : FleetStep R V σ (.writes i rows files) f) :
    ∃ w w', σ.writes i = some w ∧ w'.begun.location = w.begun.location ∧
      f.writes = Function.update σ.writes i (some w') := by
  cases h with
  | @writes _ w _ _ b held data new part =>
    refine ⟨w, ⟨w.engine, b⟩, held, ?_, rfl⟩
    obtain ⟨computed, _, hb⟩ := Peql.bind_eq_ok.1 part
    cases hb
    rfl

/-- A write finished is gone. -/
theorem writes_finished {i : Nat} {now : Int} {commit : TableMetadata → Except PeqlError (Int × Option Int)}
    (h : FleetStep R V σ (.finishes i now commit) f) : f.writes = Function.update σ.writes i none := by
  cases h
  rfl

/-- So is one dropped. -/
theorem writes_dropped {i : Nat} (h : FleetStep R V σ (.drops i) f) : f.writes = Function.update σ.writes i none := by
  cases h
  rfl

/-- A write begun is to where its contract is bound. -/
theorem writes_begun (hσ : σ.Sound V rd) {k i : Nat} {now : Int} {name id : String} {mode : WriteMode}
    {onViolation : OnWriteViolation} (h : FleetStep R V σ (.begins k i now name mode onViolation id) f) :
    σ.writes i = none ∧ ∃ w : OpenWrite, f.writes = Function.update σ.writes i (some w) ∧
      (σ.engines k).get name = .ok w.begun.reg ∧ (σ.engines k).bound w.begun.reg = .ok (.files w.begun.location) := by
  cases h with
  | @begins _ _ _ _ _ _ _ w n free fresh begun =>
    obtain ⟨-, hfresh⟩ := hσ.begun begun
    exact ⟨free, ⟨k, w⟩, rfl, hfresh.registered, hfresh.bound⟩

end Writes

/-! ## Every ingest is accounted for -/

/-- Each ingest under way was admitted, and the write it has begun, which is no other's, goes to the place its contract
was bound to. -/
structure Accounted (R : Runtime) (V : Compilation → Prop) (W : Wire) (callers : Nat → Callers) (σ : Traffic)
    (as : List TrafficAction) (τ : Traffic) : Prop where
  admitted : ∀ j g, τ.ingests j = some g → Admitted R V W callers σ as g.engine j g.caller g.command.table
  begun : ∀ j g i, τ.ingests j = some g → g.stage.write = some i →
    ∃ w, τ.fleet.writes i = some w ∧ BegunTo R V W callers σ as g.engine j g.command.table w.begun.location
  apart : ∀ j j' g g' i, τ.ingests j = some g → τ.ingests j' = some g' → g.stage.write = some i →
    g'.stage.write = some i → j = j'

namespace Accounted

variable {σ τ : Traffic} {as : List TrafficAction}

/-- Before any request nothing is under way. -/
theorem opened (h : σ.Opened V) : Accounted R V W callers σ [] σ where
  admitted j g hg := by cases (h.idle j).symm.trans hg
  begun j g i hg := by cases (h.idle j).symm.trans hg
  apart j _ g _ _ hg := by cases (h.idle j).symm.trans hg

/-- A step that leaves the ingests and the writes as they are. -/
theorem same (h : Accounted R V W callers σ as τ) (a : TrafficAction) {f : Fleet} (hf : f.writes = τ.fleet.writes) :
    Accounted R V W callers σ (as ++ [a]) { τ with fleet := f } where
  admitted j g hg := (h.admitted j g hg).later a
  begun j g i hg hi := by
    obtain ⟨w, hw, hto⟩ := h.begun j g i hg hi
    exact ⟨w, by rw [hf]; exact hw, hto.later a⟩
  apart := h.apart

/-- An ingest goes on, or is over; the writes of the others are as they were. -/
theorem set (h : Accounted R V W callers σ as τ) (a : TrafficAction) {j : Nat} {o : Option Ingest} {f : Fleet}
    (hadmitted : ∀ g, o = some g → Admitted R V W callers σ (as ++ [a]) g.engine j g.caller g.command.table)
    (hbegun : ∀ g i, o = some g → g.stage.write = some i →
      ∃ w, f.writes i = some w ∧ BegunTo R V W callers σ (as ++ [a]) g.engine j g.command.table w.begun.location)
    (hothers : ∀ j' g i, j' ≠ j → τ.ingests j' = some g → g.stage.write = some i →
      f.writes i = τ.fleet.writes i ∧ ∀ g', o = some g' → g'.stage.write ≠ some i) :
    Accounted R V W callers σ (as ++ [a]) ⟨f, Function.update τ.ingests j o⟩ where
  admitted j' g hg := by
    by_cases hj : j' = j
    · subst hj
      exact hadmitted g ((Function.update_self j' o τ.ingests).symm.trans hg)
    · exact (h.admitted j' g ((Function.update_of_ne hj o τ.ingests).symm.trans hg)).later a
  begun j' g i hg hi := by
    by_cases hj : j' = j
    · subst hj
      exact hbegun g i ((Function.update_self j' o τ.ingests).symm.trans hg) hi
    · have hold := (Function.update_of_ne hj o τ.ingests).symm.trans hg
      obtain ⟨w, hw, hto⟩ := h.begun j' g i hold hi
      exact ⟨w, (hothers j' g i hj hold hi).1.trans hw, hto.later a⟩
  apart j₁ j₂ g₁ g₂ i hg₁ hg₂ hi₁ hi₂ := by
    change Function.update τ.ingests j o j₁ = some g₁ at hg₁
    change Function.update τ.ingests j o j₂ = some g₂ at hg₂
    by_cases h₁ : j₁ = j
    · by_cases h₂ : j₂ = j
      · rw [h₁, h₂]
      · subst h₁
        rw [Function.update_self] at hg₁
        rw [Function.update_of_ne h₂] at hg₂
        exact absurd hi₁ ((hothers j₂ g₂ i h₂ hg₂ hi₂).2 g₁ hg₁)
    · rw [Function.update_of_ne h₁] at hg₁
      by_cases h₂ : j₂ = j
      · subst h₂
        rw [Function.update_self] at hg₂
        exact absurd hi₂ ((hothers j₁ g₁ i h₁ hg₁ hi₁).2 g₂ hg₂)
      · rw [Function.update_of_ne h₂] at hg₂
        exact h.apart j₁ j₂ g₁ g₂ i hg₁ hg₂ hi₁ hi₂

/-- The write of another ingest is another write. -/
theorem other (h : Accounted R V W callers σ as τ) {j j' i i' : Nat} {g g' : Ingest} (hj : j' ≠ j)
    (hg : τ.ingests j = some g) (hi : g.stage.write = some i) (hg' : τ.ingests j' = some g')
    (hi' : g'.stage.write = some i') : i' ≠ i := by
  rintro rfl
  exact hj (h.apart j' j g' g i' hg' hg hi' hi)

/-- An ingest whose write is over is over. -/
theorem ends (h : Accounted R V W callers σ as τ) (a : TrafficAction) {j i : Nat} {g : Ingest} {f : Fleet}
    (hg : τ.ingests j = some g) (hi : g.stage.write = some i)
    (hf : f.writes = Function.update τ.fleet.writes i none) :
    Accounted R V W callers σ (as ++ [a]) ⟨f, Function.update τ.ingests j none⟩ := by
  refine h.set a (fun _ ho => by cases ho) (fun _ _ ho => by cases ho) fun j' g' i' hj hg' hi' => ⟨?_, fun _ ho => ?_⟩
  · rw [hf, Function.update_of_ne (h.other hj hg hi hg' hi')]
  · cases ho

/-- One step keeps the account of who writes. -/
theorem step (hR : Counts R V rd) (hopen : σ.Opened V) (hrun : Run (Goes R V W callers) σ as τ)
    (h : Accounted R V W callers σ as τ) {a : TrafficAction} {υ : Traffic} (hstep : Goes R V W callers τ a υ) :
    Accounted R V W callers σ (as ++ [a]) υ := by
  obtain ⟨-, hstep⟩ := hstep
  cases hstep with
  | serves k call refused => exact h.same _ rfl
  | operates operator step => exact h.same _ (writes_operates step operator)
  | @admits k j now m command caller mode onViolation n free admitted =>
    obtain ⟨hnamed, hmay⟩ := admit_ok admitted
    refine h.set _ ?_ (fun g i ho hi => ?_) fun j' g i _ _ _ => ⟨rfl, fun g' ho hi => ?_⟩
    · rintro g ⟨⟩
      exact ⟨as, τ, now, m, command, List.prefix_rfl, hrun, hnamed, rfl, hmay⟩
    · cases ho
      cases hi
    · cases ho
      cases hi
  | @begins j i now id g f held waiting begun =>
    obtain ⟨hfree, w, hf, hget, hbound⟩ := writes_begun (hopen.sound hR hrun) begun
    refine h.set _ ?_ ?_ fun j' g' i' hj hg' hi' => ?_
    · rintro _ ⟨⟩
      exact (h.admitted j g held).later _
    · rintro _ i' ⟨⟩ ⟨⟩
      refine ⟨w, by rw [hf, Function.update_self], as, τ, i, now, g.mode, g.onViolation, id, w.begun.reg, ?_⟩
      exact ⟨List.prefix_rfl, hrun, hget, hbound⟩
    · obtain ⟨w', hw', -⟩ := h.begun j' g' i' hg' hi'
      have hne : i' ≠ i := by
        rintro rfl
        cases hfree.symm.trans hw'
      refine ⟨by rw [hf, Function.update_of_ne hne], ?_⟩
      rintro _ ⟨⟩ ⟨⟩
      exact hne rfl
  | @writes j i rows files g f held begun batches part =>
    have hi : g.stage.write = some i := by rw [begun]; rfl
    obtain ⟨w, w', hw, hloc, hf⟩ := writes_part part
    refine h.set _ ?_ ?_ fun j' g' i' hj hg' hi' => ?_
    · rintro _ ⟨⟩
      exact (h.admitted j g held).later _
    · rintro _ i' ⟨⟩ ⟨⟩
      obtain ⟨w₀, hw₀, hto⟩ := h.begun j g i held hi
      cases hw.symm.trans hw₀
      refine ⟨w', by rw [hf, Function.update_self], ?_⟩
      rw [hloc]
      exact hto.later _
    · have hne := h.other hj held hi hg' hi'
      refine ⟨by rw [hf, Function.update_of_ne hne], ?_⟩
      rintro _ ⟨⟩ ⟨⟩
      exact hne rfl
  | finishes held written finished => exact h.ends _ held (by rw [written]; rfl) (writes_finished finished)
  | drops held begun dropped => exact h.ends _ held begun (writes_dropped dropped)
  | leaves held waiting =>
    refine h.set _ (fun _ ho => by cases ho) (fun _ _ ho => by cases ho) fun _ _ _ _ _ _ => ⟨rfl, fun _ ho => ?_⟩
    cases ho

/-- So does a run. -/
theorem run (hR : Counts R V rd) (h : σ.Opened V) (hrun : Run (Goes R V W callers) σ as τ) :
    Accounted R V W callers σ as τ :=
  hrun.inv_along (I := fun as τ => Accounted R V W callers σ as τ) (opened h)
    fun _ _ _ _ hbs hi hstep => hi.step hR h hbs hstep

end Accounted

end Flight

end Peql
