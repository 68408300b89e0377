import Peql.Engine.Decisions

/-!
# Reads of a table that moves

The facts of a contract's current snapshot pass through a map the engine's calls share: `ensure_manifest` puts them
there, `resolve` takes them, and other reads, validations and writes of the engine put and remove theirs at any time
between. `SharedEngine` is that map, the storage and the calls in flight, and a call takes one step from one of its
awaits to the next. Each call carries the snapshot that was current when it began and those committed since. A read is
of one snapshot, the one it names or one that was current while it ran (`OfOneSnapshot`), in every run in which what is
put in the map or removed while a read is to take its facts from there is of a snapshot that read has seen current
(`Timely`).
-/

namespace Peql

open Effects Runs

/-- Where a call is, between two of its awaits. -/
inductive Moment
  | begun
  /-- With its table loaded, at the snapshot whose facts it wants. -/
  | loaded (s : Int)
  | validating (s : Int)
  /-- With the snapshot validated, and its facts to record. -/
  | recording (s : Int) (m : Manifest)
  /-- With the facts recorded, and whether the table was at the snapshot when it was loaded again. -/
  | recorded (s : Int) (m : Manifest) (current : Bool)
  /-- The contract's manifest has been seen to. -/
  | ensured
  | pinned (m : Manifest)
  | resolved (a : Resolution) (m : Manifest)
  /-- A write has committed a snapshot, and whether it is the table's current one. -/
  | publishing (s : Int) (current : Bool)

/-- A call of the engine over one contract's table. -/
structure DataCall where
  name : String
  table : String
  /-- The caller of a read, and what it asked of rows that break a rule. -/
  reader : Option (Caller × OnReadViolation)
  /-- The snapshot it is to be of, when it names one. -/
  asked : Option Int
  /-- The snapshot that was current when it began. -/
  before : Option Int
  /-- The snapshots committed since. -/
  since : List Int
  moment : Moment

namespace DataCall

/-- A snapshot, or none, was current at some moment of the call. -/
def Saw (call : DataCall) (current : Option Int) : Prop := current = call.before ∨ ∃ s ∈ call.since, current = some s

def goes (call : DataCall) (moment : Moment) : DataCall := { call with moment := moment }

/-- A commit to a table, as the calls over it see it. -/
def sees (call : DataCall) (table : String) (s : Int) : DataCall :=
  if call.table = table then { call with since := call.since ++ [s] } else call

end DataCall

/-- A contract of a statement, read. -/
structure SnapshotRead where
  call : DataCall
  resolution : Resolution
  /-- The facts that decided it. -/
  decidedBy : Manifest
  /-- The table its rows were taken from, and the rows. -/
  metadata : TableMetadata
  rows : Multiset Row

/-- An engine's map of current facts, the storage, and the calls in flight. -/
structure SharedEngine where
  cache : Lookup String Manifest
  storage : Storage
  calls : Nat → Option DataCall
  reads : List SnapshotRead
  /-- The reads refused because nothing was written. -/
  notWritten : List DataCall

inductive EngineAction
  | commits (table : String) (s : TableSnapshot)
  /-- Facts are recorded, or a table is created. -/
  | stores (s : Storage)
  | begins (n : Nat) (name : String) (caller : Caller) (onViolation : OnReadViolation) (asOf : AsOf)
  | validates (n : Nat) (name table : String)
  | publishes (n : Nat) (name table : String) (s : TableSnapshot) (current : Bool)
  | loads (n : Nat)
  | finds (n : Nat) (m : Manifest)
  | misses (n : Nat)
  | decides (n : Nat) (m : Manifest)
  | records (n : Nat)
  | keeps (n : Nat)
  | caches (n : Nat) (found : Option Manifest)
  | resolves (n : Nat)
  | refuses (n : Nat)
  | views (n : Nat)
  /-- A call ends with another error. -/
  | fails (n : Nat)

namespace Storage

/-- The current snapshot of a table. -/
def currentOf (s : Storage) (table : String) : Option Int := (s.tables table).bind fun t => t.metadata.current

/-- A snapshot is committed. -/
def commit (s : Storage) (table : String) (t : IcebergTable) (snapshot : TableSnapshot) : Storage :=
  s.setTable table { t with metadata := t.metadata.push snapshot }

/-- The tables are as they were, except for new ones with no snapshot. -/
def SameTables (s s' : Storage) : Prop :=
  ∀ table, (s'.tables table).map IcebergTable.metadata = (s.tables table).map IcebergTable.metadata ∨
    s.tables table = none ∧ ∃ t, s'.tables table = some t ∧ t.metadata.snapshots = [] ∧ t.metadata.current = none

end Storage

namespace SharedEngine

/-- An engine that has remembered nothing, over some storage. -/
def start (s : Storage) : SharedEngine := ⟨Lookup.empty, s, fun _ => none, [], []⟩

/-- What a call runs on between two awaits. -/
def node (σ : SharedEngine) (e : Engine) : Node := ⟨{ e with icebergManifests := σ.cache }, σ.storage, 0, []⟩

def setCall (σ : SharedEngine) (n : Nat) (call : Option DataCall) : SharedEngine :=
  { σ with calls := Function.update σ.calls n call }

/-- A commit, which every call over the table has then seen. -/
def commit (σ : SharedEngine) (table : String) (t : IcebergTable) (s : TableSnapshot) : SharedEngine :=
  { σ with
    storage := σ.storage.commit table t s
    calls := fun n => (σ.calls n).map fun call => call.sees table s.id }

/-- The snapshot of the facts kept for a contract. -/
def cachedSnapshot (σ : SharedEngine) (name : String) : Option Int := (σ.cache name).bind Manifest.snapshotId

def insert (σ : SharedEngine) (name : String) (m : Manifest) : SharedEngine := { σ with cache := σ.cache.insert name m }

def erase (σ : SharedEngine) (name : String) : SharedEngine := { σ with cache := σ.cache.erase name }

/-- A call has the facts of the snapshot it is about: a read that names it keeps them to itself, another call puts them
in the map when the snapshot is current. -/
def keep (σ : SharedEngine) (n : Nat) (call : DataCall) (m : Manifest) (current : Bool) : SharedEngine :=
  let kept := if current then σ.insert call.name m else σ
  match call.reader, call.asked with
  | none, _ => kept.setCall n none
  | some _, none => kept.setCall n (some (call.goes .ensured))
  | some _, some _ => kept.setCall n (some (call.goes (.pinned m)))

/-- A write is done with a contract of its snapshot: the facts it found are kept when they are current, and what was
kept is removed when it found none. -/
def publish (σ : SharedEngine) (n : Nat) (call : DataCall) (found : Option Manifest) (current : Bool) : SharedEngine :=
  match found with
  | some m => σ.keep n call m current
  | none => (σ.erase call.name).setCall n none

end SharedEngine

section Steps

variable (R : Runtime) (e : Engine)

/-- The steps of an engine's calls over Iceberg-bound contracts, and of other engines' commits. -/
inductive EngineStep : SharedEngine → EngineAction → SharedEngine → Prop
  | commits {σ : SharedEngine} {table : String} {t : IcebergTable} (ht : σ.storage.tables table = some t)
      (s : TableSnapshot) : EngineStep σ (.commits table s) (σ.commit table t s)
  | stores {σ : SharedEngine} {s : Storage} (hs : σ.storage.SameTables s) :
      EngineStep σ (.stores s) { σ with storage := s }
  | begins {σ : SharedEngine} {n : Nat} {name table : String} {caller : Caller} {reg : Registered}
      (hn : σ.calls n = none) (hreg : e.visible name caller = .ok reg)
      (hbound : e.bound reg = .ok (.files (.iceberg table))) (onViolation : OnReadViolation) (asOf : AsOf) :
      EngineStep σ (.begins n name caller onViolation asOf)
        (σ.setCall n (some ⟨name, table, some (caller, onViolation), (asOf.lookup name).or (e.frozen.lookup name),
          σ.storage.currentOf table, [], .begun⟩))
  | validates {σ : SharedEngine} {n : Nat} {name table : String} (hn : σ.calls n = none) :
      EngineStep σ (.validates n name table)
        (σ.setCall n (some ⟨name, table, none, none, σ.storage.currentOf table, [], .begun⟩))
  | publishes {σ : SharedEngine} {n : Nat} {name table : String} {t : IcebergTable} (hn : σ.calls n = none)
      (ht : σ.storage.tables table = some t) (s : TableSnapshot) (current : Bool) :
      EngineStep σ (.publishes n name table s current)
        ((σ.commit table t s).setCall n (some ⟨name, table, none, none, some s.id, [], .publishing s.id current⟩))
  | loadsNone {σ : SharedEngine} {n : Nat} {call : DataCall} (hn : σ.calls n = some call) (hm : call.moment = .begun)
      (hasked : call.asked = none) (hreader : call.reader.isSome) (hcur : σ.storage.currentOf call.table = none) :
      EngineStep σ (.loads n) ((σ.erase call.name).setCall n (some (call.goes .ensured)))
  | loadsCurrent {σ : SharedEngine} {n : Nat} {call : DataCall} {s : Int} (hn : σ.calls n = some call)
      (hm : call.moment = .begun) (hasked : call.asked = none) (hcur : σ.storage.currentOf call.table = some s) :
      EngineStep σ (.loads n)
        (σ.setCall n (some (call.goes (if call.reader.isSome then .loaded s else .validating s))))
  | loadsAsked {σ : SharedEngine} {n : Nat} {call : DataCall} {s : Int} {t : IcebergTable}
      (hn : σ.calls n = some call) (hm : call.moment = .begun) (hasked : call.asked = some s)
      (ht : σ.storage.tables call.table = some t) (hs : (t.metadata.snapshotById s).isSome) :
      EngineStep σ (.loads n) (σ.setCall n (some (call.goes (.loaded s))))
  /-- `iceberg_facts` gives facts of the snapshot it is called for. -/
  | finds {σ : SharedEngine} {n : Nat} {call : DataCall} {s : Int} {m : Manifest} (hn : σ.calls n = some call)
      (hm : call.moment = .loaded s) (hs : m.snapshotId = some s) :
      EngineStep σ (.finds n m) (σ.keep n call m call.asked.isNone)
  | misses {σ : SharedEngine} {n : Nat} {call : DataCall} {s : Int} (hn : σ.calls n = some call)
      (hm : call.moment = .loaded s) : EngineStep σ (.misses n) (σ.setCall n (some (call.goes (.validating s))))
  | decides {σ : SharedEngine} {n : Nat} {call : DataCall} {s : Int} (hn : σ.calls n = some call)
      (hm : call.moment = .validating s) (c : Compilation) (verdict : Verdict) (files : List FileEntry)
      (writtenAt decidedAt : Int) :
      EngineStep σ (.decides n (wholeManifest R.sha256 c verdict files writtenAt decidedAt (some s)))
        (σ.setCall n (some (call.goes
          (.recording s (wholeManifest R.sha256 c verdict files writtenAt decidedAt (some s))))))
  | records {σ : SharedEngine} {n : Nat} {call : DataCall} {s : Int} {m : Manifest} (hn : σ.calls n = some call)
      (hm : call.moment = .recording s m) :
      EngineStep σ (.records n)
        (σ.setCall n (some (call.goes (.recorded s m (σ.storage.currentOf call.table = some s)))))
  | keeps {σ : SharedEngine} {n : Nat} {call : DataCall} {s : Int} {m : Manifest} {current : Bool}
      (hn : σ.calls n = some call) (hm : call.moment = .recorded s m current) :
      EngineStep σ (.keeps n) (σ.keep n call m current)
  | caches {σ : SharedEngine} {n : Nat} {call : DataCall} {s : Int} {current : Bool} {found : Option Manifest}
      (hn : σ.calls n = some call) (hm : call.moment = .publishing s current)
      (hs : ∀ m, found = some m → m.snapshotId = some s) :
      EngineStep σ (.caches n found) (σ.publish n call found current)
  | resolvesCached {σ : SharedEngine} {n : Nat} {call : DataCall} {caller : Caller} {onViolation : OnReadViolation}
      {a : Resolution} {m : Manifest} (hn : σ.calls n = some call) (hm : call.moment = .ensured)
      (hreader : call.reader = some (caller, onViolation))
      (hr : Effects.outcome (resolve R call.name caller onViolation) (σ.node e) = .ok (a, m)) :
      EngineStep σ (.resolves n) (σ.setCall n (some (call.goes (.resolved a m))))
  | resolvesPinned {σ : SharedEngine} {n : Nat} {call : DataCall} {caller : Caller} {onViolation : OnReadViolation}
      {a : Resolution} {m m' : Manifest} (hn : σ.calls n = some call) (hm : call.moment = .pinned m)
      (hreader : call.reader = some (caller, onViolation))
      (hr : Effects.outcome (resolveWith R call.name caller onViolation (pure (some m))) (σ.node e) = .ok (a, m')) :
      EngineStep σ (.resolves n) (σ.setCall n (some (call.goes (.resolved a m'))))
  | refuses {σ : SharedEngine} {n : Nat} {call : DataCall} {caller : Caller} {onViolation : OnReadViolation}
      {name : String} (hn : σ.calls n = some call) (hm : call.moment = .ensured)
      (hreader : call.reader = some (caller, onViolation))
      (hnone : Effects.outcome (manifest call.name) (σ.node e) = .ok none)
      (hr : Effects.outcome (resolve R call.name caller onViolation) (σ.node e) = .error (.notWritten name)) :
      EngineStep σ (.refuses n) { σ.setCall n none with notWritten := call :: σ.notWritten }
  | views {σ : SharedEngine} {n : Nat} {call : DataCall} {caller : Caller} {onViolation : OnReadViolation}
      {a : Resolution} {m : Manifest} {t : IcebergTable} {plan : Plan} {rows : Multiset Row}
      (hn : σ.calls n = some call) (hm : call.moment = .resolved a m)
      (hreader : call.reader = some (caller, onViolation)) (ht : σ.storage.tables call.table = some t)
      (hr : Effects.outcome (contractViewFor R call.name caller a) (σ.node e) = .ok (plan, rows)) :
      EngineStep σ (.views n)
        { σ.setCall n none with reads := ⟨call, a, m, t.metadata, rows⟩ :: σ.reads }
  | fails {σ : SharedEngine} (n : Nat) : EngineStep σ (.fails n) (σ.setCall n none)

end Steps

/-! ## What holds of a read -/

variable {R : Runtime} {e : Engine}

/-- The rows, the facts and the resolution of a read are of one snapshot: the one it names, or one that was current at
some moment of it. -/
def OfOneSnapshot (e : Engine) (r : SnapshotRead) : Prop :=
  ∃ s reg, e.get r.call.name = .ok reg ∧ r.decidedBy.snapshotId = some s ∧ r.resolution.snapshotId = some s ∧
    r.resolution.excluded = broken reg.compilation.contract.flags r.decidedBy.failures ∧
    r.metadata.provider r.call.table reg.compilation.contract r.resolution.flagsMaterialised s = .ok r.rows ∧
    match r.call.asked with
    | some asked => s = asked
    | none => r.call.Saw (some s)

/-- Every read is of one snapshot, and none is refused as not written of a table that had a snapshot when it began. -/
structure Current (e : Engine) (σ : SharedEngine) : Prop where
  reads : ∀ r ∈ σ.reads, OfOneSnapshot e r
  notWritten : ∀ call ∈ σ.notWritten, call.before = none

/-- What every other read that is to take its facts of a contract from the map has seen current. -/
def SharedEngine.Admits (σ : SharedEngine) (n : Nat) (name : String) (current : Option Int) : Prop :=
  ∀ k call, k ≠ n → σ.calls k = some call → call.name = name → call.moment = .ensured → call.Saw current

/-- What is put in the map, or removed, is of a snapshot the reads about to take their facts from it have seen current;
and a read that validated its snapshot finds the table still at it, or facts in the map of one it has seen current. -/
def Timely (σ : SharedEngine) : EngineAction → Prop
  | .loads n => ∀ call, σ.calls n = some call → call.moment = .begun → call.reader.isSome → call.asked = none →
      σ.storage.currentOf call.table = none → σ.Admits n call.name none
  | .finds n _ => ∀ call s, σ.calls n = some call → call.moment = .loaded s → call.asked = none →
      σ.Admits n call.name (some s)
  | .keeps n => ∀ call s m current, σ.calls n = some call → call.moment = .recorded s m current →
      (current = true → σ.Admits n call.name (some s)) ∧
      (current = false → call.reader.isSome → call.asked = none → call.Saw (σ.cachedSnapshot call.name))
  | .caches n found => ∀ call s current, σ.calls n = some call → call.moment = .publishing s current →
      (∀ m, found = some m → current = true → σ.Admits n call.name (some s)) ∧
      (found = none → σ.Admits n call.name none)
  | _ => True

/-! ## What a step keeps -/

namespace DataCall

/-- A snapshot is the one a call is about. -/
def About (call : DataCall) (s : Int) : Prop :=
  match call.asked with
  | some asked => s = asked
  | none => call.Saw (some s)

/-- What a call has, at each of its moments. -/
def Sound (e : Engine) (cached : Option Int) (call : DataCall) : Prop :=
  match call.moment with
  | .begun => True
  | .loaded s | .validating s => call.About s
  | .recording s m | .recorded s m _ => call.About s ∧ m.snapshotId = some s
  | .ensured => call.asked = none ∧ call.Saw cached
  | .pinned m => ∃ s, m.snapshotId = some s ∧ call.asked = some s
  | .resolved a m => ∃ s reg, e.get call.name = .ok reg ∧ m.snapshotId = some s ∧ a.snapshotId = some s ∧
      a.excluded = broken reg.compilation.contract.flags m.failures ∧ call.About s
  | .publishing _ _ => call.reader = none

end DataCall

/-- What every run keeps. -/
structure Watched (e : Engine) (σ : SharedEngine) : Prop where
  current : Current e σ
  labelled : ∀ name m, σ.cache name = some m → ∃ s, m.snapshotId = some s
  sees : ∀ n call, σ.calls n = some call → call.Saw (σ.storage.currentOf call.table)
  bound : ∀ n call, σ.calls n = some call → call.reader.isSome →
    ∃ reg, e.get call.name = .ok reg ∧ e.bound reg = .ok (.files (.iceberg call.table))
  sound : ∀ n call, σ.calls n = some call → call.Sound e (σ.cachedSnapshot call.name)

theorem get_of_visible {name : String} {caller : Caller} {reg : Registered} (h : e.visible name caller = .ok reg) :
    e.get name = .ok reg := by
  unfold Engine.visible at h
  unfold Engine.get
  cases hc : e.store.current name with
  | none => simp [hc] at h
  | some r =>
    simp only [hc] at h ⊢
    split at h
    · exact h
    · cases h

/-! ### What a call has, as the table and the map change -/

namespace DataCall

variable {call : DataCall} {current : Option Int}

/-- A call that saw a snapshot current saw it still. -/
theorem Saw.sees (h : call.Saw current) (table : String) (s : Int) : (call.sees table s).Saw current := by
  unfold DataCall.sees
  split
  · rcases h with h | ⟨x, hx, h⟩
    · exact .inl h
    · exact .inr ⟨x, List.mem_append_left _ hx, h⟩
  · exact h

theorem sees_moment (call : DataCall) (table : String) (s : Int) : (call.sees table s).moment = call.moment := by
  unfold DataCall.sees
  split <;> rfl

theorem sees_name (call : DataCall) (table : String) (s : Int) : (call.sees table s).name = call.name := by
  unfold DataCall.sees
  split <;> rfl

theorem sees_table (call : DataCall) (table : String) (s : Int) : (call.sees table s).table = call.table := by
  unfold DataCall.sees
  split <;> rfl

theorem sees_reader (call : DataCall) (table : String) (s : Int) : (call.sees table s).reader = call.reader := by
  unfold DataCall.sees
  split <;> rfl

theorem sees_asked (call : DataCall) (table : String) (s : Int) : (call.sees table s).asked = call.asked := by
  unfold DataCall.sees
  split <;> rfl

/-- It is about the snapshot it was about. -/
theorem About.sees {x : Int} (h : call.About x) (table : String) (s : Int) : (call.sees table s).About x := by
  unfold About at h ⊢
  rw [sees_asked]
  cases hasked : call.asked with
  | some asked => simpa [hasked] using h
  | none =>
    simp only [hasked] at h ⊢
    exact h.sees table s

/-- A commit leaves it sound. -/
theorem Sound.sees {cached : Option Int} (h : call.Sound e cached) (table : String) (s : Int) :
    (call.sees table s).Sound e cached := by
  unfold Sound at h ⊢
  rw [sees_moment, sees_name, sees_reader, sees_asked]
  cases hm : call.moment with
  | begun => trivial
  | loaded x =>
    simp only [hm] at h ⊢
    exact h.sees table s
  | validating x =>
    simp only [hm] at h ⊢
    exact h.sees table s
  | recording x m =>
    simp only [hm] at h ⊢
    exact ⟨h.1.sees table s, h.2⟩
  | recorded x m current =>
    simp only [hm] at h ⊢
    exact ⟨h.1.sees table s, h.2⟩
  | ensured =>
    simp only [hm] at h ⊢
    exact ⟨h.1, h.2.sees table s⟩
  | pinned m => simpa [hm] using h
  | resolved a m =>
    simp only [hm] at h ⊢
    obtain ⟨x, reg, hreg, hmx, hax, hex, habout⟩ := h
    exact ⟨x, reg, hreg, hmx, hax, hex, habout.sees table s⟩
  | publishing x current =>
    simp only [hm] at h ⊢
    exact h

/-- The map matters to a read that is to take its facts from it. -/
theorem Sound.recache {cached cached' : Option Int} (h : call.Sound e cached)
    (hensured : call.moment = .ensured → call.Saw cached') : call.Sound e cached' := by
  unfold Sound at h ⊢
  cases hm : call.moment with
  | ensured =>
    simp only [hm] at h ⊢
    exact ⟨h.1, hensured hm⟩
  | begun => trivial
  | _ => simpa [hm] using h

end DataCall

namespace Watched

variable {σ : SharedEngine}

/-- A call takes a step, with what it puts in the map. -/
theorem write (h : Watched e σ) (n : Nat) (cache : Lookup String Manifest) (call' : Option DataCall)
    (hlabel : ∀ name m, cache name = some m → ∃ s, m.snapshotId = some s)
    (hothers : ∀ k call, k ≠ n → σ.calls k = some call → call.moment = .ensured →
      call.Saw ((cache call.name).bind Manifest.snapshotId))
    (hsees : ∀ call, call' = some call → call.Saw (σ.storage.currentOf call.table))
    (hbound : ∀ call, call' = some call → call.reader.isSome →
      ∃ reg, e.get call.name = .ok reg ∧ e.bound reg = .ok (.files (.iceberg call.table)))
    (hsound : ∀ call, call' = some call → call.Sound e ((cache call.name).bind Manifest.snapshotId)) :
    Watched e ({ σ with cache := cache }.setCall n call') where
  current := ⟨h.current.reads, h.current.notWritten⟩
  labelled := hlabel
  sees k call hk := by
    by_cases hkn : k = n
    · subst hkn
      exact hsees call (by simpa [SharedEngine.setCall] using hk)
    · exact h.sees k call (by simpa [SharedEngine.setCall, Function.update_of_ne hkn] using hk)
  bound k call hk := by
    by_cases hkn : k = n
    · subst hkn
      exact hbound call (by simpa [SharedEngine.setCall] using hk)
    · exact h.bound k call (by simpa [SharedEngine.setCall, Function.update_of_ne hkn] using hk)
  sound k call hk := by
    by_cases hkn : k = n
    · subst hkn
      exact hsound call (by simpa [SharedEngine.setCall] using hk)
    · have hcall : σ.calls k = some call := by simpa [SharedEngine.setCall, Function.update_of_ne hkn] using hk
      exact (h.sound k call hcall).recache fun hm => hothers k call hkn hcall hm

/-- A call takes a step that leaves the map. -/
theorem setCall (h : Watched e σ) (n : Nat) (call' : Option DataCall)
    (hsees : ∀ call, call' = some call → call.Saw (σ.storage.currentOf call.table))
    (hbound : ∀ call, call' = some call → call.reader.isSome →
      ∃ reg, e.get call.name = .ok reg ∧ e.bound reg = .ok (.files (.iceberg call.table)))
    (hsound : ∀ call, call' = some call → call.Sound e (σ.cachedSnapshot call.name)) :
    Watched e (σ.setCall n call') := by
  refine h.write n σ.cache call' h.labelled (fun k call _ hk hm => ?_) hsees hbound hsound
  have hs := h.sound k call hk
  unfold DataCall.Sound at hs
  simp only [hm] at hs
  exact hs.2

/-- A call ends. -/
theorem ends (h : Watched e σ) (n : Nat) : Watched e (σ.setCall n none) :=
  h.setCall n none (fun _ hc => nomatch hc) (fun _ hc => nomatch hc) fun _ hc => nomatch hc

/-- A call in flight goes on to its next moment. -/
theorem goes (h : Watched e σ) {n : Nat} {call : DataCall} (hn : σ.calls n = some call) (moment : Moment)
    (hsound : (call.goes moment).Sound e (σ.cachedSnapshot call.name)) :
    Watched e (σ.setCall n (some (call.goes moment))) := by
  refine h.setCall n _ (fun call' hc => ?_) (fun call' hc => ?_) fun call' hc => ?_
  · cases hc
    exact h.sees n call hn
  · cases hc
    exact h.bound n call hn
  · cases hc
    exact hsound

/-- A change of the map at one name is seen by the reads about to take their facts there. -/
theorem others (h : Watched e σ) {n : Nat} {name : String} {cache : Lookup String Manifest}
    (hsame : ∀ x, x ≠ name → cache x = σ.cache x) (hadmits : σ.Admits n name ((cache name).bind Manifest.snapshotId)) :
    ∀ k call, k ≠ n → σ.calls k = some call → call.moment = .ensured →
      call.Saw ((cache call.name).bind Manifest.snapshotId) := by
  intro k call hkn hk hm
  by_cases hname : call.name = name
  · rw [hname]
    exact hadmits k call hkn hk hname hm
  · rw [hsame _ hname]
    have hs := h.sound k call hk
    unfold DataCall.Sound at hs
    simp only [hm] at hs
    exact hs.2

/-- A call over the facts of a snapshot puts them in the map when they are current, and goes on. -/
theorem keep (h : Watched e σ) {n : Nat} {call : DataCall} {s : Int} {m : Manifest} {current : Bool}
    (hn : σ.calls n = some call) (hs : m.snapshotId = some s) (habout : call.reader.isSome → call.About s)
    (hadmits : current = true → σ.Admits n call.name (some s))
    (hown : current = false → call.reader.isSome → call.asked = none → call.Saw (σ.cachedSnapshot call.name)) :
    Watched e (σ.keep n call m current) := by
  -- The map the call leaves, and what the calls find in it.
  have hput : ∀ call', (∀ c, call' = some c → ∃ moment, c = call.goes moment) →
      (∀ c, call' = some c → c.Sound e ((if current then σ.insert call.name m else σ).cachedSnapshot call.name)) →
      Watched e ((if current then σ.insert call.name m else σ).setCall n call') := by
    intro call' hgoes hsound
    have hsees : ∀ c, call' = some c → c.Saw (σ.storage.currentOf c.table) := by
      intro c hc
      obtain ⟨moment, rfl⟩ := hgoes c hc
      exact h.sees n call hn
    have hbound : ∀ c, call' = some c → c.reader.isSome →
        ∃ reg, e.get c.name = .ok reg ∧ e.bound reg = .ok (.files (.iceberg c.table)) := by
      intro c hc
      obtain ⟨moment, rfl⟩ := hgoes c hc
      exact h.bound n call hn
    have hsound' : ∀ c, call' = some c →
        c.Sound e ((if current then σ.insert call.name m else σ).cachedSnapshot c.name) := by
      intro c hc
      obtain ⟨moment, rfl⟩ := hgoes c hc
      exact hsound _ hc
    cases hcur : current with
    | false =>
      simp only [hcur] at hsound' ⊢
      exact h.setCall n call' hsees hbound hsound'
    | true =>
      simp only [hcur, if_true] at hsound' ⊢
      refine h.write n (σ.cache.insert call.name m) call' (fun name m' hm' => ?_) ?_ hsees hbound hsound'
      · rw [Lookup.insert_apply] at hm'
        split at hm'
        · cases hm'
          exact ⟨s, hs⟩
        · exact h.labelled name m' hm'
      · refine h.others (fun x hx => Lookup.insert_of_ne _ _ hx) ?_
        rw [Lookup.insert_self, Option.bind_some, hs]
        exact hadmits hcur
  unfold SharedEngine.keep
  cases hreader : call.reader with
  | none => exact hput none (fun _ hc => nomatch hc) fun _ hc => nomatch hc
  | some reader =>
    have hsome : call.reader.isSome := by rw [hreader]; rfl
    have habout' := habout hsome
    unfold DataCall.About at habout'
    cases hasked : call.asked with
    | some asked =>
      simp only [hasked] at habout'
      refine hput (some (call.goes (.pinned m))) (fun c hc => ⟨_, (Option.some.inj hc).symm⟩) fun c hc => ?_
      cases hc
      exact ⟨s, hs, habout' ▸ hasked⟩
    | none =>
      simp only [hasked] at habout'
      refine hput (some (call.goes .ensured)) (fun c hc => ⟨_, (Option.some.inj hc).symm⟩) fun c hc => ?_
      cases hc
      refine ⟨hasked, ?_⟩
      cases hcur : current with
      | true =>
        have hcached : (σ.insert call.name m).cachedSnapshot call.name = some s := by
          simp [SharedEngine.cachedSnapshot, SharedEngine.insert, hs]
        show call.Saw ((σ.insert call.name m).cachedSnapshot call.name)
        rw [hcached]
        exact habout'
      | false => exact hown hcur hsome hasked

/-- A call removes the facts of its contract from the map, and ends or goes on. -/
theorem erase (h : Watched e σ) {n : Nat} {call : DataCall} (hn : σ.calls n = some call)
    (hadmits : σ.Admits n call.name none) {call' : Option DataCall}
    (hgoes : ∀ c, call' = some c → c = call.goes .ensured ∧ call.asked = none ∧ call.Saw none) :
    Watched e ((σ.erase call.name).setCall n call') := by
  refine h.write n (σ.cache.erase call.name) call' (fun name m hm => ?_) ?_ (fun c hc => ?_) (fun c hc => ?_)
    fun c hc => ?_
  · by_cases hname : name = call.name
    · rw [hname, Lookup.erase_self] at hm
      cases hm
    · rw [Lookup.erase_of_ne _ hname] at hm
      exact h.labelled name m hm
  · refine h.others (fun x hx => Lookup.erase_of_ne _ hx) ?_
    rw [Lookup.erase_self]
    exact hadmits
  · obtain ⟨rfl, _⟩ := hgoes c hc
    exact h.sees n call hn
  · obtain ⟨rfl, _⟩ := hgoes c hc
    exact h.bound n call hn
  · obtain ⟨rfl, hasked, hsaw⟩ := hgoes c hc
    have hnone : (σ.cache.erase call.name) call.name = none := Lookup.erase_self _ _
    refine ⟨hasked, ?_⟩
    show call.Saw (((σ.cache.erase call.name) call.name).bind Manifest.snapshotId)
    rw [hnone]
    exact hsaw

/-- A commit is seen by every call over its table. -/
theorem commit (h : Watched e σ) {table : String} {t : IcebergTable} (s : TableSnapshot) :
    Watched e (σ.commit table t s) where
  current := ⟨h.current.reads, h.current.notWritten⟩
  labelled := h.labelled
  sees n call hn := by
    obtain ⟨call', hn', rfl⟩ := Option.map_eq_some_iff.1 hn
    rw [DataCall.sees_table]
    by_cases ht : call'.table = table
    · have hcur : (σ.commit table t s).storage.currentOf call'.table = some s.id := by
        simp [SharedEngine.commit, Storage.commit, Storage.currentOf, Storage.setTable, ht, TableMetadata.push]
      rw [hcur]
      refine .inr ⟨s.id, ?_, rfl⟩
      simp [DataCall.sees, ht]
    · have hcur : (σ.commit table t s).storage.currentOf call'.table = σ.storage.currentOf call'.table := by
        simp [SharedEngine.commit, Storage.commit, Storage.currentOf, Storage.setTable, Function.update_of_ne ht]
      rw [hcur]
      exact (h.sees n call' hn').sees table s.id
  bound n call hn hreader := by
    obtain ⟨call', hn', rfl⟩ := Option.map_eq_some_iff.1 hn
    rw [DataCall.sees_reader] at hreader
    rw [DataCall.sees_name, DataCall.sees_table]
    exact h.bound n call' hn' hreader
  sound n call hn := by
    obtain ⟨call', hn', rfl⟩ := Option.map_eq_some_iff.1 hn
    rw [DataCall.sees_name]
    exact (h.sound n call' hn').sees table s.id

/-- Facts recorded, and tables created, leave every table's current snapshot. -/
theorem stores (h : Watched e σ) {s : Storage} (hs : σ.storage.SameTables s) : Watched e { σ with storage := s } where
  current := ⟨h.current.reads, h.current.notWritten⟩
  labelled := h.labelled
  sees n call hn := by
    have hcur : s.currentOf call.table = σ.storage.currentOf call.table := by
      unfold Storage.currentOf
      rcases hs call.table with hsame | ⟨hnone, t, ht, _, hcurrent⟩
      · cases hx : s.tables call.table with
        | none =>
          rw [hx] at hsame
          rw [Option.map_eq_none_iff.1 hsame.symm]
        | some t =>
          rw [hx] at hsame
          obtain ⟨t', ht', hmeta⟩ := Option.map_eq_some_iff.1 hsame.symm
          simp only [ht', Option.bind_some, hmeta]
      · rw [hnone, ht]
        exact hcurrent
    have hsees := h.sees n call hn
    rw [← hcur] at hsees
    exact hsees
  bound := h.bound
  sound := h.sound

end Watched

/-! ### What a call is given -/

/-- A read admitted is resolved by the manifest it is given. -/
theorem resolveWith_ok {name : String} {caller : Caller} {onViolation : OnReadViolation}
    {manifest : Ask (Option Manifest)} {n : Node} {a : Resolution} {m : Manifest}
    (hm : ∀ r t, manifest n = .ok r t → t.engine = n.engine)
    (h : Effects.outcome (resolveWith R name caller onViolation manifest) n = .ok (a, m)) :
    ∃ reg t, n.engine.visible name caller = .ok reg ∧ manifest n = .ok (some m) t ∧
      ResolvedBy n.engine reg onViolation m a := by
  obtain ⟨t, h⟩ := Effects.outcome_eq_ok.1 h
  unfold resolveWith at h
  obtain ⟨reg, hreg, h⟩ := Ask.engine_bind_ok.1 h
  obtain ⟨_, _, h⟩ := Effects.ofExcept_bind_ok.1 h
  obtain ⟨rule, _, h⟩ := Effects.ofExcept_bind_ok.1 h
  cases rule with
  | some rule => cases h
  | none =>
    obtain ⟨found, u, hfound, h⟩ := Effects.bind_eq_ok.1 h
    cases found with
    | none => cases h
    | some m' =>
      obtain ⟨a', ha, h⟩ := Ask.engine_bind_ok.1 h
      cases h
      rw [hm _ _ hfound] at ha
      exact ⟨reg, _, hreg, hfound, resolution_ok ha⟩

/-- The manifest of a contract bound to an Iceberg table is the one in the map. -/
theorem manifest_iceberg {name table : String} {n : Node} {reg : Registered} {r : Option Manifest} {t : Node}
    (hreg : n.engine.get name = .ok reg) (hbound : n.engine.bound reg = .ok (.files (.iceberg table)))
    (h : manifest name n = .ok r t) : r = n.engine.icebergManifests name ∧ t.engine = n.engine := by
  unfold manifest at h
  obtain ⟨reg', hreg', h⟩ := Ask.engine_bind_ok.1 h
  obtain rfl : reg = reg' := Except.ok.inj (hreg.symm.trans hreg')
  obtain ⟨b, hb, h⟩ := Ask.engine_bind_ok.1 h
  obtain rfl : Bound.files (.iceberg table) = b := Except.ok.inj (hbound.symm.trans hb)
  cases h
  exact ⟨rfl, rfl⟩

/-- The rows of a view over an Iceberg table are those of the snapshot it was resolved for. -/
theorem contractViewFor_iceberg {name table : String} {caller : Caller} {n : Node} {reg : Registered} {a : Resolution}
    {plan : Plan} {rows : Multiset Row} {t : IcebergTable} {s : Int} (hreg : n.engine.get name = .ok reg)
    (hbound : n.engine.bound reg = .ok (.files (.iceberg table))) (ht : n.storage.tables table = some t)
    (hs : a.snapshotId = some s) (h : Effects.outcome (contractViewFor R name caller a) n = .ok (plan, rows)) :
    t.metadata.provider table reg.compilation.contract a.flagsMaterialised s = .ok rows := by
  obtain ⟨u, h⟩ := Effects.outcome_eq_ok.1 h
  unfold contractViewFor at h
  obtain ⟨reg', hreg', h⟩ := Ask.engine_bind_ok.1 h
  obtain rfl : reg = reg' := Except.ok.inj (hreg.symm.trans (get_of_visible hreg'))
  obtain ⟨rows', v, hrows, h⟩ := Effects.bind_eq_ok.1 h
  obtain ⟨params, _, h⟩ := Effects.ofExcept_bind_ok.1 h
  cases h
  unfold viewedRows at hrows
  obtain ⟨b, hb, hrows⟩ := Ask.engine_bind_ok.1 hrows
  obtain rfl : Bound.files (.iceberg table) = b := Except.ok.inj (hbound.symm.trans hb)
  obtain ⟨⟨t', s'⟩, w, hsnap, hrows⟩ := Effects.bind_eq_ok.1 hrows
  unfold icebergSnapshot loadTable at hsnap
  obtain ⟨found, hfound, hsnap⟩ := Ask.storage_bind_ok.1 hsnap
  rw [ht] at hfound
  cases hfound
  simp only [Option.map_some, hs] at hsnap
  split at hsnap
  · cases hsnap
  · cases hsnap
    exact (Effects.ofExcept_eq_ok.1 hrows).1

namespace Watched

variable {σ : SharedEngine}

/-- One step of any call, or a commit, when what is put in the map is timely. -/
theorem step {σ' : SharedEngine} {act : EngineAction} (h : Watched e σ) (htimely : Timely σ act)
    (hstep : EngineStep R e σ act σ') : Watched e σ' := by
  cases hstep with
  | commits ht s => exact h.commit s
  | stores hs => exact h.stores hs
  | @begins n name table caller reg hn hreg hbound onViolation asOf =>
    refine h.setCall n _ (fun call hc => ?_) (fun call hc _ => ?_) fun call hc => ?_
    · cases hc
      exact .inl rfl
    · cases hc
      exact ⟨reg, get_of_visible hreg, hbound⟩
    · cases hc
      trivial
  | @validates n name table hn =>
    refine h.setCall n _ (fun call hc => ?_) (fun call hc hreader => ?_) fun call hc => ?_
    · cases hc
      exact .inl rfl
    · cases hc
      cases hreader
    · cases hc
      trivial
  | @publishes n name table t hn ht s current =>
    refine (h.commit s).setCall n _ (fun call hc => ?_) (fun call hc hreader => ?_) fun call hc => ?_
    · cases hc
      refine .inl ?_
      simp [SharedEngine.commit, Storage.commit, Storage.currentOf, Storage.setTable, TableMetadata.push]
    · cases hc
      cases hreader
    · cases hc
      rfl
  | @loadsNone n call hn hm hasked hreader hcur =>
    have hsaw : call.Saw none := by
      have hs := h.sees n call hn
      rwa [hcur] at hs
    refine h.erase hn (htimely call hn hm hreader hasked hcur) fun c hc => ?_
    cases hc
    exact ⟨rfl, hasked, hsaw⟩
  | @loadsCurrent n call s hn hm hasked hcur =>
    refine h.goes hn _ ?_
    have habout : call.About s := by
      unfold DataCall.About
      rw [hasked]
      have hs := h.sees n call hn
      rwa [hcur] at hs
    cases hr : call.reader.isSome with
    | true => exact habout
    | false => exact habout
  | @loadsAsked n call s t hn hm hasked ht hs =>
    refine h.goes hn _ ?_
    show call.About s
    unfold DataCall.About
    rw [hasked]
  | @finds n call s m hn hm hs =>
    have hsound := h.sound n call hn
    unfold DataCall.Sound at hsound
    simp only [hm] at hsound
    refine h.keep hn hs (fun _ => hsound) (fun hcur => ?_) fun hcur _ hasked => ?_
    · exact htimely call s hn hm (Option.isNone_iff_eq_none.1 hcur)
    · rw [hasked] at hcur
      cases hcur
  | @misses n call s hn hm =>
    have hsound := h.sound n call hn
    unfold DataCall.Sound at hsound
    simp only [hm] at hsound
    exact h.goes hn _ hsound
  | @decides n call s hn hm c verdict files writtenAt decidedAt =>
    have hsound := h.sound n call hn
    unfold DataCall.Sound at hsound
    simp only [hm] at hsound
    exact h.goes hn _ ⟨hsound, rfl⟩
  | @records n call s m hn hm =>
    have hsound := h.sound n call hn
    unfold DataCall.Sound at hsound
    simp only [hm] at hsound
    exact h.goes hn _ hsound
  | @keeps n call s m current hn hm =>
    have hsound := h.sound n call hn
    unfold DataCall.Sound at hsound
    simp only [hm] at hsound
    obtain ⟨hput, hown⟩ := htimely call s m current hn hm
    exact h.keep hn hsound.2 (fun _ => hsound.1) hput hown
  | @caches n call s current found hn hm hs =>
    have hsound := h.sound n call hn
    unfold DataCall.Sound at hsound
    simp only [hm] at hsound
    obtain ⟨hput, herase⟩ := htimely call s current hn hm
    cases found with
    | none => exact h.erase hn (herase rfl) fun c hc => by cases hc
    | some m =>
      have hno : call.reader.isSome → False := by
        rw [hsound]
        exact fun hr => by cases hr
      exact h.keep hn (hs m rfl) (fun hr => (hno hr).elim) (hput m rfl) fun _ hr => (hno hr).elim
  | @resolvesCached n call caller onViolation a m hn hm hreader hr =>
    have hsound := h.sound n call hn
    unfold DataCall.Sound at hsound
    simp only [hm] at hsound
    obtain ⟨hasked, hsaw⟩ := hsound
    obtain ⟨reg, hreg, hbound⟩ := h.bound n call hn (by rw [hreader]; rfl)
    obtain ⟨reg', t, hreg', hman, hres⟩ := resolveWith_ok (fun r t ht => (manifest_iceberg hreg hbound ht).2) hr
    obtain rfl : reg = reg' := Except.ok.inj (hreg.symm.trans (get_of_visible hreg'))
    have hcached : σ.cache call.name = some m := (manifest_iceberg hreg hbound hman).1.symm
    obtain ⟨s, hs⟩ := h.labelled call.name m hcached
    have hsaw' : call.Saw (some s) := by
      unfold SharedEngine.cachedSnapshot at hsaw
      rwa [hcached, Option.bind_some, hs] at hsaw
    refine h.goes hn _ ⟨s, reg, hreg, hs, hres.snapshotId.trans hs, hres.excluded, ?_⟩
    unfold DataCall.About
    show match call.asked with
      | some asked => s = asked
      | none => call.Saw (some s)
    rw [hasked]
    exact hsaw'
  | @resolvesPinned n call caller onViolation a m m' hn hm hreader hr =>
    have hsound := h.sound n call hn
    unfold DataCall.Sound at hsound
    simp only [hm] at hsound
    obtain ⟨s, hs, hasked⟩ := hsound
    obtain ⟨reg, t, hreg, hman, hres⟩ := resolveWith_ok (fun r t ht => by cases ht; rfl) hr
    obtain rfl : m = m' := by
      cases hman
      rfl
    refine h.goes hn _ ⟨s, reg, get_of_visible hreg, hs, hres.snapshotId.trans hs, hres.excluded, ?_⟩
    unfold DataCall.About
    show match call.asked with
      | some asked => s = asked
      | none => call.Saw (some s)
    rw [hasked]
  | @refuses n call caller onViolation name hn hm hreader hnone hr =>
    have hsound := h.sound n call hn
    unfold DataCall.Sound at hsound
    simp only [hm] at hsound
    obtain ⟨reg, hreg, hbound⟩ := h.bound n call hn (by rw [hreader]; rfl)
    obtain ⟨t, hman⟩ := Effects.outcome_eq_ok.1 hnone
    have hcached : σ.cachedSnapshot call.name = none := by
      unfold SharedEngine.cachedSnapshot
      rw [show σ.cache call.name = none from (manifest_iceberg hreg hbound hman).1.symm]
      rfl
    have hbefore : call.before = none := by
      obtain ⟨_, hsaw⟩ := hsound
      rw [hcached] at hsaw
      rcases hsaw with hsaw | ⟨s, _, hsaw⟩
      · exact hsaw.symm
      · cases hsaw
    have hends := h.ends n
    refine ⟨⟨hends.current.reads, fun c hc => ?_⟩, hends.labelled, hends.sees, hends.bound, hends.sound⟩
    rcases List.mem_cons.1 hc with rfl | hc
    · exact hbefore
    · exact h.current.notWritten c hc
  | @views n call caller onViolation a m t plan rows hn hm hreader ht hr =>
    have hsound := h.sound n call hn
    unfold DataCall.Sound at hsound
    simp only [hm] at hsound
    obtain ⟨s, reg, hreg, hms, has, hex, habout⟩ := hsound
    obtain ⟨reg', hreg', hbound⟩ := h.bound n call hn (by rw [hreader]; rfl)
    obtain rfl : reg = reg' := Except.ok.inj (hreg.symm.trans hreg')
    have hrows := contractViewFor_iceberg hreg hbound ht has hr
    have hends := h.ends n
    refine ⟨⟨fun r hr => ?_, hends.current.notWritten⟩, hends.labelled, hends.sees, hends.bound, hends.sound⟩
    rcases List.mem_cons.1 hr with rfl | hr
    · exact ⟨s, reg, hreg, hms, has, hex, hrows, habout⟩
    · exact h.current.reads r hr
  | fails n => exact h.ends n

/-- Before any call there is nothing to watch. -/
theorem start (e : Engine) (s : Storage) : Watched e (.start s) where
  current := ⟨(fun _ hr => nomatch hr), fun _ hc => nomatch hc⟩
  labelled _ _ hm := nomatch hm
  sees _ _ hc := nomatch hc
  bound _ _ hc := nomatch hc
  sound _ _ hc := nomatch hc

end Watched

/-- A read is of one snapshot, and of a past one when it names it, in every run in which what is put in the engine's
map of current facts is timely. -/
theorem current_of_timely {s : Storage} {σ : SharedEngine} {as : List EngineAction}
    (h : Run (Guarded Timely (EngineStep R e)) (.start s) as σ) : Current e σ :=
  (h.inv_of_all (I := Watched e) (fun _ _ _ hσ htimely hstep => hσ.step htimely hstep) (.start e s)).current

/-! ## A table of two appends -/

/-- An engine with the amounts bound to an Iceberg table. -/
def amountsEngine : Engine := freshEngine (Contents.empty.put ⟨amountContract⟩) fun _ => some (.iceberg "amounts")

def firstAppend : TableSnapshot := ⟨1, none, some 0, some "w1", ["amount", "_flag_positive"], [storedAmount "a" 1]⟩

def secondAppend : TableSnapshot :=
  ⟨2, some 1, some 1, some "w2", ["amount", "_flag_positive"], [storedAmount "a" 1, storedAmount "b" (-2)]⟩

def amountsTable (snapshots : List TableSnapshot) (current : Int) : IcebergTable :=
  ⟨⟨snapshots, some current, ["amount", "_flag_positive"]⟩, fun _ _ => .absent, fun _ _ => .absent⟩

/-- What a validation of one of the snapshots finds. -/
def amountsFacts (s : TableSnapshot) : Manifest :=
  wholeManifest amountsRuntime.sha256 amountContract (validateAmounts (storedRows s.files))
    (s.files.map fun f => f.entryFor amountContract.contract) 2 2 (some s.id)

/-- What a read of one of the snapshots is resolved to. -/
def amountsResolution (s : TableSnapshot) : Resolution where
  contract := "acme/amounts"
  version := 1
  contractHash := "c1"
  compilationHash := "h1"
  decisions := []
  annotations := []
  shapes := []
  flagsMaterialised := (amountsFacts s).flagsCurrent "c1"
  snapshotId := some s.id
  excluded := broken amountContract.contract.flags (amountsFacts s).failures

abbrev AmountsStep : SharedEngine → EngineAction → SharedEngine → Prop := EngineStep amountsRuntime amountsEngine

def amountsReader : Caller := ⟨"ann", "acme", "", []⟩

def readsAmounts (n : Nat) : EngineAction := .begins n "acme/amounts" amountsReader .exclude []

/-- A read resolves by the facts in the map. -/
theorem resolves_amounts {σ : SharedEngine} {s : TableSnapshot} (hs : s = firstAppend ∨ s = secondAppend)
    (hcache : σ.cache "acme/amounts" = some (amountsFacts s)) :
    Effects.outcome (resolve amountsRuntime "acme/amounts" amountsReader .exclude) (σ.node amountsEngine) =
      .ok (amountsResolution s, amountsFacts s) := by
  have hman : manifest "acme/amounts" (σ.node amountsEngine) = .ok (some (amountsFacts s))
      { σ.node amountsEngine with touched := [.manifestRead "acme/amounts"] } :=
    Ask.engine_bind_ok.2 ⟨⟨amountContract⟩, rfl, Ask.engine_bind_ok.2 ⟨.files (.iceberg "amounts"), rfl,
      Effects.bind_eq_ok.2 ⟨⟨⟩, _, rfl, Ask.engine_eq_ok.2 ⟨congrArg Except.ok hcache, rfl⟩⟩⟩⟩
  have hres : ∀ e' : Engine, e' = { amountsEngine with icebergManifests := σ.cache } →
      resolution amountsRuntime e' ⟨amountContract⟩ amountsReader .exclude (amountsFacts s) =
        .ok (amountsResolution s) := by
    rintro _ rfl
    rcases hs with rfl | rfl <;> rfl
  exact Effects.outcome_eq_ok.2 ⟨_, Ask.engine_bind_ok.2 ⟨⟨amountContract⟩, rfl, Effects.ofExcept_bind_ok.2 ⟨(), rfl,
    Effects.ofExcept_bind_ok.2 ⟨none, rfl, Effects.bind_eq_ok.2 ⟨some (amountsFacts s), _, hman,
      Ask.engine_bind_ok.2 ⟨amountsResolution s, hres _ rfl, rfl⟩⟩⟩⟩⟩⟩

/-- It is given the view of the snapshot they are of. -/
theorem views_amounts {σ : SharedEngine} {s : TableSnapshot} (hs : s = firstAppend ∨ s = secondAppend)
    {snapshots : List TableSnapshot} {current : Int}
    (htable : σ.storage.tables "amounts" = some (amountsTable snapshots current))
    (hsnap : (amountsTable snapshots current).metadata.snapshotById s.id = some s) :
    ∃ plan, Effects.outcome (contractViewFor amountsRuntime "acme/amounts" amountsReader (amountsResolution s))
      (σ.node amountsEngine) = .ok (plan, providedRows amountContract.contract (amountsResolution s).flagsMaterialised
        s.files) := by
  have hfound : ((σ.node amountsEngine).storage.tables "amounts").map IcebergTable.metadata =
      some (amountsTable snapshots current).metadata := congrArg _ htable
  have hat : icebergSnapshot "amounts" "acme/amounts" (amountsResolution s).snapshotId (σ.node amountsEngine) =
      .ok ((amountsTable snapshots current).metadata, s.id) (σ.node amountsEngine) := by
    refine Ask.storage_bind_ok.2 ⟨_, congrArg Except.ok hfound, ?_⟩
    show (if ((amountsTable snapshots current).metadata.snapshotById s.id).isNone then
      (throw (.invalid _) : Ask (TableMetadata × Int)) else pure _) (σ.node amountsEngine) = _
    rw [hsnap]
    rfl
  have hrows : (amountsTable snapshots current).metadata.provider "amounts" amountContract.contract
      (amountsResolution s).flagsMaterialised s.id = .ok (providedRows amountContract.contract
        (amountsResolution s).flagsMaterialised s.files) := by
    unfold TableMetadata.provider
    rw [hsnap]
    rcases hs with rfl | rfl <;> rfl
  exact ⟨_, Effects.outcome_eq_ok.2 ⟨_, Ask.engine_bind_ok.2 ⟨⟨amountContract⟩, rfl, Effects.bind_eq_ok.2
    ⟨_, _, Ask.engine_bind_ok.2 ⟨.files (.iceberg "amounts"), rfl, Effects.bind_eq_ok.2
      ⟨_, _, hat, Effects.ofExcept_eq_ok.2 ⟨hrows, rfl⟩⟩⟩, Effects.ofExcept_bind_ok.2 ⟨[], rfl, rfl⟩⟩⟩⟩⟩

/-- The amounts, one append committed. -/
def oneAppend : SharedEngine := .start (emptyStorage.setTable "amounts" (amountsTable [firstAppend] 1))

/-- A read that has seen to the facts of a snapshot goes on to its end. -/
theorem amounts_answered {σ : SharedEngine} {n : Nat} {call : DataCall} {s : TableSnapshot}
    (hs : s = firstAppend ∨ s = secondAppend) (hn : σ.calls n = some call) (hm : call.moment = .ensured)
    (hname : call.name = "acme/amounts") (hreader : call.reader = some (amountsReader, .exclude))
    (htable : call.table = "amounts") (hcache : σ.cache "acme/amounts" = some (amountsFacts s))
    {snapshots : List TableSnapshot} {current : Int}
    (hstored : σ.storage.tables "amounts" = some (amountsTable snapshots current))
    (hsnap : (amountsTable snapshots current).metadata.snapshotById s.id = some s) :
    ∃ τ σ', AmountsStep σ (.resolves n) τ ∧ AmountsStep τ (.views n) σ' ∧ ∃ r ∈ σ'.reads,
      r.call.before = call.before ∧ r.call.since = call.since ∧ r.call.asked = call.asked ∧
      r.resolution.snapshotId = some s.id := by
  have hr := resolves_amounts hs hcache
  rw [← hname] at hr
  obtain ⟨plan, hv⟩ :=
      views_amounts (σ := σ.setCall n (some (call.goes (.resolved (amountsResolution s) (amountsFacts s)))))
    hs hstored hsnap
  rw [← hname] at hv
  have hcall : ∀ call', (σ.setCall n (some call')).calls n = some call' := by
    intro call'
    simp [SharedEngine.setCall]
  have htable' : σ.storage.tables call.table = some (amountsTable snapshots current) := by rw [htable, hstored]
  exact ⟨_, _, .resolvesCached hn hm hreader hr, .views (hcall _) rfl hreader htable' hv, _, List.mem_cons_self,
    rfl, rfl,
    rfl, rfl⟩

def readAcrossAppend : List EngineAction :=
  [readsAmounts 0, .loads 0, .publishes 2 "acme/amounts" "amounts" secondAppend true,
    .caches 2 (some (amountsFacts secondAppend)), readsAmounts 1, .finds 0 (amountsFacts firstAppend)]

/-- A read of the snapshot it found: meanwhile a write commits another and another read begins. -/
theorem current_of_timely_amounts : ∃ as σ, Run (Guarded Timely AmountsStep) oneAppend as σ ∧
    readAcrossAppend <+: as ∧
    (∃ r ∈ σ.reads, r.resolution.snapshotId = some 1) ∧ Current amountsEngine σ := by
  have hloads : ∀ σ : SharedEngine, (∀ call, σ.calls 0 = some call → σ.storage.currentOf call.table = some 1) →
      Timely σ (.loads 0) := by
    intro σ hcur call hcall _ _ _ hnone
    rw [hcur call hcall] at hnone
    cases hnone
  -- No call is about to take its facts when the two are put in the map.
  have hadmits : ∀ (σ : SharedEngine) (n : Nat) (name : String) (s : Option Int),
      (∀ k call, k ≠ n → σ.calls k = some call → call.moment ≠ .ensured) → σ.Admits n name s := by
    intro σ n name s hnone k call hk hcall _ hm
    exact absurd hm (hnone k call hk hcall)
  have hcaches : ∀ (σ : SharedEngine) (found : Option Manifest),
      (∀ k call, k ≠ 2 → σ.calls k = some call → call.moment ≠ .ensured) → Timely σ (.caches 2 found) := by
    intro σ found hnone call s _ _ _
    exact ⟨fun _ _ _ => hadmits σ 2 _ _ hnone, fun _ => hadmits σ 2 _ _ hnone⟩
  have hfinds : ∀ (σ : SharedEngine) (m : Manifest),
      (∀ k call, k ≠ 0 → σ.calls k = some call → call.moment ≠ .ensured) → Timely σ (.finds 0 m) := by
    intro σ m hnone call s _ _ _
    exact hadmits σ 0 _ _ hnone
  obtain ⟨σ, call, hrun, hcall, hm, hname, hreader, htable, hcache, hstored⟩ : ∃ σ call,
      Run (Guarded Timely AmountsStep) oneAppend readAcrossAppend σ ∧
        σ.calls 0 = some call ∧ call.moment = .ensured ∧ call.name = "acme/amounts" ∧
        call.reader = some (amountsReader, .exclude) ∧ call.table = "amounts" ∧
        σ.cache "acme/amounts" = some (amountsFacts firstAppend) ∧
        σ.storage.tables "amounts" = some (amountsTable [firstAppend, secondAppend] 2) := by
    refine ⟨_, _, .cons ⟨trivial, .begins rfl rfl rfl _ _⟩ (.cons ⟨hloads _ ?_, .loadsCurrent rfl rfl rfl rfl⟩
      (.cons ⟨trivial, .publishes rfl rfl _ _⟩ (.cons ⟨hcaches _ _ ?_, .caches rfl rfl ?_⟩
        (.cons ⟨trivial, .begins rfl rfl rfl _ _⟩ (.cons ⟨hfinds _ _ ?_, .finds rfl rfl rfl⟩ (.nil _)))))),
      rfl, rfl, rfl, rfl, rfl, rfl, rfl⟩
    · intro call hc
      cases hc
      rfl
    · intro k call hk hcall
      by_cases h0 : k = 0
      · subst h0
        cases hcall
        exact nofun
      · simp [SharedEngine.setCall, SharedEngine.commit, oneAppend, SharedEngine.start, Function.update_of_ne h0,
          Function.update_of_ne hk] at hcall
    · intro m hm
      cases hm
      rfl
    · intro k call hk hcall
      by_cases h1 : k = 1
      · subst h1
        cases hcall
        exact nofun
      · simp [SharedEngine.publish, SharedEngine.keep, SharedEngine.insert, SharedEngine.setCall, SharedEngine.commit,
          oneAppend, SharedEngine.start, Function.update, hk, h1] at hcall
  obtain ⟨τ, σ', hres, hview, r, hr, _, _, _, hsnap⟩ :=
    amounts_answered (.inl rfl) hcall hm hname hreader htable hcache hstored rfl
  have hresolves : Timely σ (.resolves 0) := trivial
  have hviews : Timely τ (.views 0) := trivial
  have hrun' := (hrun.snoc ⟨hresolves, hres⟩).snoc ⟨hviews, hview⟩
  refine ⟨_, σ', hrun', ?_, ⟨r, hr, hsnap⟩, current_of_timely hrun'⟩
  exact (List.prefix_append _ _).trans (List.prefix_append _ _)

/-- A read begun after the second append is finished is answered from the first, which an earlier read puts in the map
between its two uses of it. -/
theorem past_read_unasked : ∃ σ, Run AmountsStep oneAppend
      [readsAmounts 0, .loads 0, .publishes 2 "acme/amounts" "amounts" secondAppend true,
        .caches 2 (some (amountsFacts secondAppend)), readsAmounts 1, .loads 1,
        .finds 1 (amountsFacts secondAppend), .finds 0 (amountsFacts firstAppend), .resolves 1, .views 1] σ ∧
    (∃ r ∈ σ.reads, r.call.before = some 2 ∧ r.call.since = [] ∧ r.resolution.snapshotId = some 1) ∧
    ¬ Current amountsEngine σ := by
  obtain ⟨σ, call, hrun, hcall, hm, hname, hreader, htable, hasked, hbefore, hsince, hcache, hstored⟩ : ∃ σ call,
      Run AmountsStep oneAppend [readsAmounts 0, .loads 0, .publishes 2 "acme/amounts" "amounts" secondAppend true,
          .caches 2 (some (amountsFacts secondAppend)), readsAmounts 1, .loads 1,
          .finds 1 (amountsFacts secondAppend), .finds 0 (amountsFacts firstAppend)] σ ∧
        σ.calls 1 = some call ∧ call.moment = .ensured ∧ call.name = "acme/amounts" ∧
        call.reader = some (amountsReader, .exclude) ∧ call.table = "amounts" ∧
        call.asked = none ∧ call.before = some 2 ∧ call.since = [] ∧
        σ.cache "acme/amounts" = some (amountsFacts firstAppend) ∧
        σ.storage.tables "amounts" = some (amountsTable [firstAppend, secondAppend] 2) := by
    refine ⟨_, _, .cons (.begins rfl rfl rfl _ _) (.cons (.loadsCurrent rfl rfl rfl rfl) (.cons (.publishes rfl rfl _ _)
      (.cons (.caches rfl rfl ?_) (.cons (.begins rfl rfl rfl _ _) (.cons (.loadsCurrent rfl rfl rfl rfl)
        (.cons (.finds rfl rfl rfl) (.cons (.finds rfl rfl rfl) (.nil _)))))))),
      rfl, rfl, rfl, rfl, rfl, rfl, rfl, rfl, rfl, rfl⟩
    intro m hm
    cases hm
    rfl
  obtain ⟨τ, σ', hresolves, hviews, r, hr, hrb, hrs, hra, hsnap⟩ :=
    amounts_answered (.inl rfl) hcall hm hname hreader htable hcache hstored rfl
  refine ⟨σ', (hrun.snoc hresolves).snoc hviews, ⟨r, hr, hrb.trans hbefore, hrs.trans hsince, hsnap⟩,
    fun hcurrent => ?_⟩
  obtain ⟨s, _, _, _, hs, _, _, habout⟩ := hcurrent.reads r hr
  obtain rfl : (1 : Int) = s := Option.some.inj (hsnap.symm.trans hs)
  rw [hra, hasked] at habout
  rcases habout with h | ⟨x, hx, _⟩
  · rw [hrb, hbefore] at h
    exact absurd h (by decide)
  · rw [hrs, hsince] at hx
    cases hx

end Peql
