import Peql.Iceberg.Rows

/-!
# What a write reports

`Engine::finish_write` of a write to an Iceberg table: the calls of the store before the commit (`storeCalls`), the
calls of the catalog, the temporary manifest list of an overwrite or a rewrite, which is deleted when the crate's commit
has ended however it ended, and the facts of the committed snapshot, whose failures are only logged. Any of these calls
may fail, and other writers move the table between any two.

A write reports its commit truly in every run in which no such list fails to be deleted after a commit the catalog
took, and in no other (`reported_iff_cleared`).
-/

namespace Peql

/-- The snapshot a write committed, and the one before it. -/
structure SnapshotCommit where
  snapshotId : Int
  parentSnapshotId : Option Int
deriving DecidableEq

/-- A call of the store a write makes before it commits. -/
inductive StoreCall
  /-- The rows written are validated under a contract. -/
  | validates (contract : String)
  | savesFacts (contract : String)
  /-- A file's footer is read. -/
  | reads (path : String)
  | uploads (path : String)
deriving DecidableEq

/-- `finish_write` up to the commit, and `IcebergWrite::commit` up to its kind of commit: staged files are uploaded. -/
def IcebergWrite.storeCalls (w : IcebergWrite) (bound : List String) (staged : Bool) : List StoreCall :=
  bound.map .validates ++ bound.map .savesFacts ++ w.files.map (fun f => .reads f.path) ++
    if staged then w.files.map fun f => .uploads f.path else []

/-- Where `finish_write` is. -/
inductive Status
  /-- Calls of the store are left to make, and then those of the catalog. -/
  | committing (left : List StoreCall) (bound : List String)
  /-- The crate's commit has ended, and the temporary manifest list is to be deleted. -/
  | clearing (bound : List String)
  /-- `IcebergWrite::commit` returned, and the facts of contracts are left to record. -/
  | recording (commit : SnapshotCommit) (left : List String)
  | returned (r : Except PeqlError SnapshotCommit)

/-- A temporary manifest list was written for the attempt: an overwrite and a rewrite have one over a snapshot. -/
def Phase.listed (w : IcebergWrite) : Phase → Bool
  | .forged base _ | .producing base _ => w.kind ≠ .append && base.current.isSome
  | _ => false

/-- The write that a call of the catalog is of. -/
def Action.writer : Action → Option Nat
  | begins n | loads n | commits n | conflicts n | fails n => some n
  | evolves | others => none

/-- A table with its writers, and where each write is. -/
structure Finishing where
  world : World
  status : Lookup Nat Status

namespace Finishing

/-- Write `n` goes on to `st`, over `world`. -/
def put (s : Finishing) (world : World) (n : Nat) (st : Status) : Finishing := ⟨world, s.status.insert n st⟩

end Finishing

inductive FinishAction
  | begins (n : Nat) | stores (n : Nat) | storeFails (n : Nat)
  /-- A call of the catalog. -/
  | calls (n : Nat)
  | listFails (n : Nat) | clears (n : Nat) | clearFails (n : Nat)
  | returns (n : Nat) | gives (n : Nat) | records (n : Nat) | finishes (n : Nat)
  | elsewhere

/-- One call of the store or of the catalog, or one that returns. -/
inductive FinishStep : Finishing → FinishAction → Finishing → Prop
  | begins {s : Finishing} {n : Nat} {w : IcebergWrite} (bound : List String) (staged : Bool)
      (fresh : s.world.writers n = none) (hw : w.Begins s.world.table) :
      FinishStep s (.begins n)
        (s.put (s.world.put n w .written) n (.committing (w.storeCalls bound staged) bound))
  | stores {s : Finishing} {n : Nat} {call : StoreCall} {left : List StoreCall} {bound : List String}
      (holds : s.status n = some (.committing (call :: left) bound)) :
      FinishStep s (.stores n) (s.put s.world n (.committing left bound))
  | storeFails {s : Finishing} {n : Nat} {call : StoreCall} {left : List StoreCall} {bound : List String}
      {w : IcebergWrite} {p : Phase} (e : PeqlError) (holds : s.status n = some (.committing (call :: left) bound))
      (write : s.world.writers n = some ⟨w, p⟩) (going : p.done = false) :
      FinishStep s (.storeFails n) (s.put (s.world.put n w (.failed e)) n (.returned (.error e)))
  -- The catalog takes a commit only once every call of the store before it is made.
  | calls {s : Finishing} {n : Nat} {left : List StoreCall} {bound : List String} {a : Action} {world : World}
      {w : IcebergWrite} {p p' : Phase} (holds : s.status n = some (.committing left bound)) (own : a.writer = some n)
      (before : s.world.writers n = some ⟨w, p⟩) (step : Step s.world a world) (after : world.writers n = some ⟨w, p'⟩)
      (stored : a = .commits n → left = []) :
      FinishStep s (.calls n)
        (s.put world n (if p.listed w && !p'.listed w then .clearing bound else .committing left bound))
  | listFails {s : Finishing} {n : Nat} {left : List StoreCall} {bound : List String} {w : IcebergWrite} {p : Phase}
      (e : PeqlError) (holds : s.status n = some (.committing left bound)) (write : s.world.writers n = some ⟨w, p⟩)
      (going : p.done = false) :
      FinishStep s (.listFails n) (s.put (s.world.put n w (.failed e)) n (.returned (.error e)))
  | clears {s : Finishing} {n : Nat} {bound : List String} (holds : s.status n = some (.clearing bound)) :
      FinishStep s (.clears n) (s.put s.world n (.committing [] bound))
  | clearFails {s : Finishing} {n : Nat} {bound : List String} (e : PeqlError)
      (holds : s.status n = some (.clearing bound)) :
      FinishStep s (.clearFails n) (s.put s.world n (.returned (.error e)))
  | returns {s : Finishing} {n : Nat} {bound : List String} {w : IcebergWrite} {id : Int} {snapshot : Snapshot}
      (holds : s.status n = some (.committing [] bound)) (write : s.world.writers n = some ⟨w, .committed id⟩)
      (found : s.world.table.snapshotById id = some snapshot) :
      FinishStep s (.returns n) (s.put s.world n (.recording ⟨id, snapshot.parent⟩ bound))
  | gives {s : Finishing} {n : Nat} {left : List StoreCall} {bound : List String} {w : IcebergWrite} {e : PeqlError}
      (holds : s.status n = some (.committing left bound)) (write : s.world.writers n = some ⟨w, .failed e⟩) :
      FinishStep s (.gives n) (s.put s.world n (.returned (.error e)))
  -- Facts that cannot be computed or recorded stay unrecorded.
  | records {s : Finishing} {n : Nat} {commit : SnapshotCommit} {contract : String} {left : List String}
      (_facts : Except PeqlError (Option Manifest)) (holds : s.status n = some (.recording commit (contract :: left))) :
      FinishStep s (.records n) (s.put s.world n (.recording commit left))
  | finishes {s : Finishing} {n : Nat} {commit : SnapshotCommit} (holds : s.status n = some (.recording commit [])) :
      FinishStep s (.finishes n) (s.put s.world n (.returned (.ok commit)))
  | elsewhere {s : Finishing} {a : Action} {world : World} (other : a.writer = none) (step : Step s.world a world) :
      FinishStep s .elsewhere ⟨world, s.status⟩

/-! ## What is reported -/

/-- The snapshots of a table's history that write `n` committed. -/
def World.snapshotsOf (s : World) (n : Nat) : List Snapshot :=
  s.table.snapshots.filter fun t => s.log.any fun c => c.writer = some n && c.snapshot = t.id

/-- An error says that no snapshot of the write is in the table's history; a commit, that exactly one is, with its id
and its parent. -/
def World.Reports (s : World) (n : Nat) : Except PeqlError SnapshotCommit → Prop
  | .error _ => s.snapshotsOf n = []
  | .ok commit => ∃ snapshot, s.snapshotsOf n = [snapshot] ∧ snapshot.id = commit.snapshotId ∧
      snapshot.parent = commit.parentSnapshotId

namespace Finishing

/-- `IcebergWrite::commit` of write `n` has returned `r`, or `finish_write` has. -/
def Said (s : Finishing) (n : Nat) (r : Except PeqlError SnapshotCommit) : Prop :=
  s.status n = some (.returned r) ∨ ∃ commit left, s.status n = some (.recording commit left) ∧ r = .ok commit

end Finishing

/-- The temporary list of an attempt that did not commit may fail to be deleted; that of one that did may not. -/
def Cleared (s : Finishing) : FinishAction → Prop
  | .clearFails n => ∀ w id, s.world.writers n ≠ some ⟨w, .committed id⟩
  | _ => True

/-! ## Steps of the table -/

namespace Step

variable {s t : World} {a : Action}

/-- A step leaves the writes it is not of. -/
theorem writers_of_ne (h : Step s a t) {n : Nat} (hn : a.writer ≠ some n) : t.writers n = s.writers n := by
  have hne : ∀ {m : Nat}, some m ≠ some n → n ≠ m := fun hm heq => hm (congrArg some heq.symm)
  cases h with
  | begins fresh hw => exact World.put_of_ne _ _ _ (hne hn)
  | loads holds hp => exact World.put_of_ne _ _ _ (hne hn)
  | commits holds freshId freshPath taken => exact World.put_of_ne _ _ _ (hne hn)
  | conflicts why holds refused => exact World.put_of_ne _ _ _ (hne hn)
  | fails e holds going => exact World.put_of_ne _ _ _ (hne hn)
  | evolves schema => rfl
  | others hs => rfl

theorem snapshotById_push {table : Metadata} {id : Int} {snapshot : Snapshot}
    (h : table.snapshotById id = some snapshot)
    (new : Snapshot) : (table.push new).snapshotById id = some snapshot := by
  unfold Metadata.snapshotById at h ⊢
  rw [Metadata.push_snapshots, List.find?_append, h]
  rfl

/-- A snapshot of the history stays. -/
theorem found (h : Step s a t) {id : Int} {snapshot : Snapshot} (hs : s.table.snapshotById id = some snapshot) :
    t.table.snapshotById id = some snapshot := by
  cases h with
  | begins fresh hw => exact hs
  | loads holds hp => exact hs
  | commits holds freshId freshPath taken =>
    obtain ⟨_, rfl⟩ := updateTable_eq taken
    exact snapshotById_push hs _
  | conflicts why holds refused => exact hs
  | fails e holds going => exact hs
  | evolves schema => exact hs
  | others hs' => exact snapshotById_push hs _

/-- What the log says was committed is in the history. -/
theorem logged (h : Step s a t) (hs : ∀ c ∈ s.log, ∃ snapshot, s.table.snapshotById c.snapshot = some snapshot) :
    ∀ c ∈ t.log, ∃ snapshot, t.table.snapshotById c.snapshot = some snapshot := by
  have hold : ∀ c ∈ s.log, ∃ snapshot, t.table.snapshotById c.snapshot = some snapshot := by
    intro c hc
    obtain ⟨snapshot, hfound⟩ := hs c hc
    exact ⟨snapshot, h.found hfound⟩
  have hnew : ∀ {table : Metadata} (new : Snapshot),
      ∃ snapshot, (table.push new).snapshotById new.id = some snapshot := by
    intro table new
    cases hf : (table.push new).snapshotById new.id with
    | some snapshot => exact ⟨snapshot, rfl⟩
    | none =>
      have hnone :=
          List.find?_eq_none.1 hf new (by rw [Metadata.push_snapshots]; exact List.mem_append_right _ (by simp))
      simp at hnone
  cases h with
  | begins fresh hw => exact hold
  | loads holds hp => exact hold
  | @commits n w base table r id path holds freshId freshPath taken =>
    obtain ⟨_, rfl⟩ := updateTable_eq taken
    intro c hc
    rcases List.mem_append.1 hc with hc | hc
    · exact hold c hc
    · obtain rfl := List.mem_singleton.1 hc
      exact hnew (fastAppend base id path w.files w.summary)
  | conflicts why holds refused => exact hold
  | fails e holds going => exact hold
  | evolves schema => exact hold
  | @others snap hs' =>
    intro c hc
    rcases List.mem_append.1 hc with hc | hc
    · exact hold c hc
    · obtain rfl := List.mem_singleton.1 hc
      exact hnew snap

end Step

/-! ## Steps of the writes -/

/-- The write a step is of. -/
def FinishAction.writer : FinishAction → Option Nat
  | begins n | stores n | storeFails n | calls n | listFails n | clears n | clearFails n | returns n
      | gives n | records n
  | finishes n => some n
  | elsewhere => none

/-- Where a write is agrees with the table. -/
def Status.Right (world : World) (n : Nat) : Status → Prop
  | committing _ _ | clearing _ => True
  | recording commit _ | returned (.ok commit) => ∃ w snapshot,
      world.writers n = some ⟨w, .committed commit.snapshotId⟩ ∧
        world.table.snapshotById commit.snapshotId = some snapshot ∧ snapshot.parent = commit.parentSnapshotId
  | returned (.error _) => ∀ w id, world.writers n ≠ some ⟨w, .committed id⟩

/-- What holds of a table and its log, whatever the writes say. -/
structure Based (start : Metadata) (s : Finishing) : Prop where
  inv : Inv start s.world
  found : ∀ c ∈ s.world.log, ∃ snapshot, s.world.table.snapshotById c.snapshot = some snapshot

theorem Status.Right.grown {world world' : World} {n : Nat} {st : Status} (h : st.Right world n)
    (hwriters : world'.writers n = world.writers n)
    (hfound : ∀ id snapshot, world.table.snapshotById id = some snapshot →
      world'.table.snapshotById id = some snapshot) : st.Right world' n := by
  have htold : ∀ commit : SnapshotCommit, (∃ w snapshot, world.writers n = some ⟨w, .committed commit.snapshotId⟩ ∧
      world.table.snapshotById commit.snapshotId = some snapshot ∧ snapshot.parent = commit.parentSnapshotId) →
        ∃ w snapshot, world'.writers n = some ⟨w, .committed commit.snapshotId⟩ ∧
          world'.table.snapshotById commit.snapshotId = some snapshot ∧ snapshot.parent = commit.parentSnapshotId := by
    rintro commit ⟨w, snapshot, hw, hs, hparent⟩
    exact ⟨w, snapshot, hwriters.trans hw, hfound _ _ hs, hparent⟩
  cases st with
  | committing left bound => exact trivial
  | clearing bound => exact trivial
  | recording commit left => exact htold commit h
  | returned r =>
    cases r with
    | ok commit => exact htold commit h
    | error e =>
      intro w id hw
      exact h w id (hwriters.symm.trans hw)

namespace FinishStep

variable {s t : Finishing} {a : FinishAction}

/-- A step leaves the status of the writes it is not of, and is at most one step of the table, of the same write. -/
theorem acts (h : FinishStep s a t) :
    (∀ m, a.writer ≠ some m → t.status m = s.status m) ∧
      (t.world = s.world ∨ ∃ b, Step s.world b t.world ∧ ∀ m, a.writer ≠ some m → b.writer ≠ some m) := by
  have hput : ∀ {n : Nat} (st : Status) (m : Nat), some n ≠ some m → s.status.insert n st m = s.status m := by
    intro n st m hm
    exact Lookup.insert_of_ne _ _ fun heq => hm (congrArg some heq.symm)
  cases h with
  | begins bound staged fresh hw => exact ⟨hput _, .inr ⟨_, .begins fresh hw, fun m hm => hm⟩⟩
  | stores holds => exact ⟨hput _, .inl rfl⟩
  | storeFails e holds write going => exact ⟨hput _, .inr ⟨_, .fails e write going, fun m hm => hm⟩⟩
  | calls holds own before step after stored =>
    refine ⟨hput _, .inr ⟨_, step, fun m hm => ?_⟩⟩
    rw [own]
    exact hm
  | listFails e holds write going => exact ⟨hput _, .inr ⟨_, .fails e write going, fun m hm => hm⟩⟩
  | clears holds => exact ⟨hput _, .inl rfl⟩
  | clearFails e holds => exact ⟨hput _, .inl rfl⟩
  | returns holds write found => exact ⟨hput _, .inl rfl⟩
  | gives holds write => exact ⟨hput _, .inl rfl⟩
  | records facts holds => exact ⟨hput _, .inl rfl⟩
  | finishes holds => exact ⟨hput _, .inl rfl⟩
  | elsewhere other step =>
    refine ⟨fun _ _ => rfl, .inr ⟨_, step, fun m _ => ?_⟩⟩
    rw [other]
    exact nofun

theorem based {start : Metadata} (h : FinishStep s a t) (hs : Based start s) : Based start t := by
  rcases h.acts.2 with hworld | ⟨b, hstep, _⟩
  · constructor
    · rw [hworld]
      exact hs.inv
    · rw [hworld]
      exact hs.found
  · exact ⟨hs.inv.step hstep, hstep.logged hs.found⟩

/-- A write that the step is not of stays as right as it was. -/
theorem right_of_ne (h : FinishStep s a t) {m : Nat} (hm : a.writer ≠ some m) {st : Status}
    (hst : st.Right s.world m) : st.Right t.world m := by
  rcases h.acts.2 with hworld | ⟨b, hstep, hb⟩
  · rwa [hworld]
  · exact hst.grown (hstep.writers_of_ne (hb m hm)) fun _ _ => hstep.found

/-- Each step that does not leave a list of a committed attempt keeps every write's status right. -/
theorem right (h : FinishStep s a t) (hc : Cleared s a) (hs : ∀ m st, s.status m = some st → st.Right s.world m) :
    ∀ m st, t.status m = some st → st.Right t.world m := by
  intro m st hst
  by_cases hm : a.writer = some m
  · -- What the acting write's new status says is what the step was taken on.
    have hself : ∀ {world : World} {st' : Status}, t = s.put world m st' → st' = st := by
      rintro world st' rfl
      exact Option.some.inj ((Lookup.insert_self s.status m st').symm.trans hst)
    cases h with
    | begins bound staged fresh hw =>
      obtain rfl := Option.some.inj hm
      obtain rfl := hself rfl
      exact trivial
    | stores holds =>
      obtain rfl := Option.some.inj hm
      obtain rfl := hself rfl
      exact trivial
    | @storeFails n call left bound w p e holds write going =>
      obtain rfl := Option.some.inj hm
      obtain rfl := hself rfl
      intro w' id hw'
      cases (World.put_self s.world n w (.failed e)).symm.trans hw'
    | calls holds own before step after stored =>
      obtain rfl := Option.some.inj hm
      obtain rfl := hself rfl
      split <;> exact trivial
    | @listFails n left bound w p e holds write going =>
      obtain rfl := Option.some.inj hm
      obtain rfl := hself rfl
      intro w' id hw'
      cases (World.put_self s.world n w (.failed e)).symm.trans hw'
    | clears holds =>
      obtain rfl := Option.some.inj hm
      obtain rfl := hself rfl
      exact trivial
    | clearFails e holds =>
      obtain rfl := Option.some.inj hm
      obtain rfl := hself rfl
      exact hc
    | @returns n bound w id snapshot holds write found =>
      obtain rfl := Option.some.inj hm
      obtain rfl := hself rfl
      exact ⟨w, snapshot, write, found, rfl⟩
    | @gives n left bound w e holds write =>
      obtain rfl := Option.some.inj hm
      obtain rfl := hself rfl
      intro w' id hw'
      cases write.symm.trans hw'
    | records facts holds =>
      obtain rfl := Option.some.inj hm
      obtain rfl := hself rfl
      have hright := hs _ _ holds
      exact hright
    | finishes holds =>
      obtain rfl := Option.some.inj hm
      obtain rfl := hself rfl
      have hright := hs _ _ holds
      exact hright
    | elsewhere other step => cases hm
  · exact h.right_of_ne hm (hs m st (((h.acts.1 m hm).symm).trans hst))

end FinishStep

/-! ## Runs -/

/-- A write has returned an error, and its snapshot is in the table's history. -/
def Finishing.Lies (s : Finishing) : Prop :=
  ∃ n e w id, s.status n = some (.returned (.error e)) ∧ s.world.writers n = some ⟨w, .committed id⟩

namespace FinishStep

variable {s t : Finishing} {a : FinishAction}

/-- A write that has returned makes no step. -/
theorem status_of_returned (h : FinishStep s a t) {n : Nat} {w : IcebergWrite} {p : Phase}
    {r : Except PeqlError SnapshotCommit} (hst : s.status n = some (.returned r))
    (hw : s.world.writers n = some ⟨w, p⟩) : a.writer ≠ some n := by
  intro hn
  cases h with
  | begins bound staged fresh hw' =>
    obtain rfl := Option.some.inj hn
    cases fresh.symm.trans hw
  | elsewhere other step => cases hn
  | stores holds | storeFails _ holds | calls holds | listFails _ holds | clears holds | clearFails _ holds
  | returns holds | gives holds | records _ holds | finishes holds =>
    obtain rfl := Option.some.inj hn
    cases holds.symm.trans hst

theorem lies (h : FinishStep s a t) (hs : s.Lies) : t.Lies := by
  obtain ⟨n, e, w, id, hst, hw⟩ := hs
  have hn := h.status_of_returned hst hw
  refine ⟨n, e, w, id, (h.acts.1 n hn).trans hst, ?_⟩
  rcases h.acts.2 with hworld | ⟨b, hstep, hb⟩
  · rw [hworld]
    exact hw
  · exact (hstep.writers_of_ne (hb n hn)).trans hw

/-- A list that is not deleted after its commit makes its write's error untrue. -/
theorem lies_of_not_cleared (h : FinishStep s a t) (hc : ¬ Cleared s a) : t.Lies := by
  cases h with
  | @clearFails n bound e holds =>
    unfold Cleared at hc
    push Not at hc
    obtain ⟨w, id, hw⟩ := hc
    exact ⟨n, e, w, id, Lookup.insert_self _ _ _, hw⟩
  | begins | stores | storeFails | calls | listFails | clears | returns | gives | records | finishes | elsewhere =>
    exact absurd trivial hc

end FinishStep

/-- A run every step of which clears is one of steps that clear; any other ends with a write that lies. -/
theorem guarded_or_lies {s t : Finishing} {as : List FinishAction} (h : Runs.Run FinishStep s as t) :
    Runs.Run (Runs.Guarded Cleared FinishStep) s as t ∨ t.Lies := by
  induction h with
  | nil s => exact .inl (.nil s)
  | @cons s u t a as hstep hrest ih =>
    by_cases hc : Cleared s a
    · exact ih.imp_left fun hrun => .cons ⟨hc, hstep⟩ hrun
    · exact .inr (hrest.inv (fun _ _ _ hl hs => hs.lies hl) (hstep.lies_of_not_cleared hc))

/-- Of things told apart, those that are named as one of them are that one. -/
theorem filter_eq_singleton {table : Metadata} (h : (table.snapshots.map Snapshot.id).Nodup) {snapshot : Snapshot}
    (hs : snapshot ∈ table.snapshots) : (table.snapshots.filter fun t => t.id = snapshot.id) = [snapshot] := by
  have hnodup : (table.snapshots.filter fun t => t.id = snapshot.id).Nodup := h.of_map.filter _
  have hall : ∀ t ∈ table.snapshots.filter fun t => t.id = snapshot.id, t = snapshot := by
    intro t ht
    obtain ⟨ht, hid⟩ := List.mem_filter.1 ht
    exact List.inj_on_of_nodup_map h ht hs (of_decide_eq_true hid)
  have hmem : snapshot ∈ table.snapshots.filter fun t => t.id = snapshot.id :=
    List.mem_filter.2 ⟨hs, decide_eq_true rfl⟩
  refine List.perm_singleton.1 ((List.perm_ext_iff_of_nodup hnodup (List.nodup_singleton _)).2 fun t => ?_)
  rw [List.mem_singleton]
  exact ⟨hall t, fun heq => heq ▸ hmem⟩

namespace Based

variable {start : Metadata} {s : Finishing}

/-- A write that has not committed has no snapshot in the table's history. -/
theorem snapshotsOf_nil (h : Based start s) {n : Nat} (hn : ∀ w id, s.world.writers n ≠ some ⟨w, .committed id⟩) :
    s.world.snapshotsOf n = [] := by
  unfold World.snapshotsOf
  refine List.filter_eq_nil_iff.2 fun t _ hany => ?_
  obtain ⟨c, hc, hcn⟩ := List.any_eq_true.1 hany
  obtain ⟨hcn, _⟩ := Bool.and_eq_true_iff.1 hcn
  cases c with
  | peql m w id =>
    obtain rfl := Option.some.inj (of_decide_eq_true hcn)
    exact hn w id ((h.inv.logged m w id).2 hc)
  | other rows id => cases of_decide_eq_true hcn

/-- A write that has committed has one. -/
theorem snapshotsOf_committed (h : Based start s) {n : Nat} {w : IcebergWrite} {id : Int}
    (hn : s.world.writers n = some ⟨w, .committed id⟩) :
    ∃ snapshot, s.world.table.snapshotById id = some snapshot ∧ s.world.snapshotsOf n = [snapshot] := by
  have hlogged := (h.inv.logged n w id).1 hn
  obtain ⟨snapshot, hfound⟩ := h.found _ hlogged
  replace hfound : s.world.table.snapshotById id = some snapshot := hfound
  obtain ⟨hmem, hid⟩ := Metadata.snapshotById_mem hfound
  refine ⟨snapshot, hfound, ?_⟩
  rw [← filter_eq_singleton h.inv.wellFormed.ids hmem]
  unfold World.snapshotsOf
  refine List.filter_congr fun t _ => ?_
  rw [Bool.eq_iff_iff, List.any_eq_true, decide_eq_true_iff, hid]
  constructor
  · rintro ⟨c, hc, hcn⟩
    obtain ⟨hcn, hct⟩ := Bool.and_eq_true_iff.1 hcn
    cases c with
    | peql m w' id' =>
      obtain rfl := Option.some.inj (of_decide_eq_true hcn)
      have heq := hn.symm.trans ((h.inv.logged m w' id').2 hc)
      obtain ⟨_, hid'⟩ := Writer.mk.inj (Option.some.inj heq)
      rw [Phase.committed.inj hid']
      exact (of_decide_eq_true hct).symm
    | other rows id' => cases of_decide_eq_true hcn
  · rintro rfl
    exact ⟨_, hlogged, by simp [Commit.writer, Commit.snapshot]⟩

theorem reports (h : Based start s) {n : Nat} {st : Status} (hright : st.Right s.world n)
    {r : Except PeqlError SnapshotCommit}
    (hr : st = .returned r ∨ ∃ commit left, st = .recording commit left ∧ r = .ok commit) :
    s.world.Reports n r := by
  have htold : ∀ {commit : SnapshotCommit}, (∃ w snapshot, s.world.writers n = some ⟨w, .committed commit.snapshotId⟩ ∧
      s.world.table.snapshotById commit.snapshotId = some snapshot ∧ snapshot.parent = commit.parentSnapshotId) →
        s.world.Reports n (.ok commit) := by
    rintro commit ⟨w, snapshot, hw, hs, hparent⟩
    obtain ⟨snapshot', hs', hof⟩ := h.snapshotsOf_committed hw
    obtain rfl := Option.some.inj (hs.symm.trans hs')
    exact ⟨snapshot, hof, (Metadata.snapshotById_mem hs).2, hparent⟩
  rcases hr with rfl | ⟨commit, left, rfl, rfl⟩
  · cases r with
    | ok commit => exact htold hright
    | error e => exact h.snapshotsOf_nil hright
  · exact htold hright

end Based

/-- No write has begun. -/
structure Finishing.Starts (s : Finishing) : Prop where
  world : Peql.Starts s.world
  idle : ∀ n, s.status n = none

/-- **A write that reports failure did not commit**, and one that reports a commit made that one, in the runs in which
no temporary list fails to be deleted after a commit the catalog took, and in those only. -/
theorem reported_iff_cleared {start s : Finishing} {as : List FinishAction} (h : start.Starts)
    (hrun : Runs.Run FinishStep start as s) :
    (∀ n r, s.Said n r → s.world.Reports n r) ↔ Runs.Run (Runs.Guarded Cleared FinishStep) start as s := by
  have hstart : Based start.world.table start := ⟨h.world.inv, by simp [h.world.log]⟩
  have hbased : Based start.world.table s := hrun.inv (fun _ _ _ hb hs => hs.based hb) hstart
  constructor
  · intro hreports
    rcases guarded_or_lies hrun with hguarded | ⟨n, e, w, id, hst, hw⟩
    · exact hguarded
    · have hnil : s.world.snapshotsOf n = [] := hreports n (.error e) (.inl hst)
      obtain ⟨snapshot, _, hof⟩ := hbased.snapshotsOf_committed hw
      cases hnil.symm.trans hof
  · intro hguarded
    have hright : ∀ n st, s.status n = some st → st.Right s.world n :=
      hguarded.inv_of_all (fun _ _ _ hi hc hs => hs.right hc hi) (by simp [h.idle])
    rintro n r (hst | ⟨commit, left, hst, rfl⟩)
    · exact hbased.reports (hright n _ hst) (.inl rfl)
    · exact hbased.reports (hright n _ hst) (.inr ⟨commit, left, rfl, rfl⟩)

/-! ## An append, and an overwrite after it -/

def noWrites (world : World) : Finishing := ⟨world, Lookup.empty⟩

/-- One append's second call of the store fails, with another begun; the other commits, and records its facts. -/
theorem reported_appends :
    ∃ s, Runs.Run FinishStep (noWrites newTable)
        [.begins 1, .stores 1, .begins 0, .storeFails 1, .stores 0, .stores 0, .stores 0, .calls 0, .calls 0,
          .returns 0, .records 0, .finishes 0] s ∧
      s.Said 0 (.ok ⟨7, none⟩) ∧ s.Said 1 (.error (.io "no space left on device")) ∧
        ∀ n r, s.Said n r → s.world.Reports n r := by
  let a := appendOne "a" 1
  let b := appendOne "b" 2
  let bound := ["readings"]
  let e : PeqlError := .io "no space left on device"
  let t := newTable.table.push (fastAppend newTable.table 7 "m7" a.files a.summary)
  let w₁ := newTable.put 1 b .written
  let w₂ := w₁.put 0 a .written
  let w₃ := w₂.put 1 b (.failed e)
  let w₄ := w₃.put 0 a (.producing newTable.table none)
  let w₅ := w₄.commit 0 a 7 t
  let s₁ := (noWrites newTable).put w₁ 1 (.committing (b.storeCalls bound false) bound)
  let s₂ := s₁.put w₁ 1 (.committing [.savesFacts "readings", .reads "data/b/0.parquet"] bound)
  let s₃ := s₂.put w₂ 0 (.committing (a.storeCalls bound false) bound)
  let s₄ := s₃.put w₃ 1 (.returned (.error e))
  let s₅ := s₄.put w₃ 0 (.committing [.savesFacts "readings", .reads "data/a/0.parquet"] bound)
  let s₆ := s₅.put w₃ 0 (.committing [.reads "data/a/0.parquet"] bound)
  let s₇ := s₆.put w₃ 0 (.committing [] bound)
  let s₈ := s₇.put w₄ 0 (.committing [] bound)
  let s₉ := s₈.put w₅ 0 (.committing [] bound)
  let s₁₀ := s₉.put w₅ 0 (.recording ⟨7, none⟩ bound)
  let s₁₁ := s₁₀.put w₅ 0 (.recording ⟨7, none⟩ [])
  let s₁₂ := s₁₁.put w₅ 0 (.returned (.ok ⟨7, none⟩))
  have hstarts : (noWrites newTable).Starts := ⟨newTable_starts, fun _ => rfl⟩
  have hrun : Runs.Run (Runs.Guarded Cleared FinishStep) (noWrites newTable)
      [.begins 1, .stores 1, .begins 0, .storeFails 1, .stores 0, .stores 0, .stores 0, .calls 0, .calls 0, .returns 0,
        .records 0, .finishes 0] s₁₂ := by
    refine .cons ⟨trivial, @FinishStep.begins (noWrites newTable) 1 b bound false rfl ⟨rfl, by simp [b, appendOne]⟩⟩ ?_
    refine .cons ⟨trivial, show FinishStep s₁ (.stores 1) s₂ from .stores rfl⟩ ?_
    refine .cons ⟨trivial, @FinishStep.begins s₂ 0 a bound false rfl ⟨rfl, by simp [a, appendOne]⟩⟩ ?_
    refine .cons ⟨trivial, show FinishStep s₃ (.storeFails 1) s₄ from
      @FinishStep.storeFails s₃ 1 (.savesFacts "readings") [.reads "data/b/0.parquet"] bound b .written e rfl rfl
        rfl⟩ ?_
    refine .cons ⟨trivial, show FinishStep s₄ (.stores 0) s₅ from .stores rfl⟩ ?_
    refine .cons ⟨trivial, show FinishStep s₅ (.stores 0) s₆ from .stores rfl⟩ ?_
    refine .cons ⟨trivial, show FinishStep s₆ (.stores 0) s₇ from .stores rfl⟩ ?_
    refine .cons ⟨trivial, show FinishStep s₇ (.calls 0) s₈ from
      @FinishStep.calls s₇ 0 [] bound (.loads 0) w₄ a .written (.producing newTable.table none) rfl rfl rfl
        (@Step.loads w₃ 0 a .written _ rfl rfl) rfl fun _ => rfl⟩ ?_
    refine .cons ⟨trivial, show FinishStep s₈ (.calls 0) s₉ from
      @FinishStep.calls s₈ 0 [] bound (.commits 0) w₅ a (.producing newTable.table none) (.committed 7) rfl rfl rfl
        (@Step.commits w₄ 0 a newTable.table t none 7 "m7" rfl (fun _ h => absurd h List.not_mem_nil)
          (fun _ h => absurd h List.not_mem_nil) rfl)
        rfl fun _ => rfl⟩ ?_
    refine .cons ⟨trivial, show FinishStep s₉ (.returns 0) s₁₀ from
      @FinishStep.returns s₉ 0 bound a 7 (fastAppend newTable.table 7 "m7" a.files a.summary) rfl rfl rfl⟩ ?_
    refine .cons ⟨trivial, show FinishStep s₁₀ (.records 0) s₁₁ from .records (.ok none) rfl⟩ ?_
    exact .cons ⟨trivial, show FinishStep s₁₁ (.finishes 0) s₁₂ from .finishes rfl⟩ (.nil s₁₂)
  exact ⟨s₁₂, hrun.of_guarded, .inl rfl, .inl rfl, (reported_iff_cleared hstarts hrun.of_guarded).2 hrun⟩

/-- The table after that append. -/
def oneSnapshot : World :=
  ⟨newTable.table.push (fastAppend newTable.table 7 "m7" (appendOne "a" 1).files (appendOne "a" 1).summary),
    Lookup.empty, []⟩

def overwriteOne : IcebergWrite := { appendOne "b" 2 with kind := .overwrite, base := some 7 }

theorem oneSnapshot_starts : Starts oneSnapshot where
  wellFormed := by
    refine newTable_starts.wellFormed.push nofun (List.nodup_singleton _) ?_ ?_
    · intro m _
      exact .inr fun t ht => absurd ht List.not_mem_nil
    · have hdata : ∀ m ∈ [addedManifest "m7" 7 (appendOne "a" 1).files], m.content = .data := by
        intro m hm
        rw [List.mem_singleton.1 hm]
        rfl
      have hnone : deletedRows [addedManifest "m7" 7 (appendOne "a" 1).files] = 0 := deletedRows_of_data hdata
      exact le_of_eq_of_le hnone (Multiset.zero_le _)
  idle := fun _ => rfl
  log := rfl

/-- An overwrite committed, and its temporary list was not deleted: it reports an error. -/
theorem uncleared_overwrite_lies :
    (noWrites oneSnapshot).Starts ∧ ∃ s, Runs.Run FinishStep (noWrites oneSnapshot)
        [.begins 0, .stores 0, .stores 0, .stores 0, .calls 0, .calls 0, .calls 0, .clearFails 0] s ∧
      ∃ r, s.Said 0 r ∧ ¬ s.world.Reports 0 r := by
  let b := overwriteOne
  let bound := ["readings"]
  let base : Metadata := { oneSnapshot.table with snapshots := relist 7 [] .zero oneSnapshot.table.snapshots }
  let t := oneSnapshot.table.push (fastAppend base 8 "m8" b.files b.summary)
  let w₁ := oneSnapshot.put 0 b .written
  let w₂ := w₁.put 0 b (.forged base none)
  let w₃ := w₂.put 0 b (.producing base none)
  let w₄ := w₃.commit 0 b 8 t
  let e : PeqlError := .io "the temporary list is not deleted"
  let s₁ := (noWrites oneSnapshot).put w₁ 0 (.committing (b.storeCalls bound false) bound)
  let s₂ := s₁.put w₁ 0 (.committing [.savesFacts "readings", .reads "data/b/0.parquet"] bound)
  let s₃ := s₂.put w₁ 0 (.committing [.reads "data/b/0.parquet"] bound)
  let s₄ := s₃.put w₁ 0 (.committing [] bound)
  let s₅ := s₄.put w₂ 0 (.committing [] bound)
  let s₆ := s₅.put w₃ 0 (.committing [] bound)
  let s₇ := s₆.put w₄ 0 (.clearing bound)
  let s₈ := s₇.put w₄ 0 (.returned (.error e))
  have hrun : Runs.Run FinishStep (noWrites oneSnapshot)
      [.begins 0, .stores 0, .stores 0, .stores 0, .calls 0, .calls 0, .calls 0, .clearFails 0] s₈ := by
    refine .cons (@FinishStep.begins (noWrites oneSnapshot) 0 b bound false rfl ⟨rfl, nofun⟩) ?_
    refine .cons (show FinishStep s₁ (.stores 0) s₂ from .stores rfl) ?_
    refine .cons (show FinishStep s₂ (.stores 0) s₃ from .stores rfl) ?_
    refine .cons (show FinishStep s₃ (.stores 0) s₄ from .stores rfl) ?_
    refine .cons (show FinishStep s₄ (.calls 0) s₅ from
      @FinishStep.calls s₄ 0 [] bound (.loads 0) w₂ b .written (.forged base none) rfl rfl rfl
        (@Step.loads w₁ 0 b .written _ rfl rfl) rfl fun _ => rfl) ?_
    refine .cons (show FinishStep s₅ (.calls 0) s₆ from
      @FinishStep.calls s₅ 0 [] bound (.loads 0) w₃ b (.forged base none) (.producing base none) rfl rfl rfl
        (@Step.loads w₂ 0 b (.forged base none) _ rfl rfl) rfl fun _ => rfl) ?_
    refine .cons (show FinishStep s₆ (.calls 0) s₇ from
      @FinishStep.calls s₆ 0 [] bound (.commits 0) w₄ b (.producing base none) (.committed 8) rfl rfl rfl
        (@Step.commits w₃ 0 b base t none 8 "m8" rfl ?_ ?_ rfl) rfl fun _ => rfl) ?_
    · intro u hu
      rw [List.mem_singleton.1 hu]
      decide
    · intro u hu m hm
      rw [List.mem_singleton.1 hu] at hm
      rw [List.mem_singleton.1 hm]
      decide
    exact .cons (show FinishStep s₇ (.clearFails 0) s₈ from .clearFails e rfl) (.nil s₈)
  refine ⟨⟨oneSnapshot_starts, fun _ => rfl⟩, s₈, hrun, .error e, .inl rfl, ?_⟩
  have hbased : Based oneSnapshot.table s₈ :=
    hrun.inv (fun _ _ _ hb hs => hs.based hb) ⟨oneSnapshot_starts.inv, nofun⟩
  obtain ⟨snapshot, _, hof⟩ := hbased.snapshotsOf_committed (show s₈.world.writers 0 = some ⟨b, .committed 8⟩ from rfl)
  intro hnil
  cases hof.symm.trans hnil

end Peql
