import Peql.Engine.Invisible
import Peql.Engine.Kept

/-!
# A caller the contract refuses

`resolve_with` decides on a caller before it takes the manifest, but `prepare` has by then seen that there is one:
`ensure_manifest` reads what is recorded, and validates and records what is not. So a caller the decide rules refuse is
told so with the data untouched exactly when there is no data to touch (`toldNothing_iff`).
-/

namespace Peql

open Effects

variable {R : Runtime} {caller : Caller}

/-- An error that is no denial. -/
def NotDenied (e : PeqlError) : Prop := ∀ contract rule, e ≠ .denied contract rule

/-- Something was read, recorded or validated since `base`. -/
def Traced (base : List Touch) (n : Node) : Prop := base.length < n.touched.length

/-- The call leaves a trace, or fails in a way that is no denial. -/
abbrev Disturbs {α : Type} (n : Node) (x : Ask α) : Prop :=
  Ends (· = n) x (fun _ m => Traced n.touched m) (fun e m => Traced n.touched m ∨ NotDenied e)

/-- Once a trace is left, it stays. -/
theorem traced_stable (base : List Touch) : DataStable (Traced base) where
  touch n t h := by
    unfold Traced at h ⊢
    rw [List.length_append]
    omega
  storage _ _ h := h
  objectManifests _ _ h := h
  icebergManifests _ _ h := h

/-! ## What leaves a trace -/

/-- A touch leaves a trace. -/
theorem traced_touch (n : Node) (t : Touch) (E : PeqlError → Node → Prop) :
    Ends (· = n) (Ask.touch t) (fun _ m => Traced n.touched m) E := by
  rintro _ rfl
  show Traced _ _
  unfold Traced
  simp

/-- A read of what is recorded leaves a trace when something is. -/
theorem touchRead_ends {α : Type} (n : Node) (contract : String) (recorded : Storage → Recorded α)
    (E : PeqlError → Node → Prop) :
    Ends (· = n) (Ask.touchRead contract recorded)
      (fun _ m => Traced n.touched m ∨ (recorded n.storage).isAbsent = true ∧ m = n) E := by
  rintro m rfl
  show Traced m.touched (if (recorded m.storage).isAbsent then m else
      { m with touched := m.touched ++ [.manifestRead contract] }) ∨ (recorded m.storage).isAbsent = true ∧
    (if (recorded m.storage).isAbsent then m else { m with touched := m.touched ++ [.manifestRead contract] }) = m
  by_cases h : (recorded m.storage).isAbsent = true
  · rw [if_pos h]
    exact .inr ⟨h, rfl⟩
  · rw [if_neg h]
    left
    unfold Traced
    simp

theorem Recorded.eq_absent {α : Type} {r : Recorded α} (h : r.isAbsent = true) : r = .absent := by
  cases r <;> first | rfl | cases h

/-- A load of what is recorded leaves a trace, or there was nothing and the state is as it was. -/
theorem load_ends {α β : Type} (n : Node) (contract : String) (recorded : Storage → Recorded α)
    (f : Storage → Except PeqlError (Option β)) (hf : recorded n.storage = .absent → f n.storage = .ok none) :
    Ends (· = n) (do
        Ask.touchRead contract recorded
        Ask.storage f)
      (fun a m => Traced n.touched m ∨ a = none ∧ recorded n.storage = .absent ∧ m = n)
      (fun _ m => Traced n.touched m) := by
  refine (touchRead_ends n contract recorded _).bind fun _ => ?_
  rintro m (hm | ⟨habsent, rfl⟩)
  · have hkeep := keeps_storage (P := Traced n.touched) f m hm
    cases hr : Ask.storage f m with
    | ok a t =>
      rw [hr] at hkeep
      exact .inl hkeep
    | error e t =>
      rw [hr] at hkeep
      exact hkeep
  · have hnone := hf (Recorded.eq_absent habsent)
    have hr : Ask.storage f m = .ok none m := by
      unfold Ask.storage
      rw [bind_apply]
      simp only [Effects.get_apply, hnone]
      rfl
    rw [hr]
    exact .inr ⟨rfl, Recorded.eq_absent habsent, rfl⟩

/-- A call that keeps what was traced keeps that it was, whatever it was to give. -/
theorem Disturbs.ofKeeps {α : Type} {n : Node} {x : Ask α} (h : Effects.Keeps (Traced n.touched) x) :
    Ends (Traced n.touched) x (fun _ m => Traced n.touched m) (fun e m => Traced n.touched m ∨ NotDenied e) :=
  h.mono (fun _ => id) (fun _ _ => id) fun _ _ => .inl

/-- So does a validation. -/
theorem validateRows_traces (n : Node) (c : Compilation) (rows : Multiset Row) :
    Ends (· = n) (validateRows R c rows) (fun _ m => Traced n.touched m) (fun _ m => Traced n.touched m) :=
  (traced_touch n _ _).bind fun _ => Effects.Keeps.ofExcept _

/-- A snapshot is found, or there is none to find, with the state as it was. -/
theorem icebergSnapshot_ends (n : Node) (table name : String) (at_ : Option Int) :
    Ends (· = n) (icebergSnapshot table name at_) (fun _ m => m = n) (fun e m => m = n ∧ NotDenied e) := by
  rintro m rfl
  have hload : loadTable table m = .ok ((m.storage.tables table).map IcebergTable.metadata) m := rfl
  unfold icebergSnapshot
  rw [bind_apply, hload]
  cases (m.storage.tables table).map IcebergTable.metadata with
  | none => exact ⟨rfl, fun _ _ h => nomatch h⟩
  | some t =>
    cases at_ with
    | some s =>
      by_cases hs : (t.snapshotById s).isNone = true
      · simp only [hs, if_true]
        exact ⟨rfl, fun _ _ h => nomatch h⟩
      · simp only [hs]
        rfl
    | none =>
      cases ht : t.current with
      | some s =>
        simp only [ht]
        rfl
      | none =>
        simp only [ht]
        exact ⟨rfl, fun _ _ h => nomatch h⟩

/-- A snapshot that is not read is no denial. -/
theorem provider_notDenied {t : TableMetadata} {table : String} {cc : CompiledContract} {stored : Bool} {snapshot : Int}
    {e : PeqlError} (h : t.provider table cc stored snapshot = .error e) : NotDenied e := by
  intro contract rule he
  subst he
  unfold TableMetadata.provider at h
  split at h
  · cases h
  · split at h <;> cases h

/-- A validation of the whole data leaves a trace, or there is no data to validate. -/
theorem whole_disturbs (n : Node) (name : String) (c : Compilation) (l : Location) (at_ : Option Int) :
    Disturbs n (whole R name c l at_) := by
  have hrows : ∀ {α : Type} (rows : Multiset Row) (f : Verdict → Ask α), (∀ v, Effects.Keeps (Traced n.touched) (f v)) →
      Disturbs n (validateRows R c rows >>= f) := by
    intro α rows f hf
    have h :
        Ends (· = n) (validateRows R c rows >>= f) (fun _ m => Traced n.touched m) (fun _ m => Traced n.touched m) :=
      (validateRows_traces n c rows).bind hf
    exact h.mono (fun _ => id) (fun _ _ => id) fun _ _ => .inl
  have hfiles : Disturbs n (do
      let files ← listFiles l
      let verdict ← validateRows R c (providedRows c.contract false files)
      let entries := files.map fun f => f.entryFor c.contract
      return (⟨verdict, dataHash R.sha256 entries, none⟩, entries) : Ask (DataVerdict × List FileEntry)) := by
    rintro m rfl
    exact hrows (providedRows c.contract false (m.storage.dirs l).files) _ (fun _ => Effects.Keeps.ret _) m rfl
  have hplain : at_.isSome = true → Disturbs n (throw (noSnapshots name) : Ask (DataVerdict × List FileEntry)) :=
    fun _ _ _ => .inr fun _ _ h => nomatch h
  unfold whole
  cases l with
  | iceberg table =>
    have hsnapshot : Ends (· = n) (icebergSnapshot table name at_) (fun _ m => m = n)
        (fun e m => Traced n.touched m ∨ NotDenied e) :=
      (icebergSnapshot_ends n table name at_).mono (fun _ => id) (fun _ _ => id) fun _ _ h => .inr h.2
    refine hsnapshot.bind fun t => ?_
    refine Ends.bind (Q := fun _ m => m = n)
      (Ends.ofExcept (fun _ _ _ => id) fun e he _ _ => .inr (provider_notDenied he)) fun rows => ?_
    exact hrows rows _ fun _ => (Effects.Keeps.ofExcept _).bind fun _ => Effects.Keeps.ret _
  | localDir root =>
    dsimp only
    split
    · next h => exact hplain h
    · exact hfiles
  | object url =>
    dsimp only
    split
    · next h => exact hplain h
    · exact hfiles

/-! ## What a manifest takes to be there -/

/-- What is read of the engine alone is read with the state as it was. -/
theorem engine_ends {α : Type} (n : Node) (f : Engine → Except PeqlError α) :
    Ends (· = n) (Ask.engine f) (fun a m => f n.engine = .ok a ∧ m = n) (fun e m => f n.engine = .error e ∧ m = n) := by
  rintro m rfl
  unfold Ask.engine
  rw [bind_apply]
  simp only [Effects.get_apply]
  cases f m.engine with
  | ok a => exact ⟨rfl, rfl⟩
  | error e => exact ⟨rfl, rfl⟩

/-- Nor is a contract that is not found. -/
theorem get_notDenied {e : Engine} {name : String} {err : PeqlError} (h : e.get name = .error err) : NotDenied err := by
  intro contract rule he
  subst he
  unfold Engine.get at h
  split at h <;> cases h

theorem bound_notDenied {e : Engine} {r : Registered} {err : PeqlError} (h : e.bound r = .error err) :
    NotDenied err := by
  intro contract rule he
  subst he
  unfold Engine.bound unresolved at h
  split at h
  · cases h
  · split at h <;> cases h

/-- A validation leaves a trace, or fails. -/
theorem refresh_disturbs (n : Node) (name : String) (at_ : Option Int) : Disturbs n (refresh R name at_) := by
  unfold refresh
  refine Ends.bind (Q := fun _ m => m = n) (fun _ h => h) fun writtenAt => ?_
  refine Ends.bind (Q := fun _ m => m = n)
    ((engine_ends n _).mono (fun _ => id) (fun _ _ h => h.2) fun e _ h => .inr (get_notDenied h.1)) fun reg => ?_
  refine Ends.bind (Q := fun _ m => m = n)
    ((engine_ends n _).mono (fun _ => id) (fun _ _ h => h.2) fun e _ h => .inr (bound_notDenied h.1)) fun b => ?_
  cases b with
  | table batches => exact fun _ _ => .inr fun _ _ h => nomatch h
  | files l =>
    refine (whole_disturbs n name reg.compilation l at_).bind fun found => Disturbs.ofKeeps ?_
    exact keeps_now.bind fun _ => (keeps_record (traced_stable _) _ _ _).bind fun _ => Effects.Keeps.ret _

/-- A manifest that is there leaves a trace of its reading. -/
theorem loadLocal_ends (n : Node) (l : Location) (contract : String) :
    Ends (· = n) (loadLocal l contract)
      (fun a m => Traced n.touched m ∨ a = none ∧ (n.storage.dirs l).recorded contract = .absent ∧ m = n)
      (fun _ m => Traced n.touched m) :=
  load_ends n contract _ _ fun h => by
    unfold Dir.load
    rw [h]
    rfl

theorem loadObject_ends (n : Node) (l : Location) (contract : String) :
    Ends (· = n) (loadObject l contract)
      (fun a m => Traced n.touched m ∨ a = none ∧ (n.storage.dirs l).recorded contract = .absent ∧ m = n)
      (fun _ m => Traced n.touched m) :=
  load_ends n contract _ _ fun h => by
    unfold Dir.loadObject
    rw [h]

/-- So do facts of a snapshot. -/
theorem loadFacts_ends (n : Node) (table : String) (snapshot : Int) (contract : String) :
    Ends (· = n) (loadFacts table snapshot contract) (fun a m => Traced n.touched m ∨ a = none ∧ m = n)
      (fun _ m => Traced n.touched m) := by
  refine (load_ends n contract (fun s => s.factsAt table snapshot contract) _ fun h => ?_).mono (fun _ => id)
    (fun _ _ h => h.imp_right fun h => ⟨h.1, h.2.2⟩) fun _ _ => id
  unfold Storage.factsAt at h
  cases ht : n.storage.tables table with
  | none => rfl
  | some t =>
    rw [ht] at h
    dsimp only at h ⊢
    unfold IcebergTable.loadFacts
    rw [h]

/-- So do facts of a write. -/
theorem loadWriteFacts_ends (n : Node) (table : String) (snapshot : TableSnapshot) (contract : String) :
    Ends (· = n) (loadWriteFacts table snapshot contract) (fun a m => Traced n.touched m ∨ a = none ∧ m = n)
      (fun _ m => Traced n.touched m) := by
  unfold loadWriteFacts
  cases hw : snapshot.writeId with
  | none =>
    have hload : Ends (· = n) (Ask.storage fun s =>
        readTable (fun t => t.loadWriteFacts table snapshot contract) (s.tables table))
        (fun a m => Traced n.touched m ∨ a = none ∧ m = n) (fun _ m => Traced n.touched m) := by
      rintro m rfl
      unfold Ask.storage
      rw [bind_apply]
      simp only [Effects.get_apply]
      cases m.storage.tables table with
      | none => exact .inr ⟨rfl, rfl⟩
      | some t =>
        simp only [IcebergTable.loadWriteFacts, hw]
        exact .inr ⟨rfl, rfl⟩
    exact hload
  | some write =>
    refine (load_ends n contract (fun s => s.writeFactsAt table write contract) _ fun h => ?_).mono (fun _ => id)
      (fun _ _ h => h.imp_right fun h => ⟨h.1, h.2.2⟩) fun _ _ => id
    unfold Storage.writeFactsAt at h
    cases ht : n.storage.tables table with
    | none => rfl
    | some t =>
      rw [ht] at h
      dsimp only at h ⊢
      unfold IcebergTable.loadWriteFacts
      rw [hw]
      dsimp only
      rw [h]

/-- A call with a trace behind it, or none and nothing yet found. -/
theorem Ends.traced_or {α β : Type} {n : Node} {x : Ask (Option α)} {f : Option α → Ask β} {Q : β → Node → Prop}
    {E : PeqlError → Node → Prop} (hQ : ∀ b m, Traced n.touched m → Q b m) (hE : ∀ e m, Traced n.touched m → E e m)
    (hx : Ends (· = n) x (fun a m => Traced n.touched m ∨ a = none ∧ m = n) (fun _ m => Traced n.touched m))
    (hkeep : ∀ a, Effects.Keeps (Traced n.touched) (f a)) (hnone : Ends (· = n) (f none) Q E) :
    Ends (· = n) (x >>= f) Q E := by
  refine Ends.bind (hx.mono (fun _ => id) (fun _ _ => id) (hE ·)) fun a => ?_
  rintro m (hm | ⟨rfl, rfl⟩)
  · exact (hkeep a).mono (fun _ => id) hQ hE m hm
  · exact hnone m rfl

/-- The facts of a snapshot leave a trace, or none is known. -/
theorem icebergFacts_ends (n : Node) (table : String) (t : TableMetadata) (snapshot : Int) (reg : Registered) :
    Ends (· = n) (icebergFacts R table t snapshot reg) (fun a m => Traced n.touched m ∨ a = none ∧ m = n)
      (fun _ m => Traced n.touched m) := by
  have hback : Ends (· = n) (factsBack table t reg.name t.snapshots.length (some snapshot) [])
      (fun a m => Traced n.touched m ∨ a = none ∧ m = n) (fun _ m => Traced n.touched m) := by
    cases t.snapshots.length with
    | zero => exact fun _ h => .inr ⟨rfl, h⟩
    | succ steps =>
      unfold factsBack
      cases t.snapshotById snapshot with
      | none => exact fun _ h => .inr ⟨rfl, h⟩
      | some s =>
        have hback : ∀ (write : WriteFacts) (time : Int), Effects.Keeps (Traced n.touched)
            (if write.written = .overwrite then pure (some (none, [(snapshot, time, write)]))
              else factsBack table t reg.name steps s.parent [(snapshot, time, write)] :
            Ask (Option (Option Manifest × List Pending))) := by
          intro write time
          split
          · exact Effects.Keeps.ret _
          · exact keeps_factsBack (traced_stable _) _ _ _ _ _ _
        refine Ends.traced_or (fun _ _ => .inl) (fun _ _ => id) (loadFacts_ends n table snapshot reg.name)
          (fun m => ?_) ?_
        · cases m with
          | some m => exact Effects.Keeps.ret _
          | none =>
            refine (keeps_loadWriteFacts (traced_stable _) _ _ _).bind fun write => ?_
            cases write with
            | none => exact Effects.Keeps.ret _
            | some write =>
              cases s.time with
              | none => exact Effects.Keeps.fail _
              | some time => exact hback write time
        · refine Ends.traced_or (fun _ _ => .inl) (fun _ _ => id) (loadWriteFacts_ends n table s reg.name)
            (fun write => ?_)
            fun _ h => .inr ⟨rfl, h⟩
          cases write with
          | none => exact Effects.Keeps.ret _
          | some write =>
            cases s.time with
            | none => exact Effects.Keeps.fail _
            | some time => exact hback write time
  unfold icebergFacts
  refine Ends.traced_or (fun _ _ => .inl) (fun _ _ => id) hback (fun found => ?_) fun _ h => .inr ⟨rfl, h⟩
  cases found with
  | none => exact Effects.Keeps.ret _
  | some found => exact keeps_factsForward (traced_stable _) _ _ _ _

/-! ## With no data to touch -/

/-- A contract's binding resolves, and there is no data under it: a table bound in its place, a directory or prefix with
no file and nothing recorded, or a table that is not there or has no snapshot. -/
def NoData (n : Node) (r : Registered) : Prop :=
  match n.engine.bound r with
  | .error _ => False
  | .ok (.table _) => True
  | .ok (.files (.iceberg table)) => (n.storage.tables table).bind (fun t => t.metadata.current) = none
  | .ok (.files l) => (n.storage.dirs l).recorded r.name = .absent ∧ (n.storage.dirs l).files = []

/-- An engine that remembers no more than it did but of the facts of tables. -/
def Forgot (n m : Node) : Prop :=
  m.touched = n.touched ∧ ∃ i, m.engine = { n.engine with icebergManifests := i }

theorem Forgot.refl (n : Node) : Forgot n n := ⟨rfl, n.engine.icebergManifests, rfl⟩

/-- What refusing the caller goes by: the pins verify, the read names no snapshot, and there is no data. -/
structure Unread (R : Runtime) (asOf : AsOf) (n : Node) (r : Registered) : Prop where
  pins : R.verifyPins r.compilation.contract.functions = .ok ()
  current : (asOf.lookup r.name).or (n.engine.frozen.lookup r.name) = none
  noData : NoData n r

section Reference

variable {n : Node} {name : String} {r : Registered} (hv : n.engine.visible name caller = .ok r)

include hv

/-- Without data there is nothing to ensure. -/
theorem ensureManifest_noData (h : NoData n r) :
    Ends (· = n) (ensureManifest R name) (fun _ m => Forgot n m) (fun _ _ => False) := by
  rintro m rfl
  have hget : (Ask.engine fun e => e.get name) m = .ok r m := by
    unfold Ask.engine
    rw [bind_apply]
    simp only [Effects.get_apply, visible_get hv]
    rfl
  have hrun : ∀ {α β : Type} {x : Ask α} {a : α} {f : α → Ask β}, x m = .ok a m → (x >>= f) m = f a m := by
    intro α β x a f hx
    rw [bind_apply, hx]
  unfold NoData at h
  cases hb : m.engine.bound r with
  | error e =>
    rw [hb] at h
    exact h.elim
  | ok b =>
    have hbound : (Ask.engine fun e => e.bound r) m = .ok b m := by
      unfold Ask.engine
      rw [bind_apply]
      simp only [Effects.get_apply, hb]
      rfl
    rw [hb] at h
    unfold ensureManifest
    rw [hrun hget, hrun hbound]
    cases b with
    | table batches => exact Forgot.refl m
    | files l =>
      cases l with
      | localDir root =>
        obtain ⟨habsent, hfiles⟩ := h
        have hload : loadLocal (.localDir root) name m = .ok none m := by
          have hends := loadLocal_ends m (.localDir root) name m rfl
          unfold loadLocal at hends ⊢
          rw [visible_name hv] at habsent
          unfold Ask.touchRead Ask.storage
          simp only [bind_apply, Effects.modify_apply, Effects.get_apply, habsent, Recorded.isAbsent, if_true, Dir.load]
          rfl
        have hlist : listFiles (.localDir root) m = .ok [] m := by
          unfold listFiles Ask.storage
          simp only [bind_apply, Effects.get_apply, hfiles]
          rfl
        dsimp only
        rw [hrun hload, hrun hlist]
        exact Forgot.refl m
      | object url =>
        obtain ⟨habsent, hfiles⟩ := h
        have hload : loadObject (.object url) name m = .ok none m := by
          rw [visible_name hv] at habsent
          unfold loadObject Ask.touchRead Ask.storage
          simp only [bind_apply, Effects.modify_apply, Effects.get_apply, habsent, Recorded.isAbsent, if_true,
            Dir.loadObject]
          rfl
        have hlist : listFiles (.object url) m = .ok [] m := by
          unfold listFiles Ask.storage
          simp only [bind_apply, Effects.get_apply, hfiles]
          rfl
        dsimp only
        rw [hrun hload]
        dsimp only
        rw [hrun hlist]
        exact Forgot.refl m
      | iceberg table =>
        dsimp only at h ⊢
        have hload : loadTable table m = .ok ((m.storage.tables table).map IcebergTable.metadata) m := rfl
        rw [hrun hload]
        have hnone : (((m.storage.tables table).map IcebergTable.metadata).bind fun t =>
            t.current.map fun s => (t, s)) = none := by
          cases ht : m.storage.tables table with
          | none => rfl
          | some t =>
            rw [ht] at h
            simp only [Option.bind_some] at h
            simp [h]
        rw [hnone]
        exact ⟨rfl, _, rfl⟩

/-- Where there is data, a manifest for it leaves a trace, or fails in a way that is no denial. -/
theorem ensureManifest_disturbs (h : ¬ NoData n r) : Disturbs n (ensureManifest R name) := by
  have hrefresh : ∀ at_, Disturbs n (do
      let _ ← refresh R name at_
      pure () : Ask Unit) := fun at_ =>
    (refresh_disturbs n name at_).bind fun _ => Disturbs.ofKeeps (Effects.Keeps.ret _)
  unfold ensureManifest
  refine Ends.bind (Q := fun reg m => reg = r ∧ m = n)
    ((engine_ends n _).mono (fun _ => id) (fun reg _ h => ⟨Except.ok.inj (h.1.symm.trans (visible_get hv)), h.2⟩)
      fun e _ h => nomatch h.1.symm.trans (visible_get hv)) fun reg => ?_
  rintro m ⟨rfl, rfl⟩
  refine Ends.bind (P := (· = m)) (Q := fun b m' => m.engine.bound reg = .ok b ∧ m' = m)
    ((engine_ends m _).mono (fun _ => id) (fun _ _ h => h) fun e _ he => .inr (bound_notDenied he.1))
      (fun b => ?_) m rfl
  rintro k ⟨hb, rfl⟩
  unfold NoData at h
  rw [hb] at h
  cases b with
  | table batches => exact absurd trivial h
  | files l =>
    cases l with
    | localDir root =>
      refine Ends.bind (P := (· = k)) (Q := fun a m => Traced k.touched m ∨
          a = none ∧ (k.storage.dirs (.localDir root)).recorded name = .absent ∧ m = k)
        ((loadLocal_ends k (.localDir root) name).mono (fun _ => id) (fun _ _ => id) fun _ _ => .inl)
          (fun a => ?_) k rfl
      rintro m (hm | ⟨rfl, habsent, rfl⟩)
      · refine Disturbs.ofKeeps (n := k) (Effects.Keeps.bind (keeps_storage _) fun files => ?_) m hm
        split
        · exact Effects.Keeps.ret _
        · exact (keeps_refresh (traced_stable _) _ _).bind fun _ => Effects.Keeps.ret _
      · have hfiles : (m.storage.dirs (.localDir root)).files ≠ [] := by
          intro hf
          exact h ⟨by rw [visible_name hv, habsent], hf⟩
        have hlist : listFiles (.localDir root) m = .ok (m.storage.dirs (.localDir root)).files m := rfl
        rw [bind_apply, hlist]
        have hempty : (m.storage.dirs (.localDir root)).files.isEmpty = false := by simpa using hfiles
        simp only [Option.isSome_none, hempty, Bool.or_self]
        exact hrefresh none m rfl
    | object url =>
      refine Ends.bind (P := (· = k)) (Q := fun a m => Traced k.touched m ∨
          a = none ∧ (k.storage.dirs (.object url)).recorded name = .absent ∧ m = k)
        ((loadObject_ends k (.object url) name).mono (fun _ => id) (fun _ _ => id) fun _ _ => .inl) (fun a => ?_) k rfl
      rintro m (hm | ⟨rfl, habsent, rfl⟩)
      · cases a with
        | some a => exact Disturbs.ofKeeps (n := k) (keeps_rememberObject (traced_stable _)
            fun e => e.objectManifests.insert name a) m hm
        | none =>
          refine Disturbs.ofKeeps (n := k) (Effects.Keeps.bind (keeps_storage _) fun files => ?_) m hm
          split
          · exact Effects.Keeps.ret _
          · exact (keeps_refresh (traced_stable _) _ _).bind fun _ => Effects.Keeps.ret _
      · have hfiles : (m.storage.dirs (.object url)).files ≠ [] := by
          intro hf
          exact h ⟨by rw [visible_name hv, habsent], hf⟩
        have hlist : listFiles (.object url) m = .ok (m.storage.dirs (.object url)).files m := rfl
        dsimp only
        rw [bind_apply, hlist]
        have hempty : (m.storage.dirs (.object url)).files.isEmpty = false := by simpa using hfiles
        simp only [hempty]
        exact hrefresh none m rfl
    | iceberg table =>
      have hload : loadTable table k = .ok ((k.storage.tables table).map IcebergTable.metadata) k := rfl
      dsimp only at h ⊢
      rw [bind_apply, hload]
      cases ht : k.storage.tables table with
      | none =>
        rw [ht] at h
        exact absurd rfl h
      | some t =>
        cases hs : t.metadata.current with
        | none =>
          rw [ht] at h
          exact absurd hs h
        | some snapshot =>
          simp only [Option.map_some, Option.bind_some, hs]
          refine Ends.traced_or (fun _ _ => id) (fun _ _ => .inl) (icebergFacts_ends k table t.metadata snapshot reg)
            (fun a => ?_) (hrefresh (some snapshot)) k rfl
          cases a with
          | some a => exact keeps_rememberIceberg (traced_stable _) _
          | none => exact (keeps_refresh (traced_stable _) _ _).bind fun _ => Effects.Keeps.ret _

/-! ## The reference that is refused -/

variable {rule : String} (hrule : R.refusal r.compilation.contract caller = .ok (some rule))

include hrule

omit hv in
/-- A refused caller is told the pins fail, or the rule. -/
theorem resolveWith_refused {m : Node} (hvm : m.engine.visible name caller = .ok r) (onViolation : OnReadViolation)
    (manifest : Ask (Option Manifest)) :
    resolveWith R name caller onViolation manifest m = match R.verifyPins r.compilation.contract.functions with
      | .ok () => .error (.denied r.name rule) m
      | .error e => .error e m := by
  have hvisible : (Ask.engine fun e => e.visible name caller) m = .ok r m := by
    unfold Ask.engine
    rw [bind_apply]
    simp only [Effects.get_apply, hvm]
    rfl
  unfold resolveWith
  rw [bind_apply, hvisible]
  dsimp only
  cases hp : R.verifyPins r.compilation.contract.functions with
  | error e => rfl
  | ok u =>
    rw [hrule]
    rfl

/-- A refused reference with no data to touch is told the rule, and nothing is touched. -/
theorem resolveAt_unread (onViolation : OnReadViolation)
    (hok : R.verifyPins r.compilation.contract.functions = .ok ()) (hno : NoData n r) :
    Ends (· = n) (resolveAt R name caller onViolation none) (fun _ _ => False)
      (fun e m => e = .denied r.name rule ∧ Forgot n m) := by
  unfold resolveAt
  refine Ends.bind (Q := fun _ m => Forgot n m)
    ((ensureManifest_noData hv hno).mono (fun _ => id) (fun _ _ => id) fun _ _ => False.elim) fun _ m hm => ?_
  have hvm : m.engine.visible name caller = .ok r := by
    obtain ⟨_, i, he⟩ := hm
    rw [he]
    exact hv
  unfold resolve
  rw [resolveWith_refused hrule hvm, hok]
  exact ⟨rfl, hm⟩

variable (hpins : ∀ pins e, R.verifyPins pins = .error e → NotDenied e)

include hpins

/-- A refused reference that is read as of a snapshot, or that has data, leaves a trace or fails in another way. -/
theorem resolveAt_disturbs (onViolation : OnReadViolation) (snapshot : Option Int)
    (h : ¬ (R.verifyPins r.compilation.contract.functions = .ok () ∧ snapshot = none ∧ NoData n r)) :
    Ends (· = n) (resolveAt R name caller onViolation snapshot) (fun _ _ => False)
      (fun e m => Traced n.touched m ∨ NotDenied e) := by
  have hstable : DataStable fun m => m.engine.visible name caller = .ok r :=
    ⟨fun _ _ h => h, fun _ _ h => h, fun _ _ h => h, fun _ _ h => h⟩
  have hresolve : ∀ manifest : Ask (Option Manifest),
      Ends (fun m => m.engine.visible name caller = .ok r ∧ Traced n.touched m)
        (resolveWith R name caller onViolation manifest) (fun _ _ => False)
        (fun e m => Traced n.touched m ∨ NotDenied e) := by
    rintro manifest m ⟨hvm, hm⟩
    rw [resolveWith_refused hrule hvm]
    cases R.verifyPins r.compilation.contract.functions with
    | ok u => exact .inl hm
    | error e => exact .inl hm
  have hdisturbed : ∀ {α : Type} {x : Ask α} (f : α → Ask (Resolution × Manifest)), Disturbs n x →
      Effects.Keeps (fun m => m.engine.visible name caller = .ok r) x →
      (∀ a, ∃ manifest, f a = resolveWith R name caller onViolation manifest) →
      Ends (· = n) (x >>= f) (fun _ _ => False) (fun e m => Traced n.touched m ∨ NotDenied e) := by
    intro α x f hx hkeep hf
    refine Ends.bind (Q := fun _ m => m.engine.visible name caller = .ok r ∧ Traced n.touched m) ?_ fun a => ?_
    · rintro m rfl
      have hk := hkeep m hv
      have hd := hx m rfl
      cases hxs : x m with
      | ok a t =>
        rw [hxs] at hk hd
        exact ⟨hk, hd⟩
      | error e t =>
        rw [hxs] at hd
        exact hd
    · obtain ⟨manifest, ha⟩ := hf a
      rw [ha]
      exact hresolve manifest
  unfold resolveAt
  cases snapshot with
  | none =>
    by_cases hno : NoData n r
    · -- Nothing is disturbed, so the pins do not verify.
      have hbad : R.verifyPins r.compilation.contract.functions ≠ .ok () := fun hp => h ⟨hp, rfl, hno⟩
      refine Ends.bind (Q := fun _ m => m.engine.visible name caller = .ok r)
        ((ensureManifest_noData hv hno).mono (fun _ => id) (fun _ m hm => ?_) fun _ _ => False.elim) fun _ m hvm => ?_
      · obtain ⟨_, i, he⟩ := hm
        rw [he]
        exact hv
      · unfold resolve
        rw [resolveWith_refused hrule hvm]
        cases hp : R.verifyPins r.compilation.contract.functions with
        | ok u => exact absurd hp hbad
        | error e => exact .inr (hpins _ e hp)
    · exact hdisturbed _ (ensureManifest_disturbs hv hno) (keeps_ensureManifest hstable name) fun _ => ⟨_, rfl⟩
  | some s =>
    refine hdisturbed _ ?_ (keeps_ensureManifestAsOf hstable name s) fun _ => ⟨_, rfl⟩
    unfold ensureManifestAsOf
    have hknown : Ends (· = n) (manifestAsOf R name s) (fun a m => Traced n.touched m ∨ a = none ∧ m = n)
        (fun e m => Traced n.touched m ∨ NotDenied e) := by
      unfold manifestAsOf
      refine Ends.bind (Q := fun _ m => m = n)
        ((engine_ends n _).mono (fun _ => id) (fun _ _ h => h.2) fun e _ h => .inr (get_notDenied h.1)) fun reg => ?_
      refine Ends.bind (Q := fun _ m => m = n)
        ((engine_ends n _).mono (fun _ => id) (fun _ _ h => h.2) fun e _ h => .inr (bound_notDenied h.1)) fun b => ?_
      split
      · refine Ends.bind (Q := fun _ m => m = n) (fun _ h => h) fun t => ?_
        cases t with
        | none => exact fun _ _ => .inr fun _ _ h => nomatch h
        | some t =>
          dsimp only
          split
          · exact fun _ _ => .inr fun _ _ h => nomatch h
          · exact (icebergFacts_ends n _ t s reg).mono (fun _ => id) (fun _ _ => id) fun _ _ => .inl
      · exact fun _ _ => .inr fun _ _ h => nomatch h
    refine Ends.bind hknown fun a => ?_
    rintro m (hm | ⟨rfl, rfl⟩)
    · cases a with
      | some a => exact hm
      | none =>
        exact Disturbs.ofKeeps ((keeps_refresh (traced_stable _) name (some s)).bind fun _ => Effects.Keeps.ret _) m hm
    · exact (refresh_disturbs m name (some s)).bind (fun _ => Disturbs.ofKeeps (Effects.Keeps.ret _)) m rfl

end Reference

/-! ## The call -/

/-- What a call that reads is asked: its statement, the snapshots it names, and what it does with rows that break
rules. -/
def CallerCall.reading : CallerCall → Option (String × AsOf × OnReadViolation)
  | .query _ sql asOf onViolation | .plan _ sql asOf onViolation => some (sql, asOf, onViolation)
  | .view _ name onViolation => some (selectAll name, [], onViolation)
  | .viewAsOf _ name snapshot onViolation => some (selectAll name, [(name, snapshot)], onViolation)
  | .check _ sql onViolation => some (sql, [], onViolation)
  | .describe _ | .authorizeWrite _ | .listFor => none

/-- A statement refers to a visible contract whose decide rules refuse the caller, and the references before it are
resolved, which leaves `n₁`. -/
structure RefusedAt (R : Runtime) (caller : Caller) (sql : String) (asOf : AsOf) (onViolation : OnReadViolation)
    (n n₁ : Node) (r : Registered) (rule : String) : Prop where
  checked : R.checkSql sql = .ok ()
  reached : ∃ expanded searches before t after done, R.expand sql = .ok (expanded, searches) ∧
    R.references expanded = .ok (before ++ t :: after) ∧
    resolveReferences R caller asOf onViolation before .none n = .ok done n₁ ∧
    (done.resolutions.any fun a => a.contract = t.table) = false ∧ t.qualifier = none ∧
    n₁.engine.visible t.table caller = .ok r
  refused : R.refusal r.compilation.contract caller = .ok (some rule)

/-- The call's outcome is the denial, and of contracts' data nothing was touched but what `touched` tells of. -/
def ToldNothing {α : Type} (x : Ask α) (n : Node) (touched : List Touch) (contract rule : String) : Prop :=
  ∃ m, x n = .error (.denied contract rule) m ∧ m.touched = touched

/-- A statement fails as its refused reference does. -/
theorem prepare_refused {sql : String} {asOf : AsOf} {onViolation : OnReadViolation} {n n₁ : Node} {r : Registered}
    {rule : String} (h : RefusedAt R caller sql asOf onViolation n n₁ r rule) {e : PeqlError} {m : Node}
    (he : resolveAt R r.name caller onViolation ((asOf.lookup r.name).or (n₁.engine.frozen.lookup r.name)) n₁ =
      .error e m) :
    prepare R sql caller asOf onViolation n = .error e m := by
  obtain ⟨expanded, searches, before, t, after, done, hexpand, hrefs, hbefore, hfresh, hbare, hv⟩ := h.reached
  have hname : r.name = t.table := visible_name hv
  have hreference : resolveReference R caller asOf onViolation t done n₁ = .error e m := by
    have hvisible : (Ask.engine fun e => e.visible t.table caller) n₁ = .ok r n₁ := by
      unfold Ask.engine
      rw [bind_apply]
      simp only [Effects.get_apply, hv]
      rfl
    have hfrozen : (Ask.engine fun e => .ok (e.frozen.lookup t.table)) n₁ = .ok (n₁.engine.frozen.lookup t.table) n₁ :=
      rfl
    rw [hname] at he
    unfold resolveReference
    simp only [hfresh, hbare, Option.isSome_none, Bool.false_eq_true, if_false, bind_apply, hvisible, hfrozen, he]
  have hrefsAll : resolveReferences R caller asOf onViolation (before ++ t :: after) .none n = .error e m := by
    rw [resolveReferences_append, bind_apply, hbefore]
    simp only [resolveReferences, bind_apply, hreference]
  unfold prepare
  rw [h.checked, hexpand]
  show (Effects.ofExcept (R.references expanded) >>= _ : Ask Prepared) n = _
  rw [hrefs]
  show (resolveReferences R caller asOf onViolation (before ++ t :: after) .none >>= _ : Ask Prepared) n = _
  rw [bind_apply, hrefsAll]

/-- A call whose statement fails records that, and fails as the statement or as the log does. -/
theorem askFor_failed {c : CallerCall} {sql : String} {asOf : AsOf} {onViolation : OnReadViolation}
    (hc : c.reading = some (sql, asOf, onViolation)) {n m : Node} {e : PeqlError}
    (h : prepare R sql caller asOf onViolation n = .error e m) :
    ∃ t, t.touched = m.touched ∧
      askFor R caller c n = match m.engine.auditFault with
        | some f => .error f t
        | none => .error e t := by
  have haudit : ∀ auditId : String, ∃ t, t.touched = m.touched ∧
      audit R auditId sql caller (.ofError e) 0 [] [] m = match m.engine.auditFault with
        | some f => .error f t
        | none => .ok ⟨⟩ t := by
    intro auditId
    cases hf : m.engine.auditFault with
    | some f => exact ⟨m, rfl, audit_failed R hf ..⟩
    | none =>
      let failed := auditRecord R auditId sql caller (.ofError e) 0 [] [] m.now
      exact ⟨{ m with engine := { m.engine with audit := m.engine.audit ++ [failed] } }, rfl, audit_recorded R hf ..⟩
  have hmap : ∀ {α : Type} {x : Ask α} (f : α → Given), (∃ t, t.touched = m.touched ∧
      x n = match m.engine.auditFault with
        | some f => .error f t
        | none => .error e t) → ∃ t, t.touched = m.touched ∧ (f <$> x) n = match m.engine.auditFault with
        | some f => .error f t
        | none => .error e t := by
    rintro α x f ⟨t, ht, hx⟩
    refine ⟨t, ht, ?_⟩
    show (x >>= fun a => pure (f a)) n = _
    rw [bind_apply, hx]
    cases m.engine.auditFault <;> rfl
  have haudited : ∀ {α : Type} (auditId : String) (tell : α → Telling) {x : Ask α}, x n = .error e m →
      ∃ t, t.touched = m.touched ∧ audited R auditId sql caller tell x n = match m.engine.auditFault with
        | some f => .error f t
        | none => .error e t := by
    intro α auditId tell x hx
    obtain ⟨t, ht, hlog⟩ := haudit auditId
    have hrun : Effects.attempt x n = .ok (.error e) m := by
      unfold Effects.attempt
      rw [hx]
    refine ⟨t, ht, ?_⟩
    unfold audited
    rw [bind_apply, hrun]
    dsimp only
    rw [bind_apply, hlog]
    cases m.engine.auditFault <;> rfl
  have hrun : ∀ auditId, run R sql caller auditId asOf onViolation n = .error e m := by
    intro auditId
    unfold run
    rw [bind_apply, h]
  have hplan : (do
      let p ← prepare R sql caller asOf onViolation
      planned R p caller) n = .error e m := by
    rw [bind_apply, h]
  cases c with
  | query auditId => cases hc; exact hmap _ (haudited auditId _ (hrun auditId))
  | plan auditId => cases hc; exact hmap _ (haudited auditId _ hplan)
  | view auditId => cases hc; exact hmap _ (haudited auditId _ hplan)
  | viewAsOf auditId => cases hc; exact hmap _ (haudited auditId _ hplan)
  | check auditId =>
    cases hc
    obtain ⟨t, ht, hlog⟩ := haudit auditId
    have hrun : Effects.attempt (prepare R sql caller [] onViolation) n = .ok (.error e) m := by
      unfold Effects.attempt
      rw [h]
    refine hmap _ ⟨t, ht, ?_⟩
    unfold check
    rw [bind_apply, hrun]
    dsimp only
    rw [bind_apply, hlog]
    cases m.engine.auditFault <;> rfl
  | describe | authorizeWrite | listFor => cases hc

/-- A caller the decide rules refuse is told the rule, with no manifest read or recorded and no row validated, exactly
when the audit log records the call and what the refusal goes by is there (`Unread`). -/
theorem toldNothing_iff {c : CallerCall} {sql : String} {asOf : AsOf} {onViolation : OnReadViolation} {n n₁ : Node}
    {r : Registered} {rule : String} (hpins : ∀ pins e, R.verifyPins pins = .error e → NotDenied e)
    (hlog : ∀ e, n₁.engine.auditFault = some e → NotDenied e) (hc : c.reading = some (sql, asOf, onViolation))
    (h : RefusedAt R caller sql asOf onViolation n n₁ r rule) :
    ToldNothing (askFor R caller c) n n₁.touched r.name rule ↔ n₁.engine.auditFault = none ∧ Unread R asOf n₁ r := by
  have hv : n₁.engine.visible r.name caller = .ok r := by
    obtain ⟨_, _, _, t, _, _, _, _, _, _, _, hv⟩ := h.reached
    rwa [visible_name hv]
  constructor
  · rintro ⟨m, hm, htouched⟩
    by_cases hunread : Unread R asOf n₁ r
    · have hends := resolveAt_unread hv h.refused onViolation hunread.pins hunread.noData n₁ rfl
      cases hat : resolveAt R r.name caller onViolation none n₁ with
      | ok a t =>
        rw [hat] at hends
        exact hends.elim
      | error e t =>
        rw [hat] at hends
        obtain ⟨rfl, _, i, hengine⟩ := hends
        rw [← hunread.current] at hat
        obtain ⟨k, _, hcall⟩ := askFor_failed hc (prepare_refused h hat)
        have hfault : t.engine.auditFault = n₁.engine.auditFault := by rw [hengine]
        rw [hfault] at hcall
        refine ⟨?_, hunread⟩
        cases hf : n₁.engine.auditFault with
        | none => rfl
        | some f =>
          rw [hf] at hcall
          rw [hcall] at hm
          cases hm
          exact absurd rfl (hlog _ hf _ _)
    · exfalso
      have hfault : DataStable fun m : Node => m.engine.auditFault = n₁.engine.auditFault :=
        ⟨fun _ _ h => h, fun _ _ h => h, fun _ _ h => h, fun _ _ h => h⟩
      have hdisturbs := resolveAt_disturbs hv h.refused hpins onViolation
        ((asOf.lookup r.name).or (n₁.engine.frozen.lookup r.name))
          (fun hall => hunread ⟨hall.1, hall.2.1, hall.2.2⟩) n₁ rfl
      have hkeeps := keeps_resolveAt (R := R) hfault r.name caller onViolation
        ((asOf.lookup r.name).or (n₁.engine.frozen.lookup r.name)) n₁ rfl
      cases hat :
        resolveAt R r.name caller onViolation ((asOf.lookup r.name).or (n₁.engine.frozen.lookup r.name)) n₁ with
      | ok a t =>
        rw [hat] at hdisturbs
        exact hdisturbs
      | error e t =>
        rw [hat] at hdisturbs hkeeps
        obtain ⟨k, hk, hcall⟩ := askFor_failed hc (prepare_refused h hat)
        have hends : m = k ∧ (n₁.engine.auditFault = none → PeqlError.denied r.name rule = e) := by
          rw [hcall, hkeeps] at hm
          cases hf : n₁.engine.auditFault with
          | none =>
            rw [hf] at hm
            cases hm
            exact ⟨rfl, fun _ => rfl⟩
          | some f =>
            rw [hf] at hm
            cases hm
            exact absurd rfl (hlog _ hf _ _)
        obtain ⟨rfl, herr⟩ := hends
        rcases hdisturbs with htraced | hdenied
        · unfold Traced at htraced
          rw [← hk, htouched] at htraced
          omega
        · cases hf : n₁.engine.auditFault with
          | none => exact hdenied _ _ (herr hf).symm
          | some f =>
            rw [hkeeps, hf] at hcall
            rw [hcall] at hm
            cases hm
            exact absurd rfl (hlog _ hf _ _)
  · rintro ⟨hnone, hunread⟩
    have hends := resolveAt_unread hv h.refused onViolation hunread.pins hunread.noData n₁ rfl
    cases hat : resolveAt R r.name caller onViolation none n₁ with
    | ok a t =>
      rw [hat] at hends
      exact hends.elim
    | error e t =>
      rw [hat] at hends
      obtain ⟨rfl, ht, i, hengine⟩ := hends
      rw [← hunread.current] at hat
      obtain ⟨k, hk, hcall⟩ := askFor_failed hc (prepare_refused h hat)
      have hfault : t.engine.auditFault = none := by rw [hengine, ← hnone]
      rw [hfault] at hcall
      exact ⟨k, hcall, hk.trans ht⟩

/-- The amounts refuse callers whose purpose is marketing. -/
def refusingRuntime : Runtime :=
  { amountsRuntime with
    refusal := fun _ caller => .ok (if caller.purpose = "marketing" then some "analytics_only" else none) }

def marketer : Caller := ⟨"m", "acme", "marketing", []⟩

def selectAmounts : CallerCall := .query "a1" (selectAll "acme/amounts") [] .exclude

theorem refusedAt_amounts (d : Dir StoredFile) :
    RefusedAt refusingRuntime marketer (selectAll "acme/amounts") [] .exclude (amountsOver d) (amountsOver d)
      ⟨amountContract⟩ "analytics_only" where
  checked := rfl
  reached := ⟨selectAll "acme/amounts", [], [], ⟨none, "acme/amounts"⟩, [], .none, rfl, if_pos rfl, rfl, rfl, rfl, rfl⟩
  refused := rfl

theorem toldNothing_amounts : ToldNothing (askFor refusingRuntime marketer selectAmounts)
    (amountsOver ⟨[], fun _ => .absent⟩) [] "acme/amounts" "analytics_only" := by
  refine (toldNothing_iff (c := selectAmounts) (fun _ e h => ?_) (fun e h => ?_) rfl (refusedAt_amounts _)).2
    ⟨rfl, rfl, rfl, rfl, rfl⟩
  · exact nomatch (h : Except.ok () = Except.error e)
  · exact nomatch (h : none = some e)

/-- Three directories, of which the caller is told one apart and has another validated and recorded. -/
theorem told_of_data :
    (∃ cause, Effects.outcome (askFor refusingRuntime marketer selectAmounts)
      (amountsOver ⟨[], fun _ => .corrupt "expected value"⟩) = .error (.io cause)) ∧
    Effects.outcome (askFor refusingRuntime marketer selectAmounts) (amountsOver ⟨[], fun _ => .absent⟩) =
      .error (.denied "acme/amounts" "analytics_only") ∧
    ∃ m, askFor refusingRuntime marketer selectAmounts (amountsOver ⟨[storedAmount "a" 1], fun _ => .absent⟩) =
      .error (.denied "acme/amounts" "analytics_only") m ∧
      m.touched = [.rowsValidated "acme/amounts", .manifestRecorded "acme/amounts"] := by
  have hask : ∀ (d : Dir StoredFile) {e m}, resolveAt refusingRuntime "acme/amounts" marketer .exclude none
      (amountsOver d) =
      .error e m → m.engine.auditFault = none →
      ∃ t, t.touched = m.touched ∧ askFor refusingRuntime marketer selectAmounts (amountsOver d) = .error e t := by
    intro d e m hat hnone
    obtain ⟨t, ht, hcall⟩ := askFor_failed (c := selectAmounts) rfl (prepare_refused (refusedAt_amounts d) hat)
    rw [hnone] at hcall
    exact ⟨t, ht, hcall⟩
  have hcorrupt : ∃ cause m, resolveAt refusingRuntime "acme/amounts" marketer .exclude none
      (amountsOver ⟨[], fun _ => .corrupt "expected value"⟩) = .error (.io cause) m ∧ m.engine.auditFault = none :=
    ⟨_, _, rfl, rfl⟩
  have hempty :
      ∃ m, resolveAt refusingRuntime "acme/amounts" marketer .exclude none (amountsOver ⟨[], fun _ => .absent⟩) =
      .error (.denied "acme/amounts" "analytics_only") m ∧ m.engine.auditFault = none :=
    ⟨_, rfl, rfl⟩
  have hfiles : ∃ m, resolveAt refusingRuntime "acme/amounts" marketer .exclude none
      (amountsOver ⟨[storedAmount "a" 1], fun _ => .absent⟩) = .error (.denied "acme/amounts" "analytics_only") m ∧
      m.engine.auditFault = none ∧ m.touched = [.rowsValidated "acme/amounts", .manifestRecorded "acme/amounts"] :=
    ⟨_, rfl, rfl, rfl⟩
  obtain ⟨cause, m, hat, hnone⟩ := hcorrupt
  obtain ⟨t, _, hc⟩ := hask _ hat hnone
  obtain ⟨m', hat', hnone'⟩ := hempty
  obtain ⟨t', _, hc'⟩ := hask _ hat' hnone'
  obtain ⟨m'', hat'', hnone'', ht''⟩ := hfiles
  obtain ⟨t'', ht, hc''⟩ := hask _ hat'' hnone''
  refine ⟨⟨cause, ?_⟩, ?_, t'', hc'', ht.trans ht''⟩
  · unfold Effects.outcome
    rw [hc]
  · unfold Effects.outcome
    rw [hc']

end Peql
