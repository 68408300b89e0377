import Peql.Engine.Fleet
import Peql.Engine.Serving

/-!
# Calls that change no data

A validation, and a read with everything it resolves, leaves the data as it is and records what tells of it (`Unmoved`):
whatever engine calls, whatever it has registered, and whether the call gives a value or an error (`unmoved_call`).
-/

namespace Peql

open Effects

variable {R : Runtime} {V : Compilation → Prop} {rd : Compilation → Reading} {n₀ : Node}

/-- A call over some data, with nothing watched. -/
abbrev Unmoved (V : Compilation → Prop) (rd : Compilation → Reading) (n₀ n : Node) : Prop :=
  Steady V rd (fun _ => True) n₀ n

theorem saves_true (hash : String) : Saves (fun _ => True) hash := ⟨fun _ _ _ _ => id, fun _ _ _ _ _ => id⟩

/-- Storage that tells what is true is unmoved to begin with. -/
theorem unmoved_self {n : Node} (h : Told V rd n.storage) : Unmoved V rd n n := ⟨h, .refl _, trivial, rfl, rfl, rfl⟩

section Calls

variable (hR : Counts R V rd) (hV : n₀.engine.store.Of V)

theorem get_ok {e : Engine} {name : String} {reg : Registered} :
    e.get name = .ok reg ↔ e.store.current name = some reg := by
  unfold Engine.get
  cases e.store.current name <;> simp

/-- A contract is found under its own name. -/
theorem get_name {e : Engine} {name : String} {reg : Registered} (h : e.get name = .ok reg) : reg.name = name :=
  Contents.current_name (get_ok.1 h)

include hR hV

/-- A validation moves no data. -/
theorem unmoved_refresh (name : String) (at_ : Option Int) : Effects.Keeps (Unmoved V rd n₀) (refresh R name at_) := by
  have hnow : Effects.Keeps (Unmoved V rd n₀) Ask.now := fun _ hn => hn
  intro n hn
  cases hreg : n₀.engine.get name with
  | error e =>
    unfold refresh
    refine Effects.Keeps.bind hnow (fun _ => ?_) n hn
    exact Ends.bind (steady_get name) fun _ m hm => absurd (hreg.symm.trans hm.2) (by simp)
  | ok reg =>
    cases hb : n₀.engine.bound reg with
    | error e =>
      unfold refresh
      refine Effects.Keeps.bind hnow (fun _ => Ends.bind (steady_get name) fun found => ?_) n hn
      rintro m ⟨hm, hfound⟩
      cases hreg.symm.trans hfound
      exact Ends.bind (steady_bound reg) (fun _ m hm => absurd (hb.symm.trans hm.2) (by simp)) m hm
    | ok b =>
      cases b with
      | table batches =>
        unfold refresh
        refine Effects.Keeps.bind hnow (fun _ => Ends.bind (steady_get name) fun found => ?_) n hn
        rintro m ⟨hm, hfound⟩
        cases hreg.symm.trans hfound
        refine Ends.bind (steady_bound reg) (fun b m hm => ?_) m hm
        cases hb.symm.trans hm.2
        exact hm.1
      | files l =>
        have hc : V reg.compilation := hV name reg (get_ok.1 hreg)
        exact (steady_refresh (saves_true _) hR hc rfl hreg hb at_).mono (fun _ => id) (fun _ _ h => h.1)
          (fun _ _ => id) n hn

omit hV in
/-- Computing facts moves none. -/
theorem unmoved_icebergFacts {table : String} {t₀ : IcebergTable} (ht₀ : n₀.storage.tables table = some t₀)
    {reg : Registered} (hc : V reg.compilation) (target : Int) :
    Effects.Keeps (Unmoved V rd n₀) (icebergFacts R table t₀.metadata target reg) :=
  (steady_icebergFacts (saves_true _) ht₀ hR hc rfl target).mono (fun _ => id) (fun _ _ h => h.1) fun _ _ => id

omit hR hV in
theorem unmoved_rememberObject (f : Engine → Lookup String Manifest) :
    Effects.Keeps (Unmoved V rd n₀) (Ask.remember fun e => { e with objectManifests := f e }) :=
  Effects.Keeps.write fun _ hn => hn.remember rfl rfl rfl

omit hR hV in
theorem unmoved_rememberIceberg (f : Engine → Lookup String Manifest) :
    Effects.Keeps (Unmoved V rd n₀) (Ask.remember fun e => { e with icebergManifests := f e }) :=
  Effects.Keeps.write fun _ hn => hn.remember rfl rfl rfl

omit hR hV in
theorem unmoved_rememberTable (f : Engine → Lookup String Manifest) :
    Effects.Keeps (Unmoved V rd n₀) (Ask.remember fun e => { e with tableManifests := f e }) :=
  Effects.Keeps.write fun _ hn => hn.remember rfl rfl rfl

/-- Nor does ensuring a manifest. -/
theorem unmoved_ensureManifest (name : String) : Effects.Keeps (Unmoved V rd n₀) (ensureManifest R name) := by
  have hrefresh : ∀ at_, Effects.Keeps (Unmoved V rd n₀) (do
      let _ ← refresh R name at_
      pure () : Ask Unit) := fun at_ => (unmoved_refresh hR hV name at_).bind fun _ => Effects.Keeps.ret _
  unfold ensureManifest
  refine Ends.bind (steady_get name) fun reg => ?_
  rintro n ⟨hn, hreg⟩
  have hc : V reg.compilation := hV name reg (get_ok.1 hreg)
  refine Effects.Keeps.bind (keeps_engine _) (fun b => ?_) n hn
  cases b with
  | table batches => exact Effects.Keeps.ret _
  | files l =>
    cases l with
    | localDir root =>
      refine Ends.bind (steady_loadLocal _ _) fun known => ?_
      refine Ends.mono (P := Unmoved V rd n₀) ?_ (fun _ h => h.1) (fun _ _ => id) fun _ _ => id
      refine (keeps_storage _).bind fun files => ?_
      split
      · exact Effects.Keeps.ret _
      · exact hrefresh _
    | object url =>
      refine Ends.bind (steady_loadObject _ _) fun known => ?_
      refine Ends.mono (P := Unmoved V rd n₀) ?_ (fun _ h => h.1) (fun _ _ => id) fun _ _ => id
      cases known with
      | some m => exact unmoved_rememberObject _
      | none =>
        refine (keeps_storage _).bind fun files => ?_
        split
        · exact Effects.Keeps.ret _
        · exact hrefresh _
    | iceberg table =>
      refine Ends.bind (steady_loadTable table) fun found => ?_
      rintro n' ⟨hn', rfl⟩
      cases ht : n₀.storage.tables table with
      | none => exact unmoved_rememberIceberg (fun e => e.icebergManifests.erase name) n' hn'
      | some t =>
        cases hcur : t.metadata.current with
        | none =>
          simp only [Option.map_some, Option.bind_some, hcur, Option.map_none]
          exact unmoved_rememberIceberg (fun e => e.icebergManifests.erase name) n' hn'
        | some s =>
          simp only [Option.map_some, Option.bind_some, hcur]
          refine (unmoved_icebergFacts hR ht hc s).bind (fun found => ?_) n' hn'
          cases found with
          | some m => exact unmoved_rememberIceberg _
          | none => exact hrefresh _

theorem unmoved_manifestAsOf (name : String) (snapshot : Int) :
    Effects.Keeps (Unmoved V rd n₀) (manifestAsOf R name snapshot) := by
  unfold manifestAsOf
  refine Ends.bind (steady_get name) fun reg => ?_
  rintro n ⟨hn, hreg⟩
  have hc : V reg.compilation := hV name reg (get_ok.1 hreg)
  refine Effects.Keeps.bind (keeps_engine _) (fun b => ?_) n hn
  split
  · next table =>
    refine Ends.bind (steady_loadTable table) fun found => ?_
    rintro n' ⟨hn', rfl⟩
    cases ht : n₀.storage.tables table with
    | none => exact hn'
    | some t =>
      have hfacts : Effects.Keeps (Unmoved V rd n₀)
          (if (t.metadata.snapshotById snapshot).isNone then throw (.invalid s!"{table} has no snapshot {snapshot}")
            else icebergFacts R table t.metadata snapshot reg) := by
        split
        · exact Effects.Keeps.fail _
        · exact unmoved_icebergFacts hR ht hc snapshot
      exact hfacts n' hn'
  · exact Effects.Keeps.fail _

/-- Ensuring one of a snapshot moves none. -/
theorem unmoved_ensureManifestAsOf (name : String) (snapshot : Int) :
    Effects.Keeps (Unmoved V rd n₀) (ensureManifestAsOf R name snapshot) := by
  unfold ensureManifestAsOf
  refine (unmoved_manifestAsOf hR hV name snapshot).bind fun known => ?_
  cases known with
  | some m => exact Effects.Keeps.ret _
  | none => exact (unmoved_refresh hR hV _ _).bind fun _ => Effects.Keeps.ret _

omit hR hV in
theorem unmoved_manifest (name : String) : Effects.Keeps (Unmoved V rd n₀) (manifest name) := by
  unfold manifest
  refine (keeps_engine _).bind fun reg => (keeps_engine _).bind fun b => ?_
  split
  · exact (steady_loadLocal _ _).mono (fun _ => id) (fun _ _ h => h.1) fun _ _ => id
  all_goals exact (steady_touch _).bind fun _ => keeps_engine _

/-- No data moves by anything a statement does to look at it. -/
theorem unmoved_looks : LooksStable R (Unmoved V rd n₀) :=
  ⟨unmoved_ensureManifest hR hV, unmoved_ensureManifestAsOf hR hV, unmoved_manifest⟩

/-- Validating moves none. -/
theorem unmoved_validate (name : String) : Effects.Keeps (Unmoved V rd n₀) (validate R name) := by
  unfold validate
  refine (keeps_engine _).bind fun reg => (keeps_engine _).bind fun b => ?_
  cases b with
  | files l => exact (unmoved_refresh hR hV name none).bind fun _ => Effects.Keeps.ret _
  | table batches =>
    unfold validateTable
    refine ((steady_touch _).bind fun _ => Effects.Keeps.ofExcept _).bind fun verdict => keeps_now.bind fun _ => ?_
    exact (unmoved_rememberTable _).bind fun _ => Effects.Keeps.ret _

/-- A call that begins no write changes no data, and what it records tells of the data. -/
theorem unmoved_call (call : EngineCall) : Effects.Keeps (Unmoved V rd n₀) (call.make R) :=
  CallStable.call ⟨unmoved_looks hR hV, unmoved_validate hR hV, fun _ _ hn => hn.remember rfl rfl rfl,
    fun _ _ hn => hn.remember rfl rfl rfl, fun _ _ hn => hn.remember rfl rfl rfl⟩ call

end Calls

end Peql
