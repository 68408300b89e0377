import Peql.Store.Reopen

/-!
# A store whose files spoil

Bundle files may cease to load: another version of parcel wrote them, or they are torn. Beside the store runs a record
of every version put with success. The store serves rightly when each name has the highest version recorded for its
current version, or none (`Aging.Serves`). Whether it does after a reopening rests on what still loads (`Keeps`).
-/

namespace Peql

open ContractDirs

/-- A store, and every version put in it with success. -/
structure Aging where
  store : DirStore
  registered : Contents

inductive AgeAction
  | calls (a : DirAction)
  | spoils (p : Place) (version : Nat) (cause : String)

/-- What a call adds to the record. -/
def DirAction.record (m : Contents) : DirAction → Contents
  | .puts r none => m.put r
  | _ => m

inductive AgeStep : Aging → AgeAction → Aging → Prop
  | calls {s : Aging} {a : DirAction} {t : DirStore} (h : DirStep s.store a t) :
      AgeStep s (.calls a) ⟨t, a.record s.registered⟩
  | spoils (s : Aging) (p : Place) (version : Nat) (cause : String) :
      AgeStep s (.spoils p version cause)
        { s with store := { s.store with disk := s.store.disk.putBundle p version (.spoiled cause) } }

namespace Aging

/-- A store opened over a new directory. -/
def new : Aging := ⟨DirStore.new, .empty⟩

/-- No name has for its current version any other than the highest registered. -/
def Serves (s : Aging) : Prop := ∀ name, s.store.current name = none ∨ s.store.current name = s.registered.current name

/-- What is on disk was put there, each file in its place. -/
structure Stored (s : Aging) : Prop where
  placed : s.store.disk.Placed
  registered : ∀ r, s.store.disk.Holds r → r ∈ s.registered.versions

end Aging

/-- When a step leaves a store that serves so: a version put of a name that is not served is no lower than those
registered; a store is opened while of each name the highest version registered loads, or none. -/
def Keeps (s : Aging) : AgeAction → Prop
  | .calls (.puts r none) =>
    s.store.current r.name ≠ none ∨ ∀ h, s.registered.current r.name = some h → h.version ≤ r.version
  | .calls (.reopens _) =>
    ∀ name h, s.registered.current name = some h → s.store.disk.Holds h ∨ ∀ r, s.store.disk.Holds r → r.name ≠ name
  | _ => True

theorem AgeStep.eq {s t t' : Aging} {a : AgeAction} (h : AgeStep s a t) (h' : AgeStep s a t') : t = t' := by
  cases h with
  | calls hs =>
    cases h' with
    | calls hs' => rw [hs.eq hs']
  | spoils p version cause => cases h'; rfl

/-! ## What is stored -/

/-- Putting a version leaves of those stored the ones it does not replace. -/
theorem holds_put {k : ContractDirs} (hk : k.Placed) {r x : Registered}
    (h : (k.putBundle (contractDir r.name) r.version (.loads r)).Holds x) : x = r ∨ k.Holds x ∧ x.key ≠ r.key := by
  by_cases hd : ∃ d, contractDir r.name = .child d
  · obtain ⟨d, hd⟩ := hd
    rw [hd] at h
    refine ((holds_putBundle hk hd).1 h).imp_right fun ⟨hold, hapart⟩ => ⟨hold, fun heq => hapart ?_⟩
    obtain ⟨hname, hversion⟩ := Registered.key_eq.1 heq
    exact ⟨hname ▸ hd, hversion⟩
  · have hold : k.Holds x := (holds_putBundle_other fun d hd' => hd ⟨d, hd'⟩).1 h
    refine .inr ⟨hold, fun heq => hd ?_⟩
    obtain ⟨d, v, hb⟩ := hold
    rw [← (Registered.key_eq.1 heq).1]
    exact ⟨d, (hk.bundles _ _ _ hb).1⟩

theorem bundle_spoil {k : ContractDirs} {p q : Place} {v w : Nat} {cause : String} {r : Registered}
    (h : (k.putBundle p v (.spoiled cause)).bundle q w = some (.loads r)) : k.bundle q w = some (.loads r) := by
  rw [bundle_putBundle] at h
  split at h
  · cases h
  · exact h

/-- A call and a spoiled file leave on disk what was put there. -/
theorem AgeStep.stored {s t : Aging} {a : AgeAction} (hs : AgeStep s a t) (h : s.Stored) : t.Stored := by
  cases hs with
  | @calls a t hcall =>
    refine ⟨hcall.placed h.placed, ?_⟩
    cases hcall with
    | puts r fault =>
      cases fault with
      | some e => exact h.registered
      | none =>
        intro x hx
        refine Contents.mem_put_iff.2 ((holds_put h.placed hx).imp_right fun ⟨hold, hk⟩ => ?_)
        exact ⟨h.registered x hold, hk⟩
    | publishes name audience save =>
      intro x hx
      cases save with
      | done => exact h.registered x (holds_putAudiences.1 hx)
      | kept e => exact h.registered x hx
      | torn e cause => exact h.registered x (holds_putAudiences.1 hx)
    | unpublishes name audience save =>
      intro x hx
      cases save with
      | done => exact h.registered x (holds_putAudiences.1 hx)
      | kept e => exact h.registered x hx
      | torn e cause => exact h.registered x (holds_putAudiences.1 hx)
    | reopens hl ho =>
      rw [(openStore_spec h.placed hl ho).1]
      exact h.registered
  | spoils p version cause =>
    refine ⟨⟨fun q v r hb => h.placed.bundles q v r (bundle_spoil hb), fun d f hf => ?_⟩, ?_⟩
    · rw [audiences_putBundle] at hf
      exact h.placed.audiences d f hf
    · rintro r ⟨d, v, hb⟩
      exact h.registered r ⟨d, v, bundle_spoil hb⟩

/-! ## What is served -/

/-- A version put is served rightly when its name is served, or it is no lower than those registered. -/
theorem serves_put_iff {s : Aging} (h : s.Serves) (r : Registered) :
    Aging.Serves ⟨(s.store.put r none).1, s.registered.put r⟩ ↔ Keeps s (.calls (.puts r none)) := by
  constructor
  · intro h'
    by_contra hnot
    obtain ⟨hnone, hlower⟩ := not_or.1 hnot
    obtain ⟨c, hc, hlt⟩ : ∃ c, s.registered.current r.name = some c ∧ r.version < c.version := by
      by_contra hall
      refine hlower fun c hc => ?_
      by_contra hle
      exact hall ⟨c, hc, not_le.1 hle⟩
    -- Nothing of the name is served, so what is put is; and a higher version is registered.
    have hnone := not_not.1 hnone
    have hcurrent : (s.store.memory.put r).current r.name = some r :=
      Contents.current_put_self fun c' hc' => (nomatch hnone.symm.trans hc')
    rcases h' r.name with hnil | heq
    · cases hnil.symm.trans hcurrent
    · obtain rfl := Option.some.inj (hcurrent.symm.trans (heq.trans (Contents.current_put_of_lt hc hlt)))
      exact lt_irrefl _ hlt
  · intro hkeeps name
    have hsplit : (s.store.put r none).1.current name = (s.store.memory.put r).current name := rfl
    rw [hsplit]
    by_cases hname : name = r.name
    · subst hname
      right
      change (s.store.memory.put r).current r.name = (s.registered.put r).current r.name
      rcases h r.name with hnone | heq
      · have hle := hkeeps.resolve_left fun hserved => hserved hnone
        have hcurrent : (s.store.memory.put r).current r.name = some r :=
          Contents.current_put_self fun c hc => (nomatch hnone.symm.trans hc)
        rw [hcurrent, Contents.current_put_self hle]
      · have heq : s.store.memory.current r.name = s.registered.current r.name := heq
        cases hc : s.registered.current r.name with
        | none =>
          rw [hc] at heq
          rw [Contents.current_put_self fun c hc' => (nomatch heq.symm.trans hc'),
            Contents.current_put_self fun c hc' => (nomatch hc.symm.trans hc')]
        | some c =>
          rw [hc] at heq
          by_cases hlt : r.version < c.version
          · rw [Contents.current_put_of_lt heq hlt, Contents.current_put_of_lt hc hlt]
          · rw [Contents.current_put_self fun c' hc' => ?_, Contents.current_put_self fun c' hc' => ?_]
            · exact Option.some.inj (hc.symm.trans hc') ▸ not_lt.1 hlt
            · exact Option.some.inj (heq.symm.trans hc') ▸ not_lt.1 hlt
    · rw [Contents.current_put_of_ne hname, Contents.current_put_of_ne hname]
      exact h name

/-- A store opened serves rightly when of each name the highest version loads, or none. -/
theorem serves_reopen_iff {s : Aging} (h : s.Stored) {t : DirStore} {listed : List (String × ContractDir)}
    (hl : listed.Perm s.store.disk.children) (ho : openStore s.store.disk listed = .ok t) :
    Aging.Serves ⟨t, s.registered⟩ ↔ Keeps s (.calls (.reopens listed)) := by
  obtain ⟨_, hver, _⟩ := openStore_spec h.placed hl ho
  constructor
  · intro h' name c hc
    rcases h' name with hnone | heq
    · right
      intro r hr
      exact Contents.current_eq_none.1 hnone r ((hver r).2 hr)
    · left
      have hcurrent : t.memory.current name = some c := heq.trans hc
      exact (hver c).1 (Contents.current_mem hcurrent)
  · intro hkeeps name
    cases hc : s.registered.current name with
    | none =>
      left
      refine Contents.current_eq_none.2 fun r hr => ?_
      exact Contents.current_eq_none.1 hc r (h.registered r ((hver r).1 hr))
    | some c =>
      obtain ⟨_, hname, hmax⟩ := Contents.current_eq_some.1 hc
      rcases hkeeps name c hc with hold | hnone
      · right
        refine Contents.current_eq_some.2 ⟨(hver c).2 hold, hname, fun x hx => ?_⟩
        exact hmax x (h.registered x ((hver x).1 hx))
      · left
        exact Contents.current_eq_none.2 fun r hr => hnone r ((hver r).1 hr)

/-- From a store that serves rightly, a step leads to one that does exactly when it meets its condition. -/
theorem AgeStep.serves_iff {s t : Aging} {a : AgeAction} (hst : s.Stored) (h : s.Serves) (hs : AgeStep s a t) :
    t.Serves ↔ Keeps s a := by
  cases hs with
  | @calls a t hcall =>
    cases hcall with
    | puts r fault =>
      cases fault with
      | some e => exact iff_of_true h trivial
      | none => exact serves_put_iff h r
    | publishes name audience save =>
      refine iff_of_true ?_ trivial
      cases save <;> exact h
    | unpublishes name audience save =>
      refine iff_of_true ?_ trivial
      cases save <;> exact h
    | reopens hl ho => exact serves_reopen_iff hst hl ho
  | spoils p version cause => exact iff_of_true h trivial

theorem new_stored : Aging.new.Stored := ⟨Placed.empty, fun _ ⟨_, _, hb⟩ => (nomatch hb)⟩

theorem new_serves : Aging.new.Serves := fun _ => .inl rfl

/-- Every state a run of a new store goes through serves rightly exactly when every step of the run meets its
condition. -/
theorem serves_iff_keeps {s : Aging} {as : List AgeAction} (h : Runs.Run AgeStep Aging.new as s) :
    (∀ bs u, bs <+: as → Runs.Run AgeStep Aging.new bs u → u.Serves) ↔
      Runs.Run (Runs.Guarded Keeps AgeStep) Aging.new as s := by
  have hdet : ∀ s a t t', AgeStep s a t → AgeStep s a t' → t = t' := fun _ _ _ _ hs hs' => hs.eq hs'
  have hstored : ∀ s a t, s.Stored → AgeStep s a t → t.Stored := fun _ _ _ hst hs => hs.stored hst
  exact (h.guarded_iff hdet hstored (fun _ _ _ hst hr hs => hs.serves_iff hst hr) new_stored new_serves).symm

/-! ## Two versions, and the second spoils -/

theorem dirStep_reopens {s : DirStore} (h : s.disk.Whole) :
    ∃ t, DirStep s (.reopens s.disk.children) t ∧ openStore s.disk s.disk.children = .ok t := by
  obtain ⟨t, ho⟩ := (exists_openStore_iff (List.Perm.refl _)).2 h
  exact ⟨t, .reopens (List.Perm.refl _) ho, ho⟩

/-- The two versions put, and the file of one spoiled. -/
def twoVersions (spoiled : Nat) : Aging :=
  let s := ((DirStore.new.put (euContract 1) none).1.put (euContract 2) none).1
  { store := { s with disk := s.disk.putBundle (.child "acme__eu") spoiled (.spoiled "compiled by parcel 0.0.0") }
    registered := (Contents.empty.put (euContract 1)).put (euContract 2) }

theorem twoVersions_run (spoiled : Nat) : Runs.Run (Runs.Guarded Keeps AgeStep) Aging.new
    [.calls (.puts (euContract 1) none), .calls (.puts (euContract 2) none),
      .spoils (.child "acme__eu") spoiled "compiled by parcel 0.0.0"] (twoVersions spoiled) := by
  refine .cons ⟨.inr fun _ hc => (nomatch hc), .calls (.puts _ _ _)⟩ ?_
  have hcurrent : (Contents.empty.put (euContract 1)).current (euContract 2).name = some (euContract 1) :=
    @Contents.current_put_self _ (euContract 1) fun _ hc => (nomatch hc)
  refine .cons ⟨.inl fun hnone => (nomatch hnone.symm.trans hcurrent), .calls (.puts _ _ _)⟩ ?_
  exact .cons ⟨trivial, .spoils _ _ _ _⟩ (.nil _)

theorem twoVersions_whole (spoiled : Nat) : (twoVersions spoiled).store.disk.Whole := fun d c hf => by
  unfold twoVersions DirStore.put at hf
  simp only [audiences_putBundle] at hf
  cases hf

theorem twoVersions_bundle (spoiled v : Nat) : (twoVersions spoiled).store.disk.bundle (.child "acme__eu") v =
    if v = spoiled then some (.spoiled "compiled by parcel 0.0.0")
    else if v = 2 then some (.loads (euContract 2)) else if v = 1 then some (.loads (euContract 1)) else none := by
  have hput : ∀ (k : ContractDirs) (version w : Nat),
      (k.putBundle (contractDir (euContract version).name) version (.loads (euContract version))).bundle
        (.child "acme__eu") w = if w = version then some (.loads (euContract version)) else
          k.bundle (.child "acme__eu") w := fun k version w => by
    rw [bundle_putBundle, euContract_dir]
    simp
  unfold twoVersions DirStore.put
  rw [bundle_putBundle]
  simp only [true_and]
  refine if_congr Iff.rfl rfl ((hput _ 2 v).trans ?_)
  exact if_congr Iff.rfl rfl ((hput _ 1 v).trans rfl)

theorem twoVersions_current (spoiled : Nat) :
    (twoVersions spoiled).registered.current "acme/eu" = some (euContract 2) := by
  have hcurrent : (Contents.empty.put (euContract 1)).current (euContract 2).name = some (euContract 1) :=
    @Contents.current_put_self _ (euContract 1) fun _ hc => (nomatch hc)
  refine @Contents.current_put_self _ (euContract 2) fun c hc => ?_
  rw [← Option.some.inj (hcurrent.symm.trans hc)]
  decide

/-- The lower version spoils: the higher is served, before and after the store is opened again. -/
theorem lower_spoiled_serves :
    ∃ listed s, Runs.Run AgeStep Aging.new
        [.calls (.puts (euContract 1) none), .calls (.puts (euContract 2) none),
          .spoils (.child "acme__eu") 1 "compiled by parcel 0.0.0", .calls (.reopens listed)] s ∧
      ∀ bs u, bs <+: [.calls (.puts (euContract 1) none), .calls (.puts (euContract 2) none),
          .spoils (.child "acme__eu") 1 "compiled by parcel 0.0.0", .calls (.reopens listed)] →
        Runs.Run AgeStep Aging.new bs u → u.Serves := by
  obtain ⟨t, hstep, _⟩ := dirStep_reopens (twoVersions_whole 1)
  have hkeeps : Keeps (twoVersions 1) (.calls (.reopens (twoVersions 1).store.disk.children)) := by
    intro name h hc
    left
    have hname : name = "acme/eu" := by
      have hmem := Contents.current_mem hc
      rw [← Contents.current_name hc]
      rcases Contents.mem_put hmem with rfl | hmem
      · rfl
      rcases Contents.mem_put hmem with rfl | hmem
      · rfl
      · cases hmem
    subst hname
    obtain rfl := Option.some.inj ((twoVersions_current 1).symm.trans hc)
    exact ⟨"acme__eu", 2, twoVersions_bundle 1 2⟩
  have hrun := (twoVersions_run 1).snoc ⟨hkeeps, .calls hstep⟩
  exact ⟨_, _, hrun.of_guarded, (serves_iff_keeps hrun.of_guarded).2 hrun⟩

/-- The higher version spoils: the lower, and its rules, are served in its place once the store is opened again. -/
theorem higher_spoiled_falls_back :
    ∃ listed s, Runs.Run AgeStep Aging.new
        [.calls (.puts (euContract 1) none), .calls (.puts (euContract 2) none),
          .spoils (.child "acme__eu") 2 "compiled by parcel 0.0.0", .calls (.reopens listed)] s ∧
      s.store.current "acme/eu" = some (euContract 1) ∧ s.registered.current "acme/eu" = some (euContract 2) ∧
      ¬ s.Serves := by
  obtain ⟨t, hstep, ho⟩ := dirStep_reopens (twoVersions_whole 2)
  have hrun := (twoVersions_run 2).of_guarded.snoc (.calls hstep)
  have hstored := (twoVersions_run 2).of_guarded.inv (fun _ _ _ hst hs => AgeStep.stored hs hst) new_stored
  obtain ⟨_, hver, _⟩ := openStore_spec hstored.placed (List.Perm.refl _) ho
  have hcurrent : t.current "acme/eu" = some (euContract 1) := by
    refine Contents.current_eq_some.2 ⟨(hver _).2 ⟨"acme__eu", 1, twoVersions_bundle 2 1⟩, rfl, fun x hx _ => ?_⟩
    obtain ⟨d, v, hb⟩ := (hver x).1 hx
    have hreg := hstored.registered x ⟨d, v, hb⟩
    rcases Contents.mem_put hreg with rfl | hreg
    · -- The second version is where its file does not load.
      obtain ⟨hd, rfl⟩ := hstored.placed.bundles _ _ _ hb
      rw [← hd, euContract_dir, twoVersions_bundle] at hb
      cases hb
    rcases Contents.mem_put hreg with rfl | hreg
    · exact le_rfl
    · cases hreg
  refine ⟨_, _, hrun, hcurrent, twoVersions_current 2, fun h => ?_⟩
  rcases h "acme/eu" with hnone | heq
  · cases hnone.symm.trans hcurrent
  · have hone : some (euContract 1) = some (euContract 2) := hcurrent.symm.trans (heq.trans (twoVersions_current 2))
    have hversion : Registered.version (euContract 1) = Registered.version (euContract 2) :=
      congrArg Registered.version (Option.some.inj hone)
    exact absurd hversion (by decide)

end Peql
