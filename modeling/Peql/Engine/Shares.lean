import Peql.Engine.Deciding

/-!
# The calls of engines, as runs of what they do with facts

What a call reads, computes, records and remembers of contracts' data, it does in steps of a `Sharing`, under the
versions it has looked up (`Sharing.factsStable`). So every run of a fleet is a run of a sharing (`Fleet.Shares.run`),
and a read that a fleet resolves is a read of that run (`reads_shared`).
-/

namespace Peql

open Effects Runs

/-! ## A call, as a run -/

namespace Engine.Like

variable {e e' e'' : Engine}

theorem refl (e : Engine) : e.Like e := ⟨rfl, fun _ => rfl, rfl, rfl, rfl⟩

theorem trans (h : e.Like e') (h' : e'.Like e'') : e.Like e'' where
  versions := h'.versions.trans h.versions
  bound reg := (h'.bound reg).trans (h.bound reg)
  useStored := h'.useStored.trans h.useStored
  objectManifests := h'.objectManifests.trans h.objectManifests
  icebergManifests := h'.icebergManifests.trans h.icebergManifests

theorem get (h : e.Like e') (name : String) : e'.get name = e.get name := by
  unfold Engine.get
  rw [Contents.current_of_versions h.versions]

/-- Engines alike have the same facts in memory. -/
theorem has (h : e.Like e') {l : Location} {name : String} {m : Manifest} (hm : e'.Has l name m) : e.Has l name m := by
  unfold Engine.Has at hm ⊢
  cases l with
  | localDir root => exact hm
  | object url => rwa [h.objectManifests] at hm
  | iceberg table => rwa [h.icebergManifests] at hm

/-- They stay alike when they remember the same facts. -/
theorem rememberFacts (h : e.Like e') (l : Location) (name : String) (m : Manifest) :
    (e.rememberFacts l name m).Like (e'.rememberFacts l name m) := by
  refine ⟨?_, fun reg => ?_, ?_, ?_, ?_⟩
  · rw [store_rememberFacts, store_rememberFacts, h.versions]
  · rw [bound_rememberFacts, bound_rememberFacts, h.bound]
  all_goals
    unfold Engine.rememberFacts
    cases l
  all_goals simp only [h.useStored, h.objectManifests, h.icebergManifests]

theorem forgetFacts (h : e.Like e') (l : Location) (name : String) :
    (e.forgetFacts l name).Like (e'.forgetFacts l name) := by
  refine ⟨?_, fun reg => ?_, ?_, ?_, ?_⟩
  · rw [store_forgetFacts, store_forgetFacts, h.versions]
  · rw [bound_forgetFacts, bound_forgetFacts, h.bound]
  all_goals
    unfold Engine.forgetFacts
    cases l
  all_goals simp only [h.useStored, h.objectManifests, h.icebergManifests]

/-- A read is resolved alike by engines alike. -/
theorem resolution (R : Runtime) (h : e.Like e') (reg : Registered) (caller : Caller) (onViolation : OnReadViolation)
    (m : Manifest) : resolution R e' reg caller onViolation m = resolution R e reg caller onViolation m := by
  unfold Peql.resolution
  rw [h.bound, h.useStored]

end Engine.Like

namespace Sharing

/-- A state that a call of an engine, which began at `σ`, has come to: the other engines are as they were, and the hands
above the first have the versions they had. -/
structure Along (σ : Sharing) (k : Nat) (n : Node) (τ : Sharing) : Prop where
  storage : τ.storage = n.storage
  engine : (τ.engines k).Like n.engine
  versions : n.engine.store.versions = (σ.engines k).store.versions
  bound : ∀ reg, n.engine.bound reg = (σ.engines k).bound reg
  others : ∀ k', k' ≠ k → τ.engines k' = σ.engines k'
  held : ∀ i h, σ.hands (i + 1) = some h → ∃ f, τ.hands (i + 1) = some { h with facts := f }

/-- A call has come to a node. -/
def Reached (V : Compilation → Prop) (σ : Sharing) (k : Nat) (n : Node) : Prop :=
  ∃ as τ, Run (SharingStep V) σ as τ ∧ σ.Along k n τ

/-- It has, with facts of a version in hand. -/
def ReachedWith (V : Compilation → Prop) (σ : Sharing) (k : Nat) (reg : Registered) (m : Manifest) (n : Node) : Prop :=
  ∃ as τ j, Run (SharingStep V) σ as τ ∧ σ.Along k n τ ∧ τ.hands j = some ⟨k, reg, some m⟩

/-- The versions a call has looked up: those its engine has, and those in hand when it began. -/
def Looked (σ : Sharing) (k : Nat) (reg : Registered) : Prop :=
  (σ.engines k).get reg.name = .ok reg ∨ ∃ i f, σ.hands (i + 1) = some ⟨k, reg, f⟩

variable {V : Compilation → Prop} {σ : Sharing} {k : Nat} {n : Node}

/-- A call takes a version it has looked up in hand. -/
theorem Reached.takes (h : σ.Reached V k n) {reg : Registered} (hreg : σ.Looked k reg) :
    ∃ as τ j f, Run (SharingStep V) σ as τ ∧ σ.Along k n τ ∧ τ.hands j = some ⟨k, reg, f⟩ := by
  obtain ⟨as, τ, hrun, halong⟩ := h
  rcases hreg with hget | ⟨i, f, hheld⟩
  · have hknown : (τ.engines k).get reg.name = .ok reg := by
      rw [← halong.engine.get]
      unfold Engine.get
      rw [Contents.current_of_versions halong.versions]
      exact hget
    refine ⟨_, _, 0, none, hrun.snoc (.looks 0 hknown), ⟨halong.storage, halong.engine, halong.versions, halong.bound,
      halong.others, fun i h hi => ?_⟩, setHand_self⟩
    rw [setHand_of_ne (Nat.succ_ne_zero i)]
    exact halong.held i h hi
  · obtain ⟨f', hf'⟩ := halong.held i _ hheld
    exact ⟨as, τ, i + 1, f', hrun, halong, hf'⟩

/-- Facts taken in hand leave the versions the hands have. -/
theorem Along.setFacts {τ : Sharing} (h : σ.Along k n τ) {j : Nat} {hd : Hand} (hj : τ.hands j = some hd)
    (f : Option Manifest) : ∀ i h, σ.hands (i + 1) = some h →
      ∃ f', (τ.setHand j (some { hd with facts := f })).hands (i + 1) = some { h with facts := f' } := by
  intro i hd' hi
  obtain ⟨f', hf'⟩ := h.held i hd' hi
  by_cases hij : i + 1 = j
  · subst hij
    cases hj.symm.trans hf'
    exact ⟨f, setHand_self⟩
  · exact ⟨f', by rwa [setHand_of_ne hij]⟩

/-- **What a call does with facts, it does in steps of a sharing**, under the versions it has looked up. -/
theorem factsStable :
    FactsStable (σ.Looked k) (fun _ => True) (σ.engines k) (σ.Reached V k) (σ.ReachedWith V k) where
  touch n t h := by
    obtain ⟨as, τ, hrun, halong⟩ := h
    exact ⟨as, τ, hrun, ⟨halong.storage, halong.engine, halong.versions, halong.bound, halong.others, halong.held⟩⟩
  like n e he h := by
    obtain ⟨as, τ, hrun, halong⟩ := h
    exact ⟨as, τ, hrun, ⟨halong.storage, halong.engine.trans he, he.versions.trans halong.versions,
      fun reg => (he.bound reg).trans (halong.bound reg), halong.others, halong.held⟩⟩
  fewer n s hs _ h := by
    obtain ⟨as, τ, hrun, halong⟩ := h
    refine ⟨_, _, hrun.snoc (.stores (s := s) fun l name m hm => ?_), ⟨rfl, halong.engine, halong.versions,
      halong.bound, halong.others, halong.held⟩⟩
    rw [halong.storage]
    exact hs l name m hm
  found n reg l m hreg hl hm h := by
    obtain ⟨as, τ, j, f, hrun, halong, hj⟩ := h.takes hreg
    have hfound : τ.Finds k reg m := by
      refine ⟨l, (halong.engine.bound reg).symm.trans ((halong.bound reg).trans hl), ?_⟩
      rw [halong.storage]
      exact hm.imp_right halong.engine.has
    exact ⟨_, _, j, hrun.snoc (.reads hj (.inl rfl) hfound), ⟨halong.storage, halong.engine, halong.versions,
      halong.bound, halong.others, halong.setFacts hj _⟩, setHand_self⟩
  record n reg l m hreg hl hm h := by
    obtain ⟨as, τ, j, f, hrun, halong, hj⟩ := h.takes hreg
    have hbound : (τ.engines k).bound reg = .ok (.files l) :=
      (halong.engine.bound reg).symm.trans ((halong.bound reg).trans hl)
    exact ⟨_, _, j, hrun.snoc (.records hj hbound hm), ⟨congrArg (Storage.record · l m) halong.storage, halong.engine,
      halong.versions, halong.bound, halong.others, halong.setFacts hj _⟩, setHand_self⟩
  remember n reg l m hl h := by
    obtain ⟨as, τ, j, hrun, halong, hj⟩ := h
    have hbound : (τ.engines k).bound reg = .ok (.files l) :=
      (halong.engine.bound reg).symm.trans ((halong.bound reg).trans hl)
    refine ⟨_, _, j, hrun.snoc (.remembers hj hbound rfl), ⟨halong.storage, ?_, ?_, fun reg' => ?_, fun k' hk' => ?_,
      halong.held⟩, hj⟩
    · rw [setEngine_self]
      exact halong.engine.rememberFacts l reg.name m
    · rw [Engine.store_rememberFacts]
      exact halong.versions
    · rw [Engine.bound_rememberFacts]
      exact halong.bound reg'
    · rw [setEngine_of_ne hk']
      exact halong.others k' hk'
  forget n l name h := by
    obtain ⟨as, τ, hrun, halong⟩ := h
    refine ⟨_, _, hrun.snoc (.forgets k l name), ⟨halong.storage, ?_, ?_, fun reg' => ?_, fun k' hk' => ?_,
      halong.held⟩⟩
    · rw [setEngine_self]
      exact halong.engine.forgetFacts l name
    · rw [Engine.store_forgetFacts]
      exact halong.versions
    · rw [Engine.bound_forgetFacts]
      exact halong.bound reg'
    · rw [setEngine_of_ne hk']
      exact halong.others k' hk'
  drop n reg m h := by
    obtain ⟨as, τ, j, hrun, halong, -⟩ := h
    exact ⟨as, τ, hrun, halong⟩
  versions n h := by
    obtain ⟨as, τ, -, halong⟩ := h
    exact halong.versions
  bound n h := by
    obtain ⟨as, τ, -, halong⟩ := h
    exact halong.bound
  looked name reg h := by
    obtain rfl := get_name h
    exact .inl h

end Sharing

/-! ## A fleet, as a sharing -/

/-- A sharing stands for a fleet: the storage is one, the engines are alike, and the version each write was begun under
is in a hand of its own. -/
structure Fleet.Shares (σ : Fleet) (τ : Sharing) : Prop where
  storage : τ.storage = σ.storage
  engines : ∀ k, (τ.engines k).Like (σ.engines k)
  held : ∀ i w, σ.writes i = some w → ∃ f, τ.hands (i + 1) = some ⟨w.engine, w.begun.reg, f⟩
  bound : ∀ i w, σ.writes i = some w → (τ.engines w.engine).bound w.begun.reg = .ok (.files w.begun.location)

namespace Fleet

namespace Shares

variable {R : Runtime} {V : Compilation → Prop} {σ : Fleet} {τ : Sharing} {k : Nat} {now : Int}

/-- A call begins where the fleet is. -/
theorem reached (h : σ.Shares τ) (k : Nat) (now : Int) : τ.Reached V k (σ.node k now) :=
  ⟨[], τ, .nil τ, ⟨h.storage, h.engines k, (h.engines k).versions, (h.engines k).bound, fun _ _ => rfl,
    fun _ _ hi => ⟨_, hi⟩⟩⟩

/-- A state a call has come to stands for the fleet after it. -/
theorem along (h : σ.Shares τ) {n : Node} {υ : Sharing} (halong : τ.Along k n υ) : (σ.after k n).Shares υ := by
  have hbound : ∀ k' reg, (υ.engines k').bound reg = (τ.engines k').bound reg := fun k' reg => by
    by_cases hk : k' = k
    · subst hk
      exact (halong.engine.bound reg).symm.trans (halong.bound reg)
    · rw [halong.others k' hk]
  refine ⟨halong.storage, fun k' => ?_, fun i w hw => ?_, fun i w hw => (hbound _ _).trans (h.bound i w hw)⟩
  · by_cases hk : k' = k
    · subst hk
      rw [after_self]
      exact halong.engine
    · rw [after_of_ne hk, halong.others k' hk]
      exact h.engines k'
  · obtain ⟨f, hf⟩ := h.held i w hw
    exact halong.held i _ hf

/-- A write is over, or there is one more whose version is in its hand. -/
theorem setWrite (h : σ.Shares τ) (i : Nat) {w : Option OpenWrite} (hheld : ∀ w', w = some w' →
    (∃ f, τ.hands (i + 1) = some ⟨w'.engine, w'.begun.reg, f⟩) ∧
      (τ.engines w'.engine).bound w'.begun.reg = .ok (.files w'.begun.location)) : (σ.setWrite i w).Shares τ := by
  have hboth : ∀ j w', (σ.setWrite i w).writes j = some w' →
      (∃ f, τ.hands (j + 1) = some ⟨w'.engine, w'.begun.reg, f⟩) ∧
        (τ.engines w'.engine).bound w'.begun.reg = .ok (.files w'.begun.location) := by
    intro j w' hj
    rcases of_setWrite hj with ⟨rfl, hw⟩ | ⟨-, hold⟩
    · exact hheld w' hw
    · exact ⟨h.held j w' hold, h.bound j w' hold⟩
  exact ⟨h.storage, h.engines, fun j w' hj => (hboth j w' hj).1, fun j w' hj => (hboth j w' hj).2⟩

/-- A write that was begun takes the version it is of in its hand. -/
theorem begins (h : σ.Shares τ) {i : Nat} (hfree : σ.writes i = none) {n : Node} (hn : τ.Reached V k n) {w w' : Begun}
    (hget : (τ.engines k).get w.reg.name = .ok w.reg) (hbound : (τ.engines k).bound w.reg = .ok (.files w.location))
    (hreg : w'.reg = w.reg) (hlocation : w'.location = w.location) :
    ∃ as υ, Run (SharingStep V) τ as υ ∧ ((σ.after k n).setWrite i (some ⟨k, w'⟩)).Shares υ := by
  obtain ⟨as, υ, hrun, halong⟩ := hn
  have hknown : (υ.engines k).get w.reg.name = .ok w.reg := by
    rw [← halong.engine.get]
    unfold Engine.get
    rw [Contents.current_of_versions halong.versions]
    exact hget
  have hshares := h.along halong
  have hset : (σ.after k n).Shares (υ.setHand (i + 1) (some ⟨k, w.reg, none⟩)) := by
    refine ⟨hshares.storage, hshares.engines, fun j w'' hj => ?_, hshares.bound⟩
    have hji : j + 1 ≠ i + 1 := fun hji => by
      obtain rfl := Nat.succ.inj hji
      cases hfree.symm.trans hj
    rw [Sharing.setHand_of_ne hji]
    exact hshares.held j w'' hj
  refine ⟨_, _, hrun.snoc (.looks (i + 1) hknown), hset.setWrite i ?_⟩
  rintro _ ⟨⟩
  refine ⟨⟨none, ?_⟩, ?_⟩
  · rw [Sharing.setHand_self, hreg]
  · rw [hreg, hlocation]
    exact (halong.engine.bound _).symm.trans ((halong.bound _).trans hbound)

/-- **A step of a fleet is a run of the sharing that stands for it.** -/
theorem step (h : σ.Shares τ) {a : FleetAction} {σ' : Fleet} (hstep : FleetStep R V σ a σ') :
    ∃ as υ, Run (SharingStep V) τ as υ ∧ σ'.Shares υ := by
  -- contracts published or withdrawn are the versions they were
  have hsame : ∀ k store, store.versions = (σ.engines k).store.versions → (σ.withStore k store).Shares τ := by
    intro k store hstore
    refine ⟨h.storage, fun k' => ?_, h.held, h.bound⟩
    by_cases hk : k' = k
    · subst hk
      rw [withStore_self]
      have hlike := h.engines k'
      exact ⟨hstore.trans hlike.versions, hlike.bound, hlike.useStored, hlike.objectManifests, hlike.icebergManifests⟩
    · rw [withStore_of_ne hk]
      exact h.engines k'
  cases hstep with
  | @registers k reg compiled =>
    refine ⟨_, _, .cons (.registers (k := k) compiled) (.nil _), h.storage, fun k' => ?_, h.held, fun i w hw => ?_⟩
    · by_cases hk : k' = k
      · subst hk
        rw [withStore_self, Sharing.setEngine_self]
        have hlike := h.engines k'
        exact ⟨congrArg (insertVersion reg) hlike.versions, hlike.bound, hlike.useStored, hlike.objectManifests,
          hlike.icebergManifests⟩
      · rw [withStore_of_ne hk, Sharing.setEngine_of_ne hk]
        exact h.engines k'
    · by_cases hk : w.engine = k
      · subst hk
        rw [Sharing.setEngine_self]
        exact h.bound i w hw
      · rw [Sharing.setEngine_of_ne hk]
        exact h.bound i w hw
  | publishes k name audience => exact ⟨[], τ, .nil τ, hsame k _ rfl⟩
  | unpublishes k name audience => exact ⟨[], τ, .nil τ, hsame k _ rfl⟩
  | calls k now call =>
    obtain ⟨as, υ, hrun, halong⟩ := (Sharing.factsStable.calls.call call).final (h.reached (V := V) k now)
    exact ⟨as, υ, hrun, h.along halong⟩
  | begins free fresh begun =>
    obtain ⟨hn, hget, hbound, -⟩ := (Sharing.factsStable.beginWrite _ _ _ _ _).of_ok (h.reached (V := V) _ _) begun
    exact h.begins free hn (get_name hget ▸ hget) hbound rfl rfl
  | compacts free fresh new begun location found copied =>
    obtain ⟨hn, hbegun⟩ := (Sharing.factsStable.beginCompact _ _ _ _).of_ok (h.reached (V := V) _ _) begun
    obtain ⟨hget, hbound, -⟩ := hbegun _ rfl
    exact h.begins free hn (get_name hget ▸ hget) hbound rfl rfl
  | @writes i w rows files b held data new part =>
    obtain ⟨hreg, hlocation, -⟩ := Begun.writePart_same part
    refine ⟨[], τ, .nil τ, h.setWrite i ?_⟩
    rintro _ ⟨⟩
    rw [hreg, hlocation]
    exact ⟨h.held i w held, h.bound i w held⟩
  | @finishes i now w commit held answers =>
    have hreg : τ.Looked w.engine w.begun.reg := .inr ⟨i, h.held i w held⟩
    obtain ⟨as, υ, hrun, halong⟩ := (Sharing.factsStable.finishWrite w.begun commit hreg (h.bound i w held)
      fun _ _ => trivial).final (h.reached (V := V) w.engine now)
    exact ⟨as, υ, hrun, (h.along halong).setWrite i fun _ hw => nomatch hw⟩
  | drops i => exact ⟨[], τ, .nil τ, h.setWrite i fun _ hw => nomatch hw⟩
  | @commits table sn t found new parent foreign nodup files =>
    have hfewer : ∀ l name m, (τ.storage.changeTable table fun t => { t with metadata := t.metadata.push sn }).Records
        l name m → τ.storage.Records l name m := Storage.records_changeTable fun _ _ _ _ hm => hm
    refine ⟨_, _, .cons (.stores hfewer) (.nil _), ?_, h.engines, h.held, h.bound⟩
    exact congrArg (fun s : Storage => s.changeTable table fun t => { t with metadata := t.metadata.push sn }) h.storage

/-- So is every run of it. -/
theorem run (h : σ.Shares τ) {as : List FleetAction} {σ' : Fleet} (hrun : Run (FleetStep R V) σ as σ') :
    ∃ bs υ, Run (SharingStep V) τ bs υ ∧ σ'.Shares υ :=
  hrun.refines (fun _ _ _ _ hshares hstep => hshares.step hstep) h

end Shares

end Fleet

end Peql
