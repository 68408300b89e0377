import Peql.Engine.Handled
import Peql.Engine.Snapshots

/-!
# The version a read is decided under

A manifest says which compilation of the contract it was computed under, and it is kept under the contract's name
whatever that was. `ensure_manifest`, `iceberg_facts` and `resolve_with` take what is recorded, or remembered, as it is.
`Sharing` is any number of engines over one storage with their calls under way; between two of its awaits a call has in
hand the version of the contract it has looked up and the facts it has read or recorded (`Hand`). A step keeps every
read to facts of the version it enforces exactly when it is taken `Alike` (`Lawful.step_iff`), and a run does throughout
exactly when all its steps are (`decided_by_rules`).
-/

namespace Peql

open Effects Runs

/-! ## Engines that share a storage -/

/-- What a call under way has in hand between two of its awaits: the version it has looked up, and facts of its data. -/
structure Hand where
  engine : Nat
  reg : Registered
  facts : Option Manifest

structure Sharing where
  engines : Nat → Engine
  storage : Storage
  hands : Nat → Option Hand

namespace Sharing

variable (σ : Sharing)

def setEngine (k : Nat) (e : Engine) : Sharing := { σ with engines := Function.update σ.engines k e }

def setHand (j : Nat) (h : Option Hand) : Sharing := { σ with hands := Function.update σ.hands j h }

variable {σ} {k k' j j' : Nat} {e : Engine} {h : Option Hand}

theorem setEngine_self : (σ.setEngine k e).engines k = e := Function.update_self ..

theorem setEngine_of_ne (hk : k' ≠ k) : (σ.setEngine k e).engines k' = σ.engines k' := Function.update_of_ne hk ..

theorem setHand_self : (σ.setHand j h).hands j = h := Function.update_self ..

theorem setHand_of_ne (hj : j' ≠ j) : (σ.setHand j h).hands j' = σ.hands j' := Function.update_of_ne hj ..

end Sharing

/-- The facts were computed under a version's compilation. -/
def Manifest.ComputedUnder (m : Manifest) (reg : Registered) : Prop :=
  m.compilationHash = reg.compilation.contract.compilationHash

/-- What a call under a version finds of its data: facts recorded under the contract's name where the engine has the
data, or facts the engine remembers of it. -/
def Sharing.Finds (σ : Sharing) (k : Nat) (reg : Registered) (m : Manifest) : Prop :=
  ∃ l, (σ.engines k).bound reg = .ok (.files l) ∧
    (σ.storage.Records l reg.name m ∨ (σ.engines k).Has l reg.name m)

inductive SharingAction
  | registers (k : Nat) (reg : Registered)
  | looks (k j : Nat) (name : String)
  | looksAgain (j : Nat)
  | reads (j : Nat) (m : Manifest)
  | records (j : Nat) (m : Manifest)
  | remembers (j : Nat)
  | forgets (k : Nat) (l : Location) (name : String)
  | stores (s : Storage)
  | ends (j : Nat)

/-- What calls do with facts, one storage operation or look into the engine at a time. A validation, a write or a
combination of writes' facts computes them under the version it has looked up. -/
inductive SharingStep (V : Compilation → Prop) : Sharing → SharingAction → Sharing → Prop
  | registers {σ : Sharing} {k : Nat} {reg : Registered} (compiled : V reg.compilation) :
      SharingStep V σ (.registers k reg) (σ.setEngine k { σ.engines k with store := (σ.engines k).store.put reg })
  | looks {σ : Sharing} {k : Nat} (j : Nat) {name : String} {reg : Registered}
      (known : (σ.engines k).get name = .ok reg) :
      SharingStep V σ (.looks k j name) (σ.setHand j (some ⟨k, reg, none⟩))
  /-- A read with a snapshot's facts in hand looks up the version it enforces. -/
  | looksAgain {σ : Sharing} {j : Nat} {h : Hand} {reg : Registered} {m : Manifest} (held : σ.hands j = some h)
      (facts : h.facts = some m) (known : (σ.engines h.engine).get h.reg.name = .ok reg) :
      SharingStep V σ (.looksAgain j) (σ.setHand j (some { h with reg := reg }))
  /-- Facts are read where the engine has the data, under the version in hand or under the one then current. -/
  | reads {σ : Sharing} {j : Nat} {h : Hand} {c : Registered} {m : Manifest} (held : σ.hands j = some h)
      (under : c = h.reg ∨ (σ.engines h.engine).get h.reg.name = .ok c) (found : σ.Finds h.engine c m) :
      SharingStep V σ (.reads j m) (σ.setHand j (some { h with facts := some m }))
  | records {σ : Sharing} {j : Nat} {h : Hand} {l : Location} {m : Manifest} (held : σ.hands j = some h)
      (bound : (σ.engines h.engine).bound h.reg = .ok (.files l)) (under : m.ComputedUnder h.reg) :
      SharingStep V σ (.records j m)
        { σ.setHand j (some { h with facts := some m }) with storage := σ.storage.record l m }
  | remembers {σ : Sharing} {j : Nat} {h : Hand} {l : Location} {m : Manifest} (held : σ.hands j = some h)
      (bound : (σ.engines h.engine).bound h.reg = .ok (.files l)) (facts : h.facts = some m) :
      SharingStep V σ (.remembers j) (σ.setEngine h.engine ((σ.engines h.engine).rememberFacts l h.reg.name m))
  | forgets {σ : Sharing} (k : Nat) (l : Location) (name : String) :
      SharingStep V σ (.forgets k l name) (σ.setEngine k ((σ.engines k).forgetFacts l name))
  /-- Files are written, a table changes or manifests are removed: no facts are recorded. -/
  | stores {σ : Sharing} {s : Storage} (fewer : ∀ l name m, s.Records l name m → σ.storage.Records l name m) :
      SharingStep V σ (.stores s) { σ with storage := s }
  | ends {σ : Sharing} (j : Nat) : SharingStep V σ (.ends j) (σ.setHand j none)

/-! ## The facts reads are decided by -/

namespace Sharing

variable (σ : Sharing)

/-- Every read is decided by facts of the version it enforces: the facts that calls have in hand, and those that a call
which looks up a version now finds. -/
structure Lawful : Prop where
  finds : ∀ k c m, (σ.engines k).get c.name = .ok c → σ.Finds k c m → m.ComputedUnder c
  inHand : ∀ j h m, σ.hands j = some h → h.facts = some m → m.ComputedUnder h.reg

/-- The version a call has looked up is of the compilation its engine now has under the name. -/
def UpToDate (j : Nat) : Prop :=
  ∀ h c, σ.hands j = some h → (σ.engines h.engine).get h.reg.name = .ok c →
    h.reg.compilation.contract.compilationHash = c.compilation.contract.compilationHash

/-- A version becomes an engine's current one only where all that is recorded and remembered of its data is of it; a
call whose version is no longer the current one reads only facts of that version, and with a snapshot's facts in hand
looks up no other; and facts are recorded, or remembered, only where every engine that then has them of its contract's
data has the contract in the compilation they are of. -/
def Alike : SharingAction → Prop
  | .registers k reg => ∀ c m, ((σ.engines k).store.put reg).current reg.name = some c → σ.Finds k c m →
      m.ComputedUnder c
  | .looksAgain j => σ.UpToDate j
  | .reads j m => ∀ h, σ.hands j = some h → σ.UpToDate j ∨ m.ComputedUnder h.reg
  | .records j m => ∀ h l, σ.hands j = some h → (σ.engines h.engine).bound h.reg = .ok (.files l) →
      ∀ k c, (σ.engines k).get c.name = .ok c → (σ.engines k).bound c = .ok (.files l) →
        (σ.storage.record l m).Records l c.name m → m.ComputedUnder c
  | .remembers j => ∀ h l m, σ.hands j = some h → (σ.engines h.engine).bound h.reg = .ok (.files l) →
      h.facts = some m → ∀ c l', (σ.engines h.engine).get c.name = .ok c →
        (σ.engines h.engine).bound c = .ok (.files l') →
          ((σ.engines h.engine).rememberFacts l h.reg.name m).Has l' c.name m → m.ComputedUnder c
  | .looks _ _ _ | .forgets _ _ _ | .stores _ | .ends _ => True

/-- A read is resolved: under the version it has looked up, by the facts it has read. -/
def Reads (R : Runtime) (k : Nat) (reg : Registered) (caller : Caller) (onViolation : OnReadViolation)
    (a : Resolution) (m : Manifest) : Prop :=
  (∃ j, σ.hands j = some ⟨k, reg, some m⟩) ∧ resolution R (σ.engines k) reg caller onViolation m = .ok a

/-- Nothing is known yet. -/
structure Unknown (V : Compilation → Prop) : Prop where
  recorded : ∀ l name m, ¬ σ.storage.Records l name m
  remembered : ∀ k l name m, ¬ (σ.engines k).Has l name m
  idle : ∀ j, σ.hands j = none
  compiled : ∀ k, ∀ reg ∈ (σ.engines k).store.versions, V reg.compilation

/-- Contracts and calls are of compilations of `V`, and the contract of a call under way is still there. -/
structure Known (V : Compilation → Prop) : Prop where
  compiled : ∀ k, ∀ reg ∈ (σ.engines k).store.versions, V reg.compilation
  looked : ∀ j h, σ.hands j = some h → V h.reg.compilation ∧ ∃ c, (σ.engines h.engine).get h.reg.name = .ok c

variable {σ} {V : Compilation → Prop}

theorem Unknown.lawful (h : σ.Unknown V) : σ.Lawful where
  finds k c m _ := by
    rintro ⟨l, -, hrecorded | hhas⟩
    · exact absurd hrecorded (h.recorded l _ m)
    · exact absurd hhas (h.remembered k l _ m)
  inHand j hd m hj := nomatch (h.idle j).symm.trans hj

theorem Unknown.known (h : σ.Unknown V) : σ.Known V where
  compiled := h.compiled
  looked j _ hj := nomatch (h.idle j).symm.trans hj

/-! ### What is known of versions -/

namespace Known

variable {k j : Nat} {a : SharingAction} {τ : Sharing}

/-- A version that is up to date is the current one. -/
theorem current (h : σ.Known V)
    (hV : ∀ c c', V c → V c' → c.contract.compilationHash = c'.contract.compilationHash → c = c') {hd : Hand}
    (hdate : σ.UpToDate j) (hj : σ.hands j = some hd) : (σ.engines hd.engine).get hd.reg.name = .ok hd.reg := by
  obtain ⟨hcompiled, c, hc⟩ := h.looked j hd hj
  have hsame := hV _ _ hcompiled (h.compiled hd.engine c (Contents.current_mem (get_ok.1 hc))) (hdate hd c hj hc)
  obtain ⟨r⟩ := c
  obtain ⟨k, ⟨r'⟩, facts⟩ := hd
  cases hsame
  exact hc

/-- A call takes a version there is in hand. -/
theorem setHand (h : σ.Known V) {hand : Option Hand}
    (hlooked : ∀ hd, hand = some hd → V hd.reg.compilation ∧ ∃ c, (σ.engines hd.engine).get hd.reg.name = .ok c) :
    (σ.setHand j hand).Known V where
  compiled := h.compiled
  looked i hd hi := by
    by_cases hij : i = j
    · subst hij
      exact hlooked hd (setHand_self.symm.trans hi)
    · exact h.looked i hd ((setHand_of_ne hij).symm.trans hi)

/-- An engine loses no contract. -/
theorem setEngine (h : σ.Known V) {e : Engine} (hcompiled : ∀ reg ∈ e.store.versions, V reg.compilation)
    (hnames : ∀ name c, (σ.engines k).get name = .ok c → ∃ c', e.get name = .ok c') : (σ.setEngine k e).Known V where
  compiled k' reg hreg := by
    by_cases hk : k' = k
    · subst hk
      exact hcompiled reg (by rwa [setEngine_self] at hreg)
    · exact h.compiled k' reg (by rwa [setEngine_of_ne hk] at hreg)
  looked j hd hj := by
    obtain ⟨hV, c, hc⟩ := h.looked j hd hj
    refine ⟨hV, ?_⟩
    by_cases hk : hd.engine = k
    · subst hk
      rw [setEngine_self]
      exact hnames _ c hc
    · exact ⟨c, by rwa [setEngine_of_ne hk]⟩

/-- Nor does one that changes its memory. -/
theorem setMemory (h : σ.Known V) {e : Engine} (hstore : e.store = (σ.engines k).store) :
    (σ.setEngine k e).Known V := by
  refine h.setEngine (hstore ▸ h.compiled k) fun name c hc => ⟨c, ?_⟩
  unfold Engine.get
  rw [hstore]
  exact hc

/-- Every step keeps what is known of versions. -/
theorem step (h : σ.Known V) (hstep : SharingStep V σ a τ) : τ.Known V := by
  cases hstep with
  | @registers k reg compiled =>
    refine h.setEngine (fun r hr => ?_) fun name c hc => ?_
    · rcases Contents.mem_put hr with rfl | hr
      · exact compiled
      · exact h.compiled k r hr
    · obtain ⟨c', hc'⟩ := Contents.current_put_isSome reg (get_ok.1 hc)
      exact ⟨c', get_ok.2 hc'⟩
  | @looks k j name reg known =>
    refine h.setHand fun hd hhd => ?_
    cases hhd
    exact ⟨h.compiled k reg (Contents.current_mem (get_ok.1 known)), reg, get_name known ▸ known⟩
  | @looksAgain j hd reg m held facts known =>
    refine h.setHand fun hd' hhd => ?_
    cases hhd
    exact ⟨h.compiled hd.engine reg (Contents.current_mem (get_ok.1 known)), reg, get_name known ▸ known⟩
  | @reads j hd c m held under found =>
    refine h.setHand fun hd' hhd => ?_
    cases hhd
    exact h.looked j hd held
  | @records j hd l m held bound under =>
    have hset : (σ.setHand j (some { hd with facts := some m })).Known V := by
      refine h.setHand fun hd' hhd => ?_
      cases hhd
      exact h.looked j hd held
    exact ⟨hset.compiled, hset.looked⟩
  | remembers held bound facts => exact h.setMemory Engine.store_rememberFacts
  | forgets k l name => exact h.setMemory Engine.store_forgetFacts
  | stores fewer => exact ⟨h.compiled, h.looked⟩
  | ends j => exact h.setHand fun _ hhd => nomatch hhd

end Known

/-! ### A step that keeps the law -/

/-- An action leads to one state. -/
theorem step_eq {a : SharingAction} {τ τ' : Sharing} (h : SharingStep V σ a τ) (h' : SharingStep V σ a τ') :
    τ = τ' := by
  cases h with
  | registers => cases h'; rfl
  | looks _ known =>
    cases h' with
    | looks _ known' =>
      cases known.symm.trans known'
      rfl
  | looksAgain held _ known =>
    cases h' with
    | looksAgain held' _ known' =>
      cases held.symm.trans held'
      cases known.symm.trans known'
      rfl
  | reads held =>
    cases h' with
    | reads held' =>
      cases held.symm.trans held'
      rfl
  | records held bound =>
    cases h' with
    | records held' bound' =>
      cases held.symm.trans held'
      cases bound.symm.trans bound'
      rfl
  | remembers held bound facts =>
    cases h' with
    | remembers held' bound' facts' =>
      cases held.symm.trans held'
      cases bound.symm.trans bound'
      cases facts.symm.trans facts'
      rfl
  | forgets => cases h'; rfl
  | stores => cases h'; rfl
  | ends => cases h'; rfl

namespace Lawful

variable {k j : Nat} {a : SharingAction} {τ : Sharing}

/-- What a call takes in hand decides whether the law stands. -/
theorem setHand_iff (h : σ.Lawful) {hand : Option Hand} : (σ.setHand j hand).Lawful ↔
    ∀ hd m, hand = some hd → hd.facts = some m → m.ComputedUnder hd.reg := by
  constructor
  · intro hτ hd m hhd
    exact hτ.inHand j hd m (setHand_self.trans hhd)
  · refine fun hhand => ⟨h.finds, fun i hd m hi => ?_⟩
    by_cases hij : i = j
    · subst hij
      exact hhand hd m (setHand_self.symm.trans hi)
    · exact h.inHand i hd m ((setHand_of_ne hij).symm.trans hi)

/-- When an engine changes, what it then finds does. -/
theorem setEngine_iff (h : σ.Lawful) {e : Engine} : (σ.setEngine k e).Lawful ↔
    ∀ c l m, e.get c.name = .ok c → e.bound c = .ok (.files l) →
      σ.storage.Records l c.name m ∨ e.Has l c.name m → m.ComputedUnder c := by
  constructor
  · intro hτ c l m hc hl hm
    refine hτ.finds k c m ?_ ⟨l, ?_, ?_⟩
    all_goals rw [setEngine_self]
    · exact hc
    · exact hl
    · exact hm
  · refine fun he => ⟨fun k' c m hc hm => ?_, h.inHand⟩
    obtain ⟨l, hl, hm⟩ := hm
    by_cases hk : k' = k
    · subst hk
      rw [setEngine_self] at hc hl hm
      exact he c l m hc hl hm
    · rw [setEngine_of_ne hk] at hc hl hm
      exact h.finds k' c m hc ⟨l, hl, hm⟩

/-- **A step keeps the law exactly when it is taken alike.** -/
theorem step_iff (h : σ.Lawful) (hknown : σ.Known V)
    (hV : ∀ c c', V c → V c' → c.contract.compilationHash = c'.contract.compilationHash → c = c')
    (hstep : SharingStep V σ a τ) : τ.Lawful ↔ σ.Alike a := by
  cases hstep with
  | @registers k reg compiled =>
    rw [h.setEngine_iff]
    constructor
    · rintro hall c m hc ⟨l, hl, hm⟩
      have hname : c.name = reg.name := Contents.current_name hc
      exact hall c l m (get_ok.2 (hname ▸ hc)) hl hm
    · intro halike c l m hc hl hm
      by_cases hname : c.name = reg.name
      · exact halike c m (hname ▸ get_ok.1 hc) ⟨l, hl, hm⟩
      · exact h.finds k c m (get_ok.2 ((Contents.current_put_of_ne hname).symm.trans (get_ok.1 hc))) ⟨l, hl, hm⟩
  | looks j known =>
    rw [h.setHand_iff]
    refine iff_of_true (fun hd m hhd hm => ?_) trivial
    cases hhd
    cases hm
  | @looksAgain j hd reg m held facts known =>
    rw [h.setHand_iff]
    have hm := h.inHand j hd m held facts
    constructor
    · intro hall hd' c hd'j hc
      cases held.symm.trans hd'j
      cases known.symm.trans hc
      exact hm.symm.trans (hall _ m rfl facts)
    · intro hdate hd' m' hhd hm'
      cases hhd
      cases facts.symm.trans hm'
      exact hm.trans (hdate hd reg held known)
  | @reads j hd c m held under found =>
    rw [h.setHand_iff]
    constructor
    · intro hall hd' hd'j
      cases held.symm.trans hd'j
      exact .inr (hall { hd with facts := some m } m rfl rfl)
    · intro halike hd' m' hhd hm'
      cases hhd
      cases hm'
      rcases halike hd held with hdate | hunder
      · have hcurrent := hknown.current hV hdate held
        obtain rfl : c = hd.reg := under.elim id fun hc => Except.ok.inj (hc.symm.trans hcurrent)
        exact h.finds hd.engine hd.reg m hcurrent found
      · exact hunder
  | @records j hd l m held bound under =>
    have hset : (σ.setHand j (some { hd with facts := some m })).Lawful := by
      refine h.setHand_iff.2 fun hd' m' hhd hm' => ?_
      cases hhd
      cases hm'
      exact under
    constructor
    · intro hτ hd' l' hd'j hl' k c hc hl hm
      cases held.symm.trans hd'j
      cases bound.symm.trans hl'
      exact hτ.finds k c m hc ⟨l, hl, .inl hm⟩
    · refine fun halike => ⟨fun k c m' hc hfinds => ?_, hset.inHand⟩
      obtain ⟨l', hl', hm' | hm'⟩ := hfinds
      · rcases hm'.of_record with ⟨rfl, -, rfl⟩ | hold
        · exact halike hd l' held bound k c hc hl' hm'
        · exact h.finds k c m' hc ⟨l', hl', .inl hold⟩
      · exact h.finds k c m' hc ⟨l', hl', .inr hm'⟩
  | @remembers j hd l m held bound facts =>
    rw [h.setEngine_iff]
    constructor
    · intro hall hd' l' m' hd'j hl' hm' c l'' hc hl'' hhas
      cases held.symm.trans hd'j
      cases bound.symm.trans hl'
      cases facts.symm.trans hm'
      refine hall c l'' m ?_ ((Engine.bound_rememberFacts c).trans hl'') (.inr hhas)
      unfold Engine.get
      rw [Engine.store_rememberFacts]
      exact hc
    · intro halike c l' m' hc hl' hm'
      unfold Engine.get at hc
      rw [Engine.store_rememberFacts] at hc
      rw [Engine.bound_rememberFacts] at hl'
      rcases hm' with hm' | hm'
      · exact h.finds _ c m' hc ⟨l', hl', .inl hm'⟩
      · rcases hm'.of_remember with ⟨-, rfl⟩ | hold
        · exact halike hd l m' held bound facts c l' hc hl' hm'
        · exact h.finds _ c m' hc ⟨l', hl', .inr hold⟩
  | forgets k l name =>
    rw [h.setEngine_iff]
    refine iff_of_true (fun c l' m hc hl' hm => ?_) trivial
    unfold Engine.get at hc
    rw [Engine.store_forgetFacts] at hc
    rw [Engine.bound_forgetFacts] at hl'
    exact h.finds k c m hc ⟨l', hl', hm.imp_right Engine.Has.of_forget⟩
  | @stores s fewer =>
    refine iff_of_true ⟨fun k c m hc hfinds => ?_, h.inHand⟩ trivial
    obtain ⟨l, hl, hm⟩ := hfinds
    exact h.finds k c m hc ⟨l, hl, hm.imp_left (fewer l c.name m)⟩
  | ends j => exact iff_of_true (h.setHand_iff.2 fun _ _ hhd => nomatch hhd) trivial

end Lawful

/-- So a run is lawful throughout exactly when each of its steps is taken alike. -/
theorem Unknown.lawful_iff (h : σ.Unknown V)
    (hV : ∀ c c', V c → V c' → c.contract.compilationHash = c'.contract.compilationHash → c = c')
    {as : List SharingAction} {τ : Sharing} (hrun : Run (SharingStep V) σ as τ) :
    Run (Guarded Alike (SharingStep V)) σ as τ ↔
      ∀ bs υ, bs <+: as → Run (SharingStep V) σ bs υ → υ.Lawful := by
  have hdet : ∀ σ a τ τ', SharingStep V σ a τ → SharingStep V σ a τ' → τ = τ' := fun _ _ _ _ => step_eq
  have hkeeps : ∀ σ a τ, Known σ V → SharingStep V σ a τ → Known τ V := fun _ _ _ hknown hstep => hknown.step hstep
  have hexact : ∀ σ a τ, Known σ V → Lawful σ → SharingStep V σ a τ → (Lawful τ ↔ Alike σ a) :=
    fun _ _ _ hknown hlawful hstep => hlawful.step_iff hknown hV hstep
  exact hrun.guarded_iff (I := fun σ => Known σ V) hdet hkeeps hexact h.known h.lawful

end Sharing

/-- **Reads are decided by facts of the rules they enforce** throughout a run exactly when each step is taken alike. A
read that is, where its facts tell of the files, counts the rows that break the rules. -/
theorem decided_by_rules {R : Runtime} {V : Compilation → Prop} {rd : Compilation → Reading} (hR : Counts R V rd)
    {σ τ : Sharing} {as : List SharingAction} (h : σ.Unknown V) (hrun : Run (SharingStep V) σ as τ) :
    (Run (Guarded Sharing.Alike (SharingStep V)) σ as τ ↔
      ∀ bs υ, bs <+: as → Run (SharingStep V) σ bs υ → υ.Lawful) ∧
    (τ.Lawful → ∀ k reg caller onViolation a m, τ.Reads R k reg caller onViolation a m →
      m.compilationHash = reg.compilation.contract.compilationHash ∧
        ∀ live, Tells V rd live m → CountsOf rd reg.compilation live onViolation a) := by
  refine ⟨h.lawful_iff hR.hashes hrun, fun hlawful k reg caller onViolation a m hread => ?_⟩
  obtain ⟨⟨j, hj⟩, hresolution⟩ := hread
  have hknown : τ.Known V := hrun.inv (I := fun σ => σ.Known V) (fun _ _ _ hknown hstep => hknown.step hstep) h.known
  have hhash : m.compilationHash = reg.compilation.contract.compilationHash := hlawful.inHand j _ m hj rfl
  have hby := resolution_ok hresolution
  exact ⟨hhash, fun live htells => countsOf_of_tells hR (hknown.looked j _ hj).1 htells hhash hby.excluded hby.refused⟩

/-! ## Two versions of the amounts -/

/-- The amounts with no rule. -/
def laxAmounts : Compilation :=
  { amountContract with
    contract := { amountContract.contract with flags := [], contractHash := "c0", compilationHash := "h0" }
    validation := { amountContract.validation with asserts := [], stats := [] } }

/-- The version after it, under which an amount is positive. -/
def strictAmounts : Compilation :=
  { amountContract with
    contract := { amountContract.contract with version := 2, contractHash := "c2", compilationHash := "h2" } }

def LaxOrStrict (c : Compilation) : Prop := c = laxAmounts ∨ c = strictAmounts

/-- A validation that counts, of a version's asserts, the rows that fail. -/
def countedAmounts (c : Compilation) (rows : Multiset Row) : Verdict :=
  { validateAmounts rows with failures := failing c amountReading rows }

def countingRuntime : Runtime := { amountsRuntime with validate := fun c rows => .ok (countedAmounts c rows) }

theorem counts_versions : Counts countingRuntime LaxOrStrict fun _ => amountReading where
  failures c _ rows v hv := by
    obtain rfl := Except.ok.inj hv
    rfl
  asserts c hc f hf := by
    rcases hc with rfl | rfl
    · cases hf
    · obtain rfl := List.mem_singleton.1 hf
      exact List.mem_singleton_self _
  hashes c c' hc hc' hh := by
    rcases hc with rfl | rfl <;> rcases hc' with rfl | rfl
    · rfl
    · exact absurd hh (by decide)
    · exact absurd hh (by decide)
    · rfl

/-- Data with an amount that is not positive. -/
def lossFiles : List StoredFile := [storedAmount "a" (-2)]

/-- Engines over the data with no contract yet, and nothing known of it. -/
def unknownLosses : Sharing :=
  ⟨fun _ => freshEngine .empty fun _ => some amountsDir, emptyStorage.setDir amountsDir ⟨lossFiles, fun _ => .absent⟩,
    fun _ => none⟩

/-- What a validation under a version records. -/
def lossesFacts (c : Compilation) : Manifest :=
  wholeManifest countingRuntime.sha256 c (countedAmounts c (providedRows c.contract false lossFiles))
    (lossFiles.map fun f => f.entryFor c.contract) 5 5 none

theorem unrecorded_losses (l : Location) (name : String) (m : Manifest) :
    ¬ unknownLosses.storage.Records l name m := by
  rintro ⟨at_, h⟩
  cases l with
  | iceberg table => cases h
  | localDir root =>
    by_cases hl : Location.localDir root = amountsDir
    · cases hl
      cases h
    · have hdir : (unknownLosses.storage.dirs (.localDir root)) = emptyStorage.dirs (.localDir root) :=
        Storage.setDir_of_ne _ hl _
      unfold recordedFor at h
      dsimp only at h
      rw [hdir] at h
      cases h
  | object url => cases h

theorem unknown_losses : unknownLosses.Unknown LaxOrStrict where
  recorded := unrecorded_losses
  remembered k l name m h := by cases l <;> cases h
  idle _ := rfl
  compiled k reg hreg := nomatch hreg

/-- The data is validated under the one version and read under the next. -/
def restrictsAmounts : List SharingAction :=
  [.registers 0 ⟨laxAmounts⟩, .looks 0 0 "acme/amounts", .records 0 (lossesFacts laxAmounts), .ends 0,
    .registers 0 ⟨strictAmounts⟩, .looks 0 0 "acme/amounts", .reads 0 (lossesFacts laxAmounts)]

/-- A read that is refused rows that break a rule goes through, by facts of the version without the rule. -/
theorem stale_facts_decide : ∃ τ a, Run (SharingStep LaxOrStrict) unknownLosses restrictsAmounts τ ∧
    τ.Reads countingRuntime 0 ⟨strictAmounts⟩ globexCaller .refuse a (lossesFacts laxAmounts) ∧
    (lossesFacts laxAmounts).compilationHash ≠ strictAmounts.contract.compilationHash ∧ a.excluded = [] ∧
    (τ.storage.dirs amountsDir).files = lossFiles ∧
      (providedRows strictAmounts.contract false lossFiles).countP (fun r => amountReading.fails "positive" r) = 1 := by
  refine ⟨_, _, .cons (.registers (.inl rfl)) (.cons (.looks 0 rfl) (.cons (.records rfl rfl rfl) (.cons (.ends 0)
    (.cons (.registers (.inr rfl)) (.cons (.looks 0 rfl) (.cons (.reads rfl (.inl rfl) ?_) (.nil _))))))),
    ⟨⟨0, rfl⟩, rfl⟩, by decide, rfl, rfl, rfl⟩
  exact ⟨amountsDir, rfl, .inl ⟨none, rfl⟩⟩

/-- Two engines, the one validates the data under the second version and the other reads it. -/
def agreesOnAmounts : List SharingAction :=
  [.registers 0 ⟨laxAmounts⟩, .registers 1 ⟨strictAmounts⟩, .registers 0 ⟨strictAmounts⟩, .looks 0 0 "acme/amounts",
    .records 0 (lossesFacts strictAmounts), .looks 1 1 "acme/amounts", .reads 1 (lossesFacts strictAmounts)]

/-- Where nothing is recorded or remembered, nothing is found. -/
theorem Sharing.not_finds {σ : Sharing} {k : Nat} {c : Registered} {m : Manifest}
    (hrecorded : ∀ l name m, ¬ σ.storage.Records l name m) (hhas : ∀ l, ¬ (σ.engines k).Has l c.name m) :
    ¬ σ.Finds k c m := by
  rintro ⟨l, -, hm | hm⟩
  · exact hrecorded l c.name m hm
  · exact hhas l hm

theorem agreesOnAmounts_run :
    ∃ τ a, Run (Guarded Sharing.Alike (SharingStep LaxOrStrict)) unknownLosses agreesOnAmounts τ ∧
      τ.Reads countingRuntime 1 ⟨strictAmounts⟩ globexCaller .exclude a (lossesFacts strictAmounts) := by
  have hhas : ∀ {e : Engine} {l name m}, e.objectManifests = Lookup.empty → e.icebergManifests = Lookup.empty →
      ¬ e.Has l name m := by
    intro e l name m ho hi h
    cases l with
    | localDir root => exact h
    | object url => cases (congrFun ho name).symm.trans h
    | iceberg table => cases (congrFun hi name).symm.trans h
  refine ⟨_, _, .cons ⟨fun c m _ hm => ?_, .registers (.inl rfl)⟩ (.cons ⟨fun c m _ hm => ?_, .registers (.inr rfl)⟩
    (.cons ⟨fun c m _ hm => ?_, .registers (.inr rfl)⟩ (.cons ⟨trivial, .looks 0 rfl⟩
      (.cons ⟨?_, .records rfl rfl rfl⟩ (.cons ⟨trivial, .looks 1 rfl⟩
        (.cons ⟨fun h hj => ?_, .reads rfl (.inl rfl) ⟨amountsDir, rfl, .inl ⟨none, rfl⟩⟩⟩ (.nil _))))))),
    ⟨⟨1, rfl⟩, rfl⟩⟩
  · exact absurd hm (Sharing.not_finds unrecorded_losses fun _ => hhas rfl rfl)
  · exact absurd hm (Sharing.not_finds unrecorded_losses fun _ => hhas rfl rfl)
  · exact absurd hm (Sharing.not_finds unrecorded_losses fun _ => hhas rfl rfl)
  · -- only the two engines have a contract, and both have the second version
    intro h l hj _ k c hc _ _
    cases hj
    have hstrict : ∀ {s : Contents}, (∀ reg ∈ s.versions, LaxOrStrict reg.compilation) →
        s.current "acme/amounts" = some ⟨strictAmounts⟩ → s.current c.name = some c → c = ⟨strictAmounts⟩ := by
      intro s hs hcurrent hc
      obtain ⟨r⟩ := c
      rcases hs _ (Contents.current_mem hc) with rfl | rfl
      · exact Option.some.inj (hc.symm.trans hcurrent)
      · rfl
    by_cases h1 : k = 1
    · subst h1
      rw [hstrict (fun reg hreg => ?_) rfl (get_ok.1 hc)]
      · rfl
      · obtain rfl := List.mem_singleton.1 hreg
        exact .inr rfl
    by_cases h0 : k = 0
    · subst h0
      rw [hstrict (fun reg hreg => ?_) rfl (get_ok.1 hc)]
      · rfl
      · rcases List.mem_pair.1 hreg with rfl | rfl
        · exact .inl rfl
        · exact .inr rfl
    · simp only [Sharing.setHand, Sharing.setEngine, Function.update_of_ne h0, Function.update_of_ne h1] at hc
      cases hc
  · cases hj
    exact .inr rfl

theorem decided_by_rules_amounts :
    ∃ τ a, Run (Guarded Sharing.Alike (SharingStep LaxOrStrict)) unknownLosses agreesOnAmounts τ ∧
      (∀ bs υ, bs <+: agreesOnAmounts → Run (SharingStep LaxOrStrict) unknownLosses bs υ → υ.Lawful) ∧
      τ.Reads countingRuntime 1 ⟨strictAmounts⟩ globexCaller .exclude a (lossesFacts strictAmounts) ∧
      (lossesFacts strictAmounts).compilationHash = strictAmounts.contract.compilationHash ∧
      CountsOf (fun _ => amountReading) strictAmounts lossFiles .exclude a := by
  obtain ⟨τ, a, hguarded, hread⟩ := agreesOnAmounts_run
  obtain ⟨hiff, hcounts⟩ := decided_by_rules counts_versions unknown_losses hguarded.of_guarded
  have hlawful := hiff.1 hguarded
  obtain ⟨hhash, hcounts⟩ := hcounts (hlawful _ τ List.prefix_rfl hguarded.of_guarded) _ _ _ _ _ _ hread
  exact ⟨τ, a, hguarded, hlawful, hread, hhash, hcounts lossFiles (tells_whole counts_versions (.inr rfl) rfl 5 5 none)⟩

end Peql
