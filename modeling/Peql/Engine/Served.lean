import Peql.Engine.Reconciled
import Peql.Engine.Serving

/-!
# A cached answer is the answer

What is known of a query in flight is known of each contract it has read (`ContractRead.Sound`): which compilation it
was read as, under which parameters, shapes and facts. What the cache holds under a key is the answer of an execution
whose query had that key (`Serving.Sound`). Two queries with one key have read the same contracts alike, since the key
gives back what it was made of.
-/

namespace Peql

open Effects Runs

/-! ## What a query knows of a contract -/

section Known

variable (R : Runtime) (V : Compilation → Prop)

structure ResolvedRead.Sound (call : QueryCall) (r : ResolvedRead) : Prop where
  among : V r.resolvedAs
  name : r.resolution.contract = r.ref.table
  hash : r.resolution.compilationHash = r.resolvedAs.contract.compilationHash
  shapes : ∃ active, R.activeShapes r.resolvedAs.contract call.caller = .ok active ∧
    r.resolution.shapes = active.map ShapeRule.id
  registered : ∃ registry ∈ call.registries, ∃ reg, registry.current r.ref.table = some reg ∧
    reg.compilation = r.resolvedAs
  fresh : r.asked = none → ∀ w ∈ call.before, w.1 = r.ref.table → w.2 ≤ r.facts.writtenAt

structure ViewedRead.Sound (call : QueryCall) (r : ViewedRead) : Prop where
  resolved : r.toResolvedRead.Sound R V call
  viewedAs : r.viewedAs = r.resolvedAs
  scanned : r.scanned = r.facts.dataHash
  view : ∃ params, R.paramValues r.resolvedAs.contract call.caller = .ok params ∧
    r.view = contractView R.enrichment r.resolvedAs.contract r.resolution.flagsMaterialised (Lookup.ofList params)

structure ContractRead.Sound (call : QueryCall) (r : ContractRead) : Prop where
  viewed : r.toViewedRead.Sound R V call
  keyedAs : r.keyedAs = r.resolvedAs
  params : R.paramValues r.resolvedAs.contract call.caller = .ok r.params
  active : R.activeShapes r.resolvedAs.contract call.caller = .ok r.active
  separated : Separated (r.part R).1 ∧ Separated (r.part R).2

/-- What is known of a query at its stage. -/
def QueryStage.Sound (call : QueryCall) : QueryStage → Prop
  | .next | .seen .. => True
  | .ensured _ asked pinned => pinned.isSome = asked.isSome
  | .resolved r => r.Sound R V call
  | .viewed r => r.Sound R V call
  | .prepared p | .missed p | .collected p _ => p.cacheKey = call.key R ∧ call.Described

structure QueryCall.Sound (call : QueryCall) : Prop where
  reads : ∀ r ∈ call.reads, r.Sound R V call
  stage : call.stage.Sound R V call

/-- What is known of an engine and its queries. -/
structure Serving.Sound (σ : Serving) : Prop where
  registry : σ.node.engine.store.Of V
  current : ∀ k call, σ.calls k = some call → σ.node.engine.store ∈ call.registries
  calls : ∀ k call, σ.calls k = some call → call.Sound R V
  collected : ∀ k call p batches, σ.calls k = some call → call.stage = .collected p batches →
    ∃ e ∈ σ.executions, e.call.key R = p.cacheKey ∧ e.batches = batches
  executions : ∀ e ∈ σ.executions, (∀ r ∈ e.call.reads, r.Sound R V e.call) ∧ e.call.Described
  held : ∀ key entry, σ.node.engine.Held key entry → ∃ e ∈ σ.executions, e.call.key R = key ∧ e.batches = entry.batches
  answers : ∀ a ∈ σ.answers, ∃ e ∈ a.earlier, ServedFor R e a

/-- Compilations are told apart by their hashes, which are written without bars. -/
structure HashesApart : Prop where
  apart : ∀ c c', V c → V c' → c.contract.compilationHash = c'.contract.compilationHash → c = c'
  bare : ∀ c, V c → '|' ∉ c.contract.compilationHash.toList

/-- The values two callers have for a contract's parameters are the same where `Debug` shows them alike. -/
def ParamsShown : Prop :=
  ∀ cc caller caller' ps qs, R.paramValues cc caller = .ok ps → R.paramValues cc caller' = .ok qs →
    asShown R ps = asShown R qs → ps = qs

end Known

variable {R : Runtime} {V : Compilation → Prop}

/-! ## It stays known -/

/-- A query is a later state of another. -/
structure QueryCall.Later (call call' : QueryCall) : Prop where
  question : call'.toQuestion = call.toQuestion
  registries : ∀ s ∈ call.registries, s ∈ call'.registries

/-- What a query has resolved stays sound as it goes on. -/
theorem ResolvedRead.Sound.later {call call' : QueryCall} {r : ResolvedRead} (hl : call.Later call')
    (h : r.Sound R V call) : r.Sound R V call' where
  among := h.among
  name := h.name
  hash := h.hash
  shapes := by
    rw [congrArg Question.caller hl.question]
    exact h.shapes
  registered := by
    obtain ⟨registry, hmem, hreg⟩ := h.registered
    exact ⟨registry, hl.registries registry hmem, hreg⟩
  fresh := by
    rw [congrArg Question.before hl.question]
    exact h.fresh

/-- So does a view it has made. -/
theorem ViewedRead.Sound.later {call call' : QueryCall} {r : ViewedRead} (hl : call.Later call')
    (h : r.Sound R V call) :
    r.Sound R V call' where
  resolved := h.resolved.later hl
  viewedAs := h.viewedAs
  scanned := h.scanned
  view := by
    rw [congrArg Question.caller hl.question]
    exact h.view

/-- So does a contract it has read. -/
theorem ContractRead.Sound.later {call call' : QueryCall} {r : ContractRead} (hl : call.Later call')
    (h : r.Sound R V call) : r.Sound R V call' where
  viewed := h.viewed.later hl
  keyedAs := h.keyedAs
  params := by
    rw [congrArg Question.caller hl.question]
    exact h.params
  active := by
    rw [congrArg Question.caller hl.question]
    exact h.active
  separated := h.separated

/-- The stage it is in stays sound. -/
theorem QueryStage.Sound.later {call call' : QueryCall} {stage : QueryStage} (hl : call.Later call')
    (hreads : call'.reads = call.reads) (hdescribed : call'.described = call.described) (h : stage.Sound R V call) :
    stage.Sound R V call' := by
  cases stage with
  | next | seen => trivial
  | ensured t asked pinned => exact h
  | resolved r => exact ResolvedRead.Sound.later hl h
  | viewed r => exact ViewedRead.Sound.later hl h
  | prepared p | missed p | collected p batches =>
    obtain ⟨hkey, hd⟩ := h
    constructor
    · rw [hkey]
      unfold QueryCall.key
      rw [congrArg Question.sql hl.question, hreads]
    · intro d hmem
      rw [hdescribed] at hmem
      rw [hreads]
      exact hd d hmem

/-! ## Two queries with one key -/

/-- The view of a contract, under the parameters its key has. -/
theorem ContractRead.Sound.view_eq {call : QueryCall} {r : ContractRead} (h : r.Sound R V call) :
    r.view = contractView R.enrichment r.resolvedAs.contract r.resolution.flagsMaterialised
      (Lookup.ofList r.params) := by
  obtain ⟨params, hparams, hview⟩ := h.viewed.view
  rwa [Except.ok.inj (h.params.symm.trans hparams)]

/-- The shapes in a contract's fingerprint are those that were applied. -/
theorem ContractRead.Sound.shapes_eq {call : QueryCall} {r : ContractRead} (h : r.Sound R V call) :
    r.resolution.shapes = r.active.map ShapeRule.id := by
  obtain ⟨active, hactive, hshapes⟩ := h.viewed.resolved.shapes
  rwa [Except.ok.inj (h.active.symm.trans hactive)]

/-- A contract read soundly is read under one version. -/
theorem ContractRead.Sound.readAs {call : QueryCall} {r : ContractRead} (h : r.Sound R V call) :
    r.ReadAs r.resolvedAs :=
  ⟨rfl, h.viewed.viewedAs, h.keyedAs⟩

/-- A contract whose part of two keys is one was read alike. -/
theorem servesRead (hV : HashesApart V) (hR : ParamsShown R) {call call' : QueryCall} {r s : ContractRead}
    (hr : r.Sound R V call') (hs : s.Sound R V call) (h : r.part R = s.part R) : ServesRead R call r s := by
  have hname : r.ref.table = s.ref.table := congrArg Prod.fst h
  have hbar : ∀ {call r}, ContractRead.Sound R V call r → '|' ∉ r.resolution.compilationHash.toList := by
    intro call r hr
    rw [hr.viewed.resolved.hash]
    exact hV.bare _ hr.viewed.resolved.among
  obtain ⟨hhash, hparams, hshapes, hfacts⟩ := fingerprint_inj (hbar hr) (hbar hs) (congrArg Prod.snd h)
  rw [hr.viewed.resolved.hash, hs.viewed.resolved.hash] at hhash
  have hsame : r.resolvedAs = s.resolvedAs := hV.apart _ _ hr.viewed.resolved.among hs.viewed.resolved.among hhash
  have hparamsR := hr.params
  rw [hsame] at hparamsR
  have hparams := hR _ _ _ _ _ hparamsR hs.params hparams
  exact {
    name := hname
    compilation := ⟨hsame ▸ hr.readAs, hs.readAs⟩
    params := hparams
    shapes := by rw [← hr.shapes_eq, ← hs.shapes_eq, hshapes]
    facts := hfacts
    scanned := hr.viewed.scanned.trans hfacts.1
    view := ⟨_, _, by rw [hr.view_eq, hsame, hparams], hs.view_eq⟩
    registered := hs.viewed.resolved.registered
    fresh := fun hasked w hw hwname => by
      rw [hfacts.2.1]
      exact hs.viewed.resolved.fresh hasked w hw hwname }

/-- A query is served what an execution with its key gave. -/
theorem servedFor (hsha : Function.Injective R.sha256) (hV : HashesApart V) (hR : ParamsShown R) {e : Execution}
    {a : CachedAnswer} (he : ∀ r ∈ e.call.reads, r.Sound R V e.call) (hed : e.call.Described)
    (ha : ∀ r ∈ a.call.reads, r.Sound R V a.call) (had : a.call.Described) (hkey : e.call.key R = a.call.key R)
    (hbatches : a.batches = e.batches) : ServedFor R e a := by
  have hparts : ∀ {call : QueryCall}, (∀ r ∈ call.reads, r.Sound R V call) →
      ∀ part ∈ call.reads.map fun r => r.part R, Separated part.1 ∧ Separated part.2 := by
    intro call hcall part hpart
    obtain ⟨r, hr, rfl⟩ := List.mem_map.1 hpart
    exact (hcall r hr).separated
  obtain ⟨hsql, hreads⟩ := CacheKey.new_inj hsha (hparts he) (hparts ha) hkey
  have hall : List.Forall₂ (fun r s => r.part R = s.part R) e.call.reads a.call.reads := by
    have heq := List.forall₂_eq_eq_eq ▸ hreads
    rwa [List.forall₂_map_left_iff, List.forall₂_map_right_iff] at heq
  have hexecuted := (List.forall₂_and_left _ _).2 ⟨he, hall⟩
  have hboth : List.Forall₂ (fun s r => ContractRead.Sound R V a.call s ∧ ContractRead.Sound R V e.call r ∧
      r.part R = s.part R) a.call.reads e.call.reads :=
    (List.forall₂_and_left _ _).2 ⟨ha, List.Forall₂.flip hexecuted⟩
  have hserves : List.Forall₂ (flip (ServesRead R a.call)) a.call.reads e.call.reads :=
    hboth.imp fun s r h => servesRead hV hR h.2.1 h.1 h.2.2
  exact ⟨hbatches, hsql.symm, hserves.flip, hed, had⟩

/-! ## What a step keeps -/

namespace Serving.Sound

variable {σ : Serving} (h : σ.Sound R V)

include h

/-- A query takes a step that leaves the registry alone and brings nothing into the cache. -/
theorem goes {k : Nat} {n : Node} {call' : Option QueryCall} (hstore : n.engine.store = σ.node.engine.store)
    (hheld : ∀ key entry, n.engine.Held key entry → σ.node.engine.Held key entry)
    (hcurrent : ∀ call, call' = some call → σ.node.engine.store ∈ call.registries)
    (hcall : ∀ call, call' = some call → call.Sound R V)
    (hcollected : ∀ call p batches, call' = some call → call.stage = .collected p batches →
      ∃ e ∈ σ.executions, e.call.key R = p.cacheKey ∧ e.batches = batches) :
    ({ σ.setCall k call' with node := n } : Serving).Sound R V where
  registry := by
    show n.engine.store.Of V
    rw [hstore]
    exact h.registry
  current k' call hk' := by
    show n.engine.store ∈ call.registries
    rw [hstore]
    by_cases hk : k' = k
    · subst hk
      exact hcurrent call ((Serving.setCall_self σ k' call').symm.trans hk')
    · exact h.current k' call ((Serving.setCall_of_ne hk call').symm.trans hk')
  calls k' call hk' := by
    by_cases hk : k' = k
    · subst hk
      exact hcall call ((Serving.setCall_self σ k' call').symm.trans hk')
    · exact h.calls k' call ((Serving.setCall_of_ne hk call').symm.trans hk')
  collected k' call p batches hk' := by
    by_cases hk : k' = k
    · subst hk
      exact hcollected call p batches ((Serving.setCall_self σ k' call').symm.trans hk')
    · exact h.collected k' call p batches ((Serving.setCall_of_ne hk call').symm.trans hk')
  executions := h.executions
  held key entry he := h.held key entry (hheld key entry he)
  answers := h.answers

/-- A query ends, or goes on, with nothing else changed. -/
theorem setCall {k : Nat} {call' : Option QueryCall}
    (hcurrent : ∀ call, call' = some call → σ.node.engine.store ∈ call.registries)
    (hcall : ∀ call, call' = some call → call.Sound R V)
    (hcollected : ∀ call p batches, call' = some call → call.stage ≠ .collected p batches) :
    (σ.setCall k call').Sound R V :=
  h.goes (n := σ.node) rfl (fun _ _ => id) hcurrent hcall fun call p batches hk hstage =>
    absurd hstage (hcollected call p batches hk)

/-- Anything else the engine does keeps the account, if no answers come into the cache by it. -/
theorem moved {n : Node} (hheld : ∀ key entry, n.engine.Held key entry → σ.node.engine.Held key entry)
    (hV : n.engine.store.Of V) : (σ.moved n).Sound R V := by
  have hcalls : ∀ {k call}, (σ.moved n).calls k = some call → ∃ call₀, σ.calls k = some call₀ ∧
      call = { call₀ with registries := call₀.registries ++ [n.engine.store] } := by
    intro k call hk
    obtain ⟨call₀, hcall₀, hcall⟩ := Option.map_eq_some_iff.1 hk
    exact ⟨call₀, hcall₀, hcall.symm⟩
  refine ⟨hV, fun k call hk => ?_, fun k call hk => ?_, fun k call p batches hk hstage => ?_, h.executions,
    fun key entry he => h.held key entry (hheld key entry he), h.answers⟩
  · obtain ⟨call₀, _, rfl⟩ := hcalls hk
    exact List.mem_append_right _ (List.mem_singleton.2 rfl)
  · obtain ⟨call₀, hk₀, rfl⟩ := hcalls hk
    have hlater : call₀.Later { call₀ with registries := call₀.registries ++ [n.engine.store] } :=
      ⟨rfl, fun _ hs => List.mem_append_left _ hs⟩
    have hsound := h.calls k call₀ hk₀
    exact ⟨fun r hr => (hsound.reads r hr).later hlater, hsound.stage.later hlater rfl rfl⟩
  · obtain ⟨call₀, hk₀, rfl⟩ := hcalls hk
    exact h.collected k call₀ p batches hk₀ hstage

end Serving.Sound

/-- A contract found is the registry's current one. -/
theorem current_of_get {e : Engine} {name : String} {reg : Registered} (h : e.get name = .ok reg) :
    e.store.current name = some reg := by
  unfold Engine.get at h
  cases hc : e.store.current name with
  | none =>
    rw [hc] at h
    cases h
  | some r =>
    rw [hc] at h
    rw [Except.ok.inj h]

/-- The shapes a resolution lists are the caller's. -/
theorem resolution_shapes {e : Engine} {reg : Registered} {caller : Caller} {onViolation : OnReadViolation}
    {m : Manifest}
    {a : Resolution} (h : resolution R e reg caller onViolation m = .ok a) :
    ∃ active, R.activeShapes reg.compilation.contract caller = .ok active ∧ a.shapes = active.map ShapeRule.id := by
  unfold resolution at h
  dsimp only at h
  split at h
  · cases h
  split at h
  · cases h
  simp only [Peql.bind_eq_ok] at h
  obtain ⟨annotations, _, active, hactive, bound, _, h⟩ := h
  cases h
  exact ⟨active, hactive, rfl⟩

namespace Serving.Sound

variable {σ : Serving} {k : Nat} {call : QueryCall} (h : σ.Sound R V) (hk : σ.calls k = some call)

include h hk

/-- A contract resolved is known, its facts being no older than the writes finished before. -/
theorem resolves {t : TableRef} {asked : Option Int} {pinned : Option Manifest} {reg : Registered} {a : Resolution}
    {m : Manifest} {n : Node} (hstage : call.stage = .ensured t asked pinned)
    (hreg : σ.node.engine.visible t.table call.caller = .ok reg)
    (hresolve : resolvePinned R t.table call.caller call.onViolation pinned σ.node = .ok (a, m) n)
    (hg : Undisturbed R σ (.resolves k)) :
    (σ.goes k n (call.goes (.resolved ⟨t, asked, reg.compilation, a, m⟩))).Sound R V := by
  obtain ⟨reg', hreg', hn, hres, hmanifest⟩ := resolvePinned_ok hresolve
  obtain rfl : reg = reg' := Except.ok.inj (hreg.symm.trans hreg')
  have hcurrent := current_of_get (get_of_visible hreg)
  have hby := resolution_ok hres
  have hpinned : pinned.isSome = asked.isSome := by
    have hsound := (h.calls k call hk).stage
    rw [hstage] at hsound
    exact hsound
  have hread : ResolvedRead.Sound R V call ⟨t, asked, reg.compilation, a, m⟩ := {
    among := h.registry t.table reg hcurrent
    name := hby.contract.trans (Contents.current_name hcurrent)
    hash := hby.compilationHash
    shapes := resolution_shapes hres
    registered := ⟨_, h.current k call hk, reg, hcurrent, rfl⟩
    fresh := by
      rintro rfl
      obtain rfl := Option.not_isSome_iff_eq_none.1 (Bool.not_eq_true _ ▸ hpinned)
      exact hg call t m hk hstage (hmanifest rfl) }
  have hlater : call.Later (call.goes (.resolved ⟨t, asked, reg.compilation, a, m⟩)) := ⟨rfl, fun _ => id⟩
  refine h.goes hn.store hn.holds ?_ ?_ ?_
  · rintro _ ⟨⟩
    exact h.current k call hk
  · rintro _ ⟨⟩
    exact ⟨fun r hr => ((h.calls k call hk).reads r hr).later hlater, hread.later hlater⟩
  · rintro _ p batches ⟨⟩ ⟨⟩

/-- A contract viewed is the one resolved, and its view scans the data its facts are of. -/
theorem views {r : ResolvedRead} {reg : Registered} {view : Plan} {rows : Multiset Row} {scanned : String} {n : Node}
    (hstage : call.stage = .resolved r) (hreg : σ.node.engine.visible r.ref.table call.caller = .ok reg)
    (hview : contractViewFor R r.ref.table call.caller r.resolution σ.node = .ok (view, rows) n)
    (hscan : Effects.outcome (scannedHash R r.ref.table reg r.resolution) σ.node = .ok scanned)
    (hg : Undisturbed R σ (.views k)) :
    (σ.goes k n (call.goes (.viewed ⟨r, reg.compilation, view, rows, scanned⟩))).Sound R V := by
  obtain ⟨reg', params, hreg', _, hparams, hview'⟩ := contractViewFor_ok hview
  obtain rfl : reg = reg' := Except.ok.inj (hreg.symm.trans hreg')
  have hn : Beside σ.node n := (keeps_contractViewFor r.ref.table call.caller r.resolution).of_ok (Beside.refl _) hview
  obtain ⟨hsame, hscanned⟩ := hg call r reg scanned hk hstage (get_of_visible hreg)
  have hr : r.Sound R V call := by
    have hsound := (h.calls k call hk).stage
    rwa [hstage] at hsound
  have hread : ViewedRead.Sound R V call ⟨r, reg.compilation, view, rows, scanned⟩ := {
    resolved := hr
    viewedAs := hsame
    scanned := hscanned hscan
    view := ⟨params, hsame ▸ hparams, hsame ▸ hview'⟩ }
  have hlater : call.Later (call.goes (.viewed ⟨r, reg.compilation, view, rows, scanned⟩)) := ⟨rfl, fun _ => id⟩
  refine h.goes hn.store hn.holds ?_ ?_ ?_
  · rintro _ ⟨⟩
    exact h.current k call hk
  · rintro _ ⟨⟩
    exact ⟨fun r hr => ((h.calls k call hk).reads r hr).later hlater, hread.later hlater⟩
  · rintro _ p batches ⟨⟩ ⟨⟩

/-- A contract is keyed by its own parameters and shapes. -/
theorem keys {r : ViewedRead} {reg : Registered} {active : List ShapeRule} {params : List (String × Value)}
    (hstage : call.stage = .viewed r) (hreg : σ.node.engine.get r.ref.table = .ok reg)
    (hactive : R.activeShapes reg.compilation.contract call.caller = .ok active)
    (hparams : R.paramValues reg.compilation.contract call.caller = .ok params)
    (hseparable : Separable R σ (.keys k)) (hg : Undisturbed R σ (.keys k)) :
    (σ.setCall k (some { call with
      reads := call.reads ++ [⟨r, reg.compilation, active, params⟩], stage := .next })).Sound R V := by
  have hsame : reg.compilation = r.resolvedAs := hg call r hk hstage reg hreg
  have hr : r.Sound R V call := by
    have hsound := (h.calls k call hk).stage
    rwa [hstage] at hsound
  have hread : ContractRead.Sound R V call ⟨r, reg.compilation, active, params⟩ := {
    viewed := hr
    keyedAs := hsame
    params := hsame ▸ hparams
    active := hsame ▸ hactive
    separated := hseparable call r reg params hk hstage hreg hparams }
  have hlater : call.Later { call with
      reads := call.reads ++ [⟨r, reg.compilation, active, params⟩], stage := .next } :=
    ⟨rfl, fun _ => id⟩
  refine h.setCall ?_ ?_ ?_
  · rintro _ ⟨⟩
    exact h.current k call hk
  · rintro _ ⟨⟩
    refine ⟨fun s hs => ?_, trivial⟩
    rcases List.mem_append.1 hs with hs | hs
    · exact ((h.calls k call hk).reads s hs).later hlater
    · obtain rfl := List.mem_singleton.1 hs
      exact hread.later hlater
  · rintro _ p batches ⟨⟩ ⟨⟩

end Serving.Sound

/-- Every search of a statement that is planned is over a contract it reads. -/
theorem searched_read {caller : Caller} {resolutions : List Resolution} {searches : List Search} {udfs : List VectorUdf}
    {n m : Node} (h : searchFunctions R caller resolutions searches n = .ok udfs m) :
    ∀ s ∈ searches, ∃ r ∈ resolutions, r.contract = s.table := by
  induction searches generalizing n m udfs with
  | nil => simp
  | cons s rest ih =>
    unfold searchFunctions at h
    split at h
    · next hany =>
      obtain ⟨r, hr, hname⟩ := List.any_eq_true.1 hany
      obtain ⟨schema, l, _, h⟩ := Effects.bind_eq_ok.1 h
      obtain ⟨udf, _, h⟩ := Effects.ofExcept_bind_ok.1 h
      obtain ⟨udfs, l', hrest, _⟩ := Effects.bind_eq_ok.1 h
      intro s' hs'
      rcases List.mem_cons.1 hs' with rfl | hs'
      · exact ⟨r, hr, of_decide_eq_true hname⟩
      · exact ih hrest s' hs'
    · cases h

/-- A planned statement has the key of what it read, and its searches are over what it read. -/
theorem planOver_ok {q : Question} {done : Resolved} {p : Prepared} {n m : Node} (h : planOver R q done n = .ok p m) :
    p.cacheKey = CacheKey.new R.sha256 q.sql done.fingerprints ∧
      ∀ s ∈ q.searches, ∃ r ∈ done.resolutions, r.contract = s.table := by
  unfold planOver at h
  obtain ⟨_, _, h⟩ := Effects.ofExcept_bind_ok.1 h
  obtain ⟨udfs, l, hudfs, h⟩ := Effects.bind_eq_ok.1 h
  obtain ⟨plan, _, h⟩ := Effects.ofExcept_bind_ok.1 h
  obtain ⟨_, _, h⟩ := Effects.ofExcept_bind_ok.1 h
  obtain ⟨optimized, _, h⟩ := Effects.ofExcept_bind_ok.1 h
  obtain ⟨shaped, _, h⟩ := Effects.ofExcept_bind_ok.1 h
  cases h
  exact ⟨rfl, searched_read hudfs⟩

namespace Serving.Sound

variable {σ : Serving} {k : Nat} {call : QueryCall} (h : σ.Sound R V) (hk : σ.calls k = some call)

include h hk

/-- A planned query has the key of what it read. -/
theorem plans {p : Prepared} {n : Node}
    (hplan : planOver R call.toQuestion (.ofReads R call.reads) σ.node = .ok p n) (hg : Undisturbed R σ (.plans k)) :
    (σ.goes k n { call with
      described := describedAs σ.node.engine call.searches, stage := .prepared p }).Sound R V := by
  obtain ⟨hkey, hsearched⟩ := planOver_ok hplan
  have hn : Beside σ.node n := (keeps_planOver _ _ _).of_ok (Beside.refl _) hplan
  have hlater : call.Later { call with described := describedAs σ.node.engine call.searches, stage := .prepared p } :=
    ⟨rfl, fun _ => id⟩
  refine h.goes hn.store hn.holds ?_ ?_ ?_
  · rintro _ ⟨⟩
    exact h.current k call hk
  · rintro _ ⟨⟩
    refine ⟨fun r hr => ((h.calls k call hk).reads r hr).later hlater, hkey, fun d hd => ?_⟩
    obtain ⟨s, hs, hd⟩ := List.mem_filterMap.1 hd
    obtain ⟨reg, hreg, rfl⟩ := Option.map_eq_some_iff.1 hd
    obtain ⟨resolution, hmem, hname⟩ := hsearched s hs
    obtain ⟨r, hr, rfl⟩ := List.mem_map.1 hmem
    have hget : σ.node.engine.get s.table = .ok reg := by
      cases hg' : σ.node.engine.get s.table with
      | ok reg' =>
        rw [hg'] at hreg
        exact congrArg _ (Option.some.inj hreg)
      | error e =>
        rw [hg'] at hreg
        cases hreg
    exact ⟨r, hr, hname, (hg call hk s hs r hr hname reg hget).symm⟩
  · rintro _ p batches ⟨⟩ ⟨⟩

end Serving.Sound

/-! ### The cache -/

/-- A look-up finds what is held, and brings nothing in. -/
theorem cached_ok {key : CacheKey} {found : Option (List Batch)} {n m : Node} (h : cached key n = .ok found m) :
    m.engine.store = n.engine.store ∧ (∀ k entry, m.engine.Held k entry → n.engine.Held k entry) ∧
      ∀ batches, found = some batches → ∃ entry, n.engine.Held key entry ∧ entry.batches = batches := by
  unfold cached at h
  rw [Effects.bind_apply, Effects.get_apply] at h
  dsimp only at h
  cases hc : n.engine.cache with
  | none =>
    rw [hc] at h
    cases h
    refine ⟨rfl, fun _ _ => id, ?_⟩
    rintro batches ⟨⟩
  | some c =>
    rw [hc] at h
    obtain ⟨_, l, hl, h⟩ := Effects.bind_eq_ok.1 h
    cases hl
    cases h
    refine ⟨rfl, fun k entry hheld => ?_, fun batches hfound => ?_⟩
    · obtain ⟨c', hc', hentry⟩ := hheld
      obtain rfl := Option.some.inj hc'
      exact ⟨c, hc, QueryCache.held_of_get hentry⟩
    · obtain ⟨entry, hentry, hbatches⟩ := QueryCache.held_of_found hfound
      exact ⟨entry, ⟨c, hc, hentry⟩, hbatches⟩

/-- An answer put is held, or what was held before is. -/
theorem cachePut_ok {key : CacheKey} {batches : List Batch} {n m : Node} (h : cachePut R key batches n = .ok () m) :
    m.engine.store = n.engine.store ∧ ∀ k entry, m.engine.Held k entry →
      k = key ∧ entry.batches = batches ∨ n.engine.Held k entry := by
  unfold cachePut at h
  rw [Effects.bind_apply, Effects.get_apply] at h
  dsimp only at h
  cases h
  refine ⟨rfl, fun k entry hheld => ?_⟩
  obtain ⟨c', hc', hentry⟩ := hheld
  obtain ⟨c, hc, rfl⟩ := Option.map_eq_some_iff.1 hc'
  rcases QueryCache.held_of_put hentry with ⟨rfl, rfl⟩ | ⟨_, hold⟩
  · exact .inl ⟨rfl, rfl⟩
  · exact .inr ⟨c, hc, hold⟩

/-- Charging changes neither registry nor cache. -/
theorem beside_charge {n : Node} (caller : Caller) (charges : List (String × ℚ)) :
    Effects.Keeps (Beside n) (charge caller charges) := by
  unfold charge
  split
  · exact Effects.Keeps.ret _
  · exact Effects.Keeps.read fun m hm =>
      (Effects.Keeps.write fun _ h => ⟨h.store, h.cache⟩).bind fun _ => Effects.Keeps.ofExcept _

/-- Nor does executing. -/
theorem beside_execute {n : Node} (p : Prepared) (caller : Caller) : Effects.Keeps (Beside n) (execute R p caller) := by
  unfold execute planned
  refine Effects.Keeps.bind ?_ fun _ => (Effects.Keeps.ofExcept _).bind fun _ => Effects.Keeps.ret _
  exact (Effects.Keeps.ofExcept _).bind fun _ => (beside_charge _ _).bind fun _ => Effects.Keeps.ret _

namespace Serving.Sound

variable {σ : Serving} {k : Nat} {call : QueryCall} (h : σ.Sound R V) (hk : σ.calls k = some call)

include h hk

/-- A query answered from the cache is served an execution's answer. -/
theorem hits (hsha : Function.Injective R.sha256) (hV : HashesApart V) (hR : ParamsShown R) {p : Prepared}
    {batches : List Batch} {n : Node} (hstage : call.stage = .prepared p)
    (hcached : cached p.cacheKey σ.node = .ok (some batches) n) : (σ.answered k n call batches).Sound R V := by
  obtain ⟨hstore, hheld, hfound⟩ := cached_ok hcached
  obtain ⟨entry, hentry, hbatches⟩ := hfound batches rfl
  obtain ⟨e, he, hkey, hgave⟩ := h.held _ _ hentry
  have hsound := h.calls k call hk
  obtain ⟨hcallKey, hdescribed⟩ : p.cacheKey = call.key R ∧ call.Described := by
    have hst := hsound.stage
    rwa [hstage] at hst
  obtain ⟨hreads, hexecuted⟩ := h.executions e he
  have hserved : ServedFor R e ⟨call, batches, σ.executions⟩ :=
    servedFor hsha hV hR hreads hexecuted hsound.reads hdescribed (hkey.trans hcallKey) (hbatches.symm.trans hgave.symm)
  have hends : ({ σ.setCall k none with node := n } : Serving).Sound R V := by
    refine h.goes hstore hheld ?_ ?_ ?_
    · rintro _ ⟨⟩
    · rintro _ ⟨⟩
    · rintro _ _ _ ⟨⟩
  exact {
    registry := hends.registry
    current := hends.current
    calls := hends.calls
    collected := hends.collected
    executions := hends.executions
    held := hends.held
    answers := by
      intro a ha
      rcases List.mem_cons.1 ha with rfl | ha
      · exact ⟨e, he, hserved⟩
      · exact h.answers a ha }

/-- A miss leaves the account. -/
theorem misses {p : Prepared} {n : Node} (hstage : call.stage = .prepared p)
    (hcached : cached p.cacheKey σ.node = .ok none n) : (σ.goes k n (call.goes (.missed p))).Sound R V := by
  obtain ⟨hstore, hheld, _⟩ := cached_ok hcached
  have hsound := h.calls k call hk
  have hst := hsound.stage
  rw [hstage] at hst
  have hlater : call.Later (call.goes (.missed p)) := ⟨rfl, fun _ => id⟩
  refine h.goes hstore hheld ?_ ?_ ?_
  · rintro _ ⟨⟩
    exact h.current k call hk
  · rintro _ ⟨⟩
    exact ⟨fun r hr => (hsound.reads r hr).later hlater, hst⟩
  · rintro _ p batches ⟨⟩ ⟨⟩

/-- What a query's execution gives is kept with what the query read. -/
theorem executes {p : Prepared} {batches : List Batch} {n : Node} (hstage : call.stage = .missed p)
    (hexec : execute R p call.caller σ.node = .ok batches n) : (σ.executed k n call p batches).Sound R V := by
  have hn : Beside σ.node n := (beside_execute p call.caller).of_ok (Beside.refl _) hexec
  have hsound := h.calls k call hk
  have hst := hsound.stage
  rw [hstage] at hst
  have hmore : ∀ {P : Execution → Prop}, (∃ e ∈ σ.executions, P e) → ∃ e ∈ ⟨call, batches⟩ :: σ.executions, P e :=
    fun ⟨e, he, hp⟩ => ⟨e, List.mem_cons_of_mem _ he, hp⟩
  have hlater : call.Later (call.goes (.collected p batches)) := ⟨rfl, fun _ => id⟩
  have hexecuted : ({ σ with executions := ⟨call, batches⟩ :: σ.executions } : Serving).Sound R V := {
    registry := h.registry
    current := h.current
    calls := h.calls
    collected := fun k' call' p' batches' hk' hst' => hmore (h.collected k' call' p' batches' hk' hst')
    executions := by
      intro e he
      rcases List.mem_cons.1 he with rfl | he
      · exact ⟨hsound.reads, hst.2⟩
      · exact h.executions e he
    held := fun key entry hheld => hmore (h.held key entry hheld)
    answers := h.answers }
  refine hexecuted.goes (k := k) (n := n) hn.store hn.holds ?_ ?_ ?_
  · rintro _ ⟨⟩
    exact h.current k call hk
  · rintro _ ⟨⟩
    exact ⟨fun r hr => (hsound.reads r hr).later hlater, hst⟩
  · rintro _ p' batches' ⟨⟩ ⟨⟩
    exact ⟨⟨call, batches⟩, List.mem_cons_self, hst.1.symm, rfl⟩

/-- An answer kept is one just executed. -/
theorem keeps {p : Prepared} {batches : List Batch} {n : Node} (hstage : call.stage = .collected p batches)
    (hput : cachePut R p.cacheKey batches σ.node = .ok () n) : (σ.kept k n).Sound R V := by
  obtain ⟨hstore, hheld⟩ := cachePut_ok hput
  obtain ⟨e, he, hkey, hgave⟩ := h.collected k call p batches hk hstage
  have hends : (σ.setCall k none).Sound R V := by
    refine h.setCall ?_ ?_ ?_
    · rintro _ ⟨⟩
    · rintro _ ⟨⟩
    · rintro _ _ _ ⟨⟩
  exact {
    registry := by
      show n.engine.store.Of V
      rw [hstore]
      exact h.registry
    current := by
      show ∀ k' call', (σ.setCall k none).calls k' = some call' → n.engine.store ∈ call'.registries
      rw [hstore]
      exact hends.current
    calls := hends.calls
    collected := hends.collected
    executions := hends.executions
    held := by
      intro key entry hentry
      rcases hheld key entry hentry with ⟨rfl, hbatches⟩ | hold
      · exact ⟨e, he, hkey, hgave.trans hbatches.symm⟩
      · exact h.held key entry hold
    answers := hends.answers }

end Serving.Sound

/-- What is known stays known, whatever an engine's queries and all else do, while no query is disturbed. -/
theorem Serving.Sound.step (hsha : Function.Injective R.sha256) (hV : HashesApart V) (hR : ParamsShown R)
    {σ τ : Serving}
    {a : QueryAction} (h : σ.Sound R V) (hg : Separable R σ a ∧ Undisturbed R σ a) (hs : ServingStep R V σ a τ) :
    τ.Sound R V := by
  -- A step that only moves a query on, to a stage of which nothing is known.
  have hgoes : ∀ {k call call'}, σ.calls k = some call → call.Later call' → call'.reads = call.reads →
      call'.stage.Sound R V call' → (∀ p batches, call'.stage ≠ .collected p batches) →
      (σ.setCall k (some call')).Sound R V := by
    intro k call call' hk hlater hreads hstage hne
    refine h.setCall ?_ ?_ ?_
    · rintro _ ⟨⟩
      exact hlater.registries _ (h.current k call hk)
    · rintro _ ⟨⟩
      exact ⟨fun r hr => ((h.calls k call hk).reads r (hreads ▸ hr)).later hlater, hstage⟩
    · rintro _ p batches ⟨⟩
      exact hne p batches
  cases hs with
  | moves hcache hVn => exact h.moved hcache hVn
  | finishes name at_ =>
    exact ⟨h.registry, h.current, h.calls, h.collected, h.executions, h.held, h.answers⟩
  | begins hk hsql hexpand hrefs caller asOf onViolation =>
    refine h.setCall ?_ ?_ ?_
    · rintro _ ⟨⟩
      exact List.mem_singleton.2 rfl
    · rintro _ ⟨⟩
      exact ⟨fun r hr => absurd hr List.not_mem_nil, trivial⟩
    · rintro _ p batches ⟨⟩ ⟨⟩
  | skips hk hstage hrefs hread =>
    refine hgoes hk ⟨rfl, fun _ => id⟩ rfl ?_ fun p batches hst => ?_
    · show QueryStage.Sound R V _ (QueryCall.stage _)
      rw [hstage]
      trivial
    · cases hstage.symm.trans hst
  | sees hk hstage hrefs hread hplain hreg => exact hgoes hk ⟨rfl, fun _ => id⟩ rfl trivial fun _ _ hst => by cases hst
  | ensures hk hstage hpinned => exact hgoes hk ⟨rfl, fun _ => id⟩ rfl hpinned fun _ _ hst => by cases hst
  | resolves hk hstage hreg hresolve => exact h.resolves hk hstage hreg hresolve hg.2
  | views hk hstage hreg hview hscan => exact h.views hk hstage hreg hview hscan hg.2
  | keys hk hstage hreg hactive hparams => exact h.keys hk hstage hreg hactive hparams hg.1 hg.2
  | plans hk hstage hrefs hplan => exact h.plans hk hplan hg.2
  | hits hk hstage hcached => exact h.hits hk hsha hV hR hstage hcached
  | misses hk hstage hcached => exact h.misses hk hstage hcached
  | executes hk hstage hexec => exact h.executes hk hstage hexec
  | keeps hk hstage hput => exact h.keeps hk hstage hput
  | fails k =>
    refine h.setCall ?_ ?_ ?_
    · rintro _ ⟨⟩
    · rintro _ ⟨⟩
    · rintro _ _ _ ⟨⟩

/-- In every run in which no query is disturbed, an answer from the cache is an earlier execution's, of the same SQL
over the same contracts as they were while the query ran, with the same parameters and shapes, over data with the same
facts, no older than the writes finished before the query. -/
theorem cached_is_answer (hsha : Function.Injective R.sha256) (hV : HashesApart V) (hR : ParamsShown R) {n : Node}
    (hregistry : n.engine.store.Of V) (hempty : ∀ key entry, ¬ n.engine.Held key entry)
    {as : List QueryAction} {σ : Serving}
    (h : Run (Guarded (fun σ a => Separable R σ a ∧ Undisturbed R σ a) (ServingStep R V)) (.start n) as σ) :
    ∀ a ∈ σ.answers, ∃ e ∈ a.earlier, ServedFor R e a := by
  have hstart : (Serving.start n).Sound R V := {
    registry := hregistry
    current := by
      rintro k call ⟨⟩
    calls := by
      rintro k call ⟨⟩
    collected := by
      rintro k call p batches ⟨⟩
    executions := fun e he => absurd he List.not_mem_nil
    held := fun key entry he => absurd he (hempty key entry)
    answers := fun a ha => absurd ha List.not_mem_nil }
  have hsound := h.inv_of_all (I := fun σ => σ.Sound R V) (fun _ _ _ hs hg => hs.step hsha hV hR hg) hstart
  exact hsound.answers

/-! ## The amounts, asked twice -/

/-- The shapes of a version of the amounts: the first shows no fewer than two rows. -/
def shapesOf (cc : CompiledContract) : List ShapeRule := if cc.version = 1 then [⟨"few", "suppress"⟩] else []

/-- The rows of the amounts counted, and shown when there are as many as the shapes ask. -/
def shapedRuntime : Runtime :=
  { amountsRuntime with
    references := fun _ => .ok [⟨none, "acme/amounts"⟩]
    activeShapes := fun cc _ => .ok (shapesOf cc)
    applyShapes := fun plan _ active => .ok ⟨plan, [], if active.isEmpty then none else some 2, false⟩
    collect := fun _ least reads =>
      let rows := (reads.map fun read => Multiset.card read.2).sum
      .ok (if rows < least.getD 0 then [] else [⟨amountContract.contract.exposedSchema, [[("amount", .int rows)]]⟩],
        .none) }

/-- The second version of the amounts. -/
def openAmounts : Compilation :=
  { amountContract with
    contract := { amountContract.contract with version := 2, contractHash := "c2", compilationHash := "h2" } }

def OfAmounts (c : Compilation) : Prop := c = amountContract ∨ c = openAmounts

def amountFacts : Manifest :=
  { wholeManifest id amountContract (validateAmounts {[("amount", .int 1)]}) [] 5 5 none with dataHash := "ipc" }

/-- An engine with a table of one amount, over a registry. -/
def cachedEngine (store : Contents) (cache : QueryCache) : Engine :=
  { oneAmount.engine with
    store := store
    tableManifests := Lookup.ofList [("acme/amounts", amountFacts)]
    cache := some cache }

def oneVersion : Contents := Contents.empty.put ⟨amountContract⟩

def bothVersions : Contents := oneVersion.put ⟨openAmounts⟩

def smallCache : QueryCache := .new ⟨8, 64, 60⟩

def cachedAmount : Node := { oneAmount with engine := cachedEngine oneVersion smallCache }

def amountsText : String := "SELECT amount FROM amounts"

def amountResolution : Resolution where
  contract := "acme/amounts"
  version := 1
  contractHash := "c1"
  compilationHash := "h1"
  decisions := []
  annotations := []
  shapes := ["few"]
  flagsMaterialised := false
  snapshotId := none
  excluded := []

/-- The amounts under their first version, read up to their view. -/
def amountRead : ViewedRead where
  ref := ⟨none, "acme/amounts"⟩
  asked := none
  resolvedAs := amountContract
  resolution := amountResolution
  facts := amountFacts
  viewedAs := amountContract
  view := contractView projecting amountContract.contract false (Lookup.ofList [])
  rows := {[("amount", .int 1)]}
  scanned := "ipc"

def amountKey : CacheKey :=
    .new id amountsText [("acme/amounts", fingerprint shapedRuntime "h1" [] ["few"] amountFacts)]

/-- The amounts planned, under the shapes of one of their versions. -/
def amountPrepared (c : Compilation) : Prepared where
  cacheKey := amountKey
  plan := amountRead.view
  resolutions := [amountResolution]
  charges := []
  suppressK := if (shapesOf c.contract).isEmpty then none else some 2
  hasAggregate := false
  reads := [("acme/amounts", amountRead.rows)]

/-- What an execution of the amounts gives, under the shapes of one of their versions. -/
def amountBatches (c : Compilation) : List Batch :=
  if (shapesOf c.contract).isEmpty then [⟨amountContract.contract.exposedSchema, [[("amount", .int 1)]]⟩] else []

/-- A query of the amounts at a stage. -/
def amountsCall (registries : List Contents) (reads : List ContractRead) (stage : QueryStage) : QueryCall :=
  ⟨⟨amountsText, ann, [], .exclude, amountsText, [], []⟩, [], reads, [], stage, registries⟩

/-- The amounts read, keyed by one of their versions. -/
def amountKeyed (c : Compilation) : ContractRead := ⟨amountRead, c, shapesOf c.contract, []⟩

abbrev AmountsServing := ServingStep shapedRuntime OfAmounts

abbrev Calm (σ : Serving) (a : QueryAction) : Prop := Separable shapedRuntime σ a ∧ Undisturbed shapedRuntime σ a

theorem expands_amounts : shapedRuntime.expand amountsText = .ok (amountsText, []) := rfl

theorem shaped_resolves (cache : QueryCache) (s : Storage) (now : Int) (ts : List Touch) :
    resolvePinned shapedRuntime "acme/amounts" ann .exclude none ⟨cachedEngine oneVersion cache, s, now, ts⟩ =
      .ok (amountResolution, amountFacts)
        ⟨cachedEngine oneVersion cache, s, now, ts ++ [.manifestRead "acme/amounts"]⟩ := rfl

theorem shaped_views (cache : QueryCache) (s : Storage) (now : Int) (ts : List Touch) :
    contractViewFor shapedRuntime "acme/amounts" ann amountResolution ⟨cachedEngine oneVersion cache, s, now, ts⟩ =
      .ok (amountRead.view, amountRead.rows) ⟨cachedEngine oneVersion cache, s, now, ts⟩ := rfl

theorem shaped_scans (cache : QueryCache) (s : Storage) (now : Int) (ts : List Touch) :
    Effects.outcome (scannedHash shapedRuntime "acme/amounts" ⟨amountContract⟩ amountResolution)
      ⟨cachedEngine oneVersion cache, s, now, ts⟩ = .ok "ipc" := rfl

theorem shaped_plans {c : Compilation} (hc : OfAmounts c) (n : Node) :
    planOver shapedRuntime ⟨amountsText, ann, [], .exclude, amountsText, [], []⟩
      (.ofReads shapedRuntime [amountKeyed c]) n = .ok (amountPrepared c) n := by
  rcases hc with rfl | rfl
  · rfl
  · rfl

theorem shaped_executes {c : Compilation} (hc : OfAmounts c) (n : Node) :
    execute shapedRuntime (amountPrepared c) ann n = .ok (amountBatches c) n := by
  rcases hc with rfl | rfl
  · rfl
  · rfl

/-- Names and fingerprints hold no separator. -/
theorem shaped_separated : Separated "acme/amounts" ∧
    Separated (fingerprint shapedRuntime "h1" [] ["few"] amountFacts) := by
  unfold Separated
  decide +kernel

/-- What the key of an answer found in an empty cache is found under. -/
theorem found_put {c : Compilation} (hc : OfAmounts c) (now : Int) :
    ((((smallCache.get now amountKey).2).put now amountKey (amountBatches c)
      ((amountBatches c).map shapedRuntime.memory).sum).get now amountKey).1 = some (amountBatches c) := by
  have hheld : (((smallCache.get now amountKey).2).put now amountKey (amountBatches c)
      ((amountBatches c).map shapedRuntime.memory).sum).held amountKey =
      some ⟨amountBatches c, ((amountBatches c).map shapedRuntime.memory).sum, now⟩ := by
    rcases hc with rfl | rfl
    · exact List.lookup_cons_self
    · exact List.lookup_cons_self
  have httl : (((smallCache.get now amountKey).2).put now amountKey (amountBatches c)
      ((amountBatches c).map shapedRuntime.memory).sum).ttl = 60 := by
    rcases hc with rfl | rfl
    · rfl
    · rfl
  rw [QueryCache.get_fst]
  unfold QueryCache.expired
  rw [hheld]
  exact if_neg (by simp [httl])

/-- A query has gone on to another stage, and nothing else changed. -/
structure Went (σ σ' : Serving) (k : Nat) (call : QueryCall) : Prop where
  engine : σ'.node.engine = σ.node.engine
  now : σ'.node.now = σ.node.now
  finished : σ'.finished = σ.finished
  calls : σ'.calls = Function.update σ.calls k (some call)
  executions : σ'.executions = σ.executions

theorem Went.call {σ σ' : Serving} {k : Nat} {call : QueryCall} (h : Went σ σ' k call) : σ'.calls k = some call :=
  (congrFun h.calls k).trans (Function.update_self ..)

theorem Went.other {σ σ' : Serving} {k k' : Nat} {call : QueryCall} (h : Went σ σ' k call) (hk : k' ≠ k) :
    σ'.calls k' = σ.calls k' :=
  (congrFun h.calls k').trans (Function.update_of_ne hk ..)

/-- A query of the amounts goes up to their view. -/
theorem begins_amounts {σ : Serving} {k : Nat} {cache : QueryCache} (hk : σ.calls k = none) (hfin : σ.finished = [])
    (he : σ.node.engine = cachedEngine oneVersion cache) :
    ∃ σ', Run (Guarded Calm AmountsServing) σ
        [.begins k amountsText ann [] .exclude, .sees k, .ensures k none, .resolves k, .views k] σ' ∧
      Went σ σ' k (amountsCall [oneVersion] [] (.viewed amountRead)) := by
  obtain ⟨⟨e, s, now, ts⟩, calls, finished, executions, answers⟩ := σ
  dsimp only at hk hfin he
  subst hfin he
  have hset := fun (σ : Serving) call => Serving.setCall_self σ k (some call)
  have hgo := fun (σ : Serving) n call => Serving.goes_self σ k n call
  refine ⟨_, .cons ⟨⟨trivial, trivial⟩, .begins hk rfl expands_amounts rfl _ _ _⟩
    (.cons ⟨⟨trivial, trivial⟩, .sees (hset ..) rfl rfl rfl rfl rfl⟩
    (.cons ⟨⟨trivial, trivial⟩, .ensures (hset ..) rfl rfl⟩
    (.cons ⟨⟨trivial, ?_⟩, .resolves (hset ..) rfl rfl (shaped_resolves cache s now ts)⟩
    (.cons ⟨⟨trivial, ?_⟩, .views (hgo ..) rfl rfl (shaped_views cache s now _) (shaped_scans cache s now _)⟩
      (.nil _))))),
    rfl, rfl, rfl, ?_, rfl⟩
  · intro call t m hk' _ _ w hw
    obtain rfl := Option.some.inj ((hset ..).symm.trans hk')
    exact absurd hw List.not_mem_nil
  · intro call r reg scanned hk' hst hreg
    obtain rfl := Option.some.inj ((hgo ..).symm.trans hk')
    obtain rfl := QueryStage.resolved.inj hst
    obtain rfl := Except.ok.inj hreg
    exact ⟨rfl, fun hscan => (Except.ok.inj ((shaped_scans cache s now _).symm.trans hscan)).symm⟩
  · show Function.update _ k _ = _
    simp only [Serving.goes, Serving.setCall, Function.update_idem]
    rfl

/-- A query of the amounts is keyed and planned by the version registered, undisturbed if it is the first. -/
theorem plans_amounts {σ : Serving} {k : Nat} {registries : List Contents} {c : Compilation} (hc : OfAmounts c)
    (hk : σ.calls k = some (amountsCall registries [] (.viewed amountRead)))
    (hget : σ.node.engine.get "acme/amounts" = .ok ⟨c⟩) :
    ∃ σ', Run (Guarded (fun σ a => Separable shapedRuntime σ a ∧
          (c = amountContract → Undisturbed shapedRuntime σ a)) AmountsServing) σ [.keys k, .plans k] σ' ∧
      Went σ σ' k (amountsCall registries [amountKeyed c] (.prepared (amountPrepared c))) := by
  refine ⟨_, .cons ⟨⟨?_, ?_⟩, .keys hk rfl hget rfl rfl⟩
    (.cons ⟨⟨trivial, ?_⟩, .plans (Serving.setCall_self ..) rfl rfl (shaped_plans hc _)⟩ (.nil _)),
    rfl, rfl, rfl, ?_, rfl⟩
  · intro call r reg params hk' hst hreg hparams
    obtain rfl := Option.some.inj (hk.symm.trans hk')
    obtain rfl := QueryStage.viewed.inj hst
    obtain rfl := Except.ok.inj (hget.symm.trans hreg)
    obtain rfl := Except.ok.inj hparams
    exact shaped_separated
  · intro hsame call r hk' hst reg hreg
    obtain rfl := Option.some.inj (hk.symm.trans hk')
    obtain rfl := QueryStage.viewed.inj hst
    obtain rfl := Except.ok.inj (hget.symm.trans hreg)
    exact hsame
  · intro _ call hk' s hs
    obtain rfl := Option.some.inj ((Serving.setCall_self ..).symm.trans hk')
    exact absurd hs List.not_mem_nil
  · show Function.update _ k _ = _
    simp only [Serving.setCall, Function.update_idem]
    rfl

/-- A planned query of the amounts is executed, and its answer kept. -/
theorem executes_amounts {σ : Serving} {k : Nat} {registries : List Contents} {reads : List ContractRead}
    {c : Compilation} (hc : OfAmounts c)
    (hk : σ.calls k = some (amountsCall registries reads (.prepared (amountPrepared c)))) {store : Contents}
    (he : σ.node.engine = cachedEngine store smallCache) :
    ∃ σ' cache, Run (Guarded Calm AmountsServing) σ [.misses k, .executes k, .keeps k] σ' ∧
      σ'.node.engine = cachedEngine store cache ∧ (cache.get σ'.node.now amountKey).1 = some (amountBatches c) ∧
      σ'.finished = σ.finished ∧ σ'.calls = Function.update σ.calls k none ∧
      σ'.executions = ⟨amountsCall registries reads (.missed (amountPrepared c)), amountBatches c⟩ :: σ.executions := by
  obtain ⟨⟨e, s, now, ts⟩, calls, finished, executions, answers⟩ := σ
  dsimp only at hk he
  subst he
  obtain ⟨n, hn⟩ : ∃ n : Node, n = ⟨cachedEngine store (smallCache.get now amountKey).2, s, now, ts⟩ := ⟨_, rfl⟩
  have hmisses : cached amountKey ⟨cachedEngine store smallCache, s, now, ts⟩ = .ok none n := by
    rw [hn]
    rfl
  have hput : cachePut shapedRuntime amountKey (amountBatches c) n = .ok ()
      ⟨cachedEngine store ((smallCache.get now amountKey).2.put now amountKey (amountBatches c)
        ((amountBatches c).map shapedRuntime.memory).sum), s, now, ts⟩ := by
    rw [hn]
    rfl
  have hcall := fun (σ : Serving) => Serving.goes_self σ k n
    (amountsCall registries reads (.collected (amountPrepared c) (amountBatches c)))
  refine ⟨_, _, .cons ⟨⟨trivial, trivial⟩, .misses hk rfl hmisses⟩
    (.cons ⟨⟨trivial, trivial⟩, .executes (Serving.goes_self ..) rfl (shaped_executes hc _)⟩
    (.cons ⟨⟨trivial, trivial⟩, .keeps (hcall _) rfl hput⟩ (.nil _))), rfl, found_put hc now, rfl, ?_, rfl⟩
  show Function.update _ k _ = _
  simp only [Serving.executed, Serving.goes, Serving.setCall, Function.update_idem]

/-- A planned query of the amounts is answered from the cache. -/
theorem hits_amounts {σ : Serving} {k : Nat} {registries : List Contents} {reads : List ContractRead}
    {c c' : Compilation} {store : Contents} {cache : QueryCache}
    (hk : σ.calls k = some (amountsCall registries reads (.prepared (amountPrepared c))))
    (he : σ.node.engine = cachedEngine store cache)
    (hcache : (cache.get σ.node.now amountKey).1 = some (amountBatches c')) :
    ∃ n, Guarded Calm AmountsServing σ (.hits k)
      (σ.answered k n (amountsCall registries reads (.prepared (amountPrepared c))) (amountBatches c')) := by
  obtain ⟨⟨e, s, now, ts⟩, calls, finished, executions, answers⟩ := σ
  dsimp only at hk he hcache
  subst he
  refine ⟨⟨cachedEngine store (cache.get now amountKey).2, s, now, ts⟩, ⟨trivial, trivial⟩, .hits hk rfl ?_⟩
  rw [← hcache]
  rfl

/-- The two versions differ in their hashes. -/
theorem shaped_apart : HashesApart OfAmounts where
  apart := by
    rintro c c' (rfl | rfl) (rfl | rfl) h
    · rfl
    · exact absurd h (by decide)
    · exact absurd h (by decide)
    · rfl
  bare := by
    rintro c (rfl | rfl)
    · decide
    · decide

theorem shaped_shown : ParamsShown shapedRuntime := by
  intro cc caller caller' ps qs hps hqs _
  exact Except.ok.inj (hps.symm.trans hqs)

theorem oneVersion_of : oneVersion.Of OfAmounts := by
  intro name reg h
  obtain rfl := List.mem_singleton.1 (Contents.current_mem h)
  exact .inl rfl

theorem bothVersions_of : bothVersions.Of OfAmounts := by
  intro name reg h
  rcases List.mem_cons.1 (Contents.current_mem h) with rfl | h
  · exact .inl rfl
  · obtain rfl := List.mem_singleton.1 h
    exact .inr rfl

/-- The cache is empty at first. -/
theorem cachedAmount_empty (key : CacheKey) (entry : CacheEntry) : ¬ cachedAmount.engine.Held key entry := by
  rintro ⟨c, hc, hheld⟩
  obtain rfl := Option.some.inj hc
  cases hheld

/-- A query asked twice: a new version is registered before the second looks its key up, and it is served the first
one's execution. -/
theorem served_across_registration : ∃ as σ n,
    Run (Guarded (fun σ a => Separable shapedRuntime σ a ∧ Undisturbed shapedRuntime σ a)
      (ServingStep shapedRuntime OfAmounts)) (.start cachedAmount) as σ ∧
    .moves n ∈ as ∧ n.engine.store = bothVersions ∧
    σ.answers ≠ [] ∧ ∀ a ∈ σ.answers, ∃ e ∈ a.earlier, ServedFor shapedRuntime e a := by
  have hcalm : ∀ σ a, Separable shapedRuntime σ a ∧ (amountContract = amountContract →
      Undisturbed shapedRuntime σ a) → Calm σ a := fun σ a h => ⟨h.1, h.2 rfl⟩
  obtain ⟨σ₁, h₁, hw₁⟩ := begins_amounts (σ := .start cachedAmount) (k := 0) rfl rfl rfl
  obtain ⟨σ₂, h₂, hw₂⟩ := plans_amounts (.inl rfl) hw₁.call (by rw [hw₁.engine]; rfl)
  obtain ⟨σ₃, cache, h₃, he₃, hget, hf₃, hc₃, _⟩ := executes_amounts (.inl rfl) hw₂.call (hw₂.engine.trans hw₁.engine)
  have hnone : σ₃.calls 1 = none := by
    rw [hc₃, hw₂.calls, hw₁.calls]
    rfl
  obtain ⟨σ₄, h₄, hw₄⟩ := begins_amounts hnone (hf₃.trans (hw₂.finished.trans hw₁.finished)) he₃
  obtain ⟨σ₅, h₅, hw₅⟩ := plans_amounts (.inl rfl) hw₄.call (by rw [hw₄.engine, he₃]; rfl)
  have he₅ : σ₅.node.engine = cachedEngine oneVersion cache := hw₅.engine.trans (hw₄.engine.trans he₃)
  obtain ⟨n, hn⟩ : ∃ n : Node, n = { σ₅.node with engine := cachedEngine bothVersions cache } := ⟨_, rfl⟩
  have he₆ : n.engine = cachedEngine bothVersions cache := by rw [hn]
  have hmoves : Guarded Calm AmountsServing σ₅ (.moves n) (σ₅.moved n) := by
    refine ⟨⟨trivial, trivial⟩, .moves (fun key entry h => ?_) (he₆ ▸ bothVersions_of)⟩
    rw [he₆] at h
    rw [he₅]
    exact h
  have hcall₆ : (σ₅.moved n).calls 1 = some (amountsCall ([oneVersion] ++ [n.engine.store])
      [amountKeyed amountContract] (.prepared (amountPrepared amountContract))) := by
    show (σ₅.calls 1).map _ = _
    rw [hw₅.call]
    rfl
  have hnow : (σ₅.moved n).node.now = σ₃.node.now := by
    show n.now = _
    rw [hn]
    exact hw₅.now.trans hw₄.now
  rw [← hnow] at hget
  obtain ⟨n', h₇⟩ := hits_amounts hcall₆ he₆ hget
  have hrun :=
    (((((h₁.append (h₂.weaken hcalm)).append h₃).append h₄).append (h₅.weaken hcalm)).snoc hmoves).snoc h₇
  refine ⟨_, _, n, hrun, by simp, by rw [he₆]; rfl, List.cons_ne_nil _ _, ?_⟩
  exact cached_is_answer (fun _ _ h => h) shaped_apart shaped_shown oneVersion_of cachedAmount_empty hrun

/-- A contract's shapes are read again after it is resolved and viewed: an answer made without those of the version
resolved is kept under that version's key, and served to a query that has them. -/
theorem open_answer_served : Function.Injective shapedRuntime.sha256 ∧ HashesApart OfAmounts ∧
    ParamsShown shapedRuntime ∧ cachedAmount.engine.store.Of OfAmounts ∧
    (∀ key entry, ¬ cachedAmount.engine.Held key entry) ∧
    ∃ as σ, Run (Guarded (Separable shapedRuntime) (ServingStep shapedRuntime OfAmounts)) (.start cachedAmount) as σ ∧
      ∃ a ∈ σ.answers, ∀ e ∈ a.earlier, ¬ ServedFor shapedRuntime e a := by
  refine ⟨fun _ _ h => h, shaped_apart, shaped_shown, oneVersion_of, cachedAmount_empty, ?_⟩
  have hcalm : ∀ σ a, Calm σ a → Separable shapedRuntime σ a := fun _ _ h => h.1
  have hseparable : ∀ c σ a, Separable shapedRuntime σ a ∧ (c = amountContract → Undisturbed shapedRuntime σ a) →
      Separable shapedRuntime σ a := fun _ _ _ h => h.1
  -- Two queries see the amounts' first version, and the second is planned under it.
  obtain ⟨σ₁, h₁, hw₁⟩ := begins_amounts (σ := .start cachedAmount) (k := 0) rfl rfl rfl
  obtain ⟨σ₂, h₂, hw₂⟩ := begins_amounts (σ := σ₁) (k := 1) (hw₁.other (by decide)) hw₁.finished hw₁.engine
  obtain ⟨σ₃, h₃, hw₃⟩ := plans_amounts (.inl rfl) hw₂.call (by rw [hw₂.engine, hw₁.engine]; rfl)
  have he₃ : σ₃.node.engine = cachedEngine oneVersion smallCache := hw₃.engine.trans (hw₂.engine.trans hw₁.engine)
  -- The second version is registered, and the first query goes on under it.
  obtain ⟨n, hn⟩ : ∃ n : Node, n = { σ₃.node with engine := cachedEngine bothVersions smallCache } := ⟨_, rfl⟩
  have he₄ : n.engine = cachedEngine bothVersions smallCache := by rw [hn]
  have hmoves : Guarded (Separable shapedRuntime) AmountsServing σ₃ (.moves n) (σ₃.moved n) := by
    refine ⟨trivial, .moves (fun key entry h => ?_) (he₄ ▸ bothVersions_of)⟩
    rw [he₄] at h
    rw [he₃]
    exact h
  have hmoved : ∀ {k call}, σ₃.calls k = some call → (σ₃.moved n).calls k =
      some { call with registries := call.registries ++ [n.engine.store] } := by
    intro k call hk
    show (σ₃.calls k).map _ = _
    rw [hk]
    rfl
  have hcall₄ := hmoved ((hw₃.other (by decide)).trans ((hw₂.other (by decide)).trans hw₁.call))
  have hget₄ : (σ₃.moved n).node.engine.get "acme/amounts" = .ok ⟨openAmounts⟩ := by
    show n.engine.get _ = _
    rw [he₄]
    rfl
  obtain ⟨σ₅, h₅, hw₅⟩ := plans_amounts (.inr rfl) hcall₄ hget₄
  obtain ⟨σ₆, cache, h₆, he₆, hget, _, hc₆, hx₆⟩ := executes_amounts (.inr rfl) hw₅.call (hw₅.engine.trans he₄)
  -- The second query finds its key.
  have hcall₆ := ((congrFun hc₆ 1).trans (Function.update_of_ne (by decide) ..)).trans
    ((hw₅.other (by decide)).trans (hmoved hw₃.call))
  obtain ⟨n', h₇⟩ := hits_amounts hcall₆ he₆ hget
  have hrun := ((((((h₁.weaken hcalm).append (h₂.weaken hcalm)).append (h₃.weaken (hseparable _))).snoc hmoves).append
    (h₅.weaken (hseparable _))).append (h₆.weaken hcalm)).snoc ⟨h₇.1.1, h₇.2⟩
  refine ⟨_, _, hrun, _, List.mem_cons_self, fun e he hserved => ?_⟩
  have hbefore : (σ₃.moved n).executions = [] := hw₃.executions.trans (hw₂.executions.trans hw₁.executions)
  rw [show (CachedAnswer.earlier _) = σ₆.executions from rfl, hx₆, hw₅.executions, hbefore] at he
  rw [List.mem_singleton.1 he] at hserved
  cases hserved.reads with
  | cons hread _ => exact absurd hread.shapes (by decide)

end Peql
