import Peql.Engine.Stamps

/-!
# The files calls lay

A step of a `Fleet` is a whole call of an engine. What the call does to the files of the storage, and to what the engine
has registered, are steps of `ColumnStep`: it lays the files of the write it finishes, and no others (`Fleet.lays`). So
a run of calls is a run of those steps, and where compactions are of files written under the version they stamp, every
view of stored columns is the view of the live rules (`stored_views_of_calls`).
-/

namespace Peql

open Effects Runs

variable {R : Runtime} {V : Compilation → Prop} {New : StoredFile → Prop}

namespace Fleet

variable {σ : Fleet} {k : Nat}

/-! ## A call -/

/-- A call of an engine has come to a state: the engine has the contracts it had, where it had them, and each file there
was there or is one of `New`. -/
structure Leads (σ : Fleet) (k : Nat) (New : StoredFile → Prop) (n : Node) : Prop where
  versions : n.engine.store.versions = (σ.engines k).store.versions
  bound : ∀ reg, n.engine.bound reg = (σ.engines k).bound reg
  files : ∀ l f, n.storage.Live l f → σ.storage.Live l f ∨ New f

theorem leads_node (now : Int) : σ.Leads k New (σ.node k now) := ⟨rfl, fun _ => rfl, fun _ _ => .inl⟩

/-- **A call lays no files** but those of the write it finishes. -/
theorem lays : FactsStable (fun _ => True) New (σ.engines k) (σ.Leads k New) (fun _ _ => σ.Leads k New) where
  touch n t h := ⟨h.versions, h.bound, h.files⟩
  like n e he h := ⟨he.versions.trans h.versions, fun reg => (he.bound reg).trans (h.bound reg), h.files⟩
  fewer n s _ hs h := ⟨h.versions, h.bound, fun l f hf => (hs l f hf).elim (h.files l f) .inr⟩
  found _ _ _ _ _ _ _ h := h
  record n reg l m _ _ _ h :=
    ⟨h.versions, h.bound, fun l' f hf => (Storage.live_record l' f hf).elim (h.files l' f) .inr⟩
  remember n reg l m _ h := by
    refine ⟨?_, fun reg' => ?_, h.files⟩
    · rw [Engine.store_rememberFacts]
      exact h.versions
    · rw [Engine.bound_rememberFacts]
      exact h.bound reg'
  forget n l name h := by
    refine ⟨?_, fun reg' => ?_, h.files⟩
    · rw [Engine.store_forgetFacts]
      exact h.versions
    · rw [Engine.bound_forgetFacts]
      exact h.bound reg'
  drop _ _ _ h := h
  versions _ h := h.versions
  bound _ h := h.bound
  looked _ _ _ := trivial

/-- A call that begins no write lays none. -/
theorem leads_call (now : Int) (call : EngineCall) :
    σ.Leads k (fun _ => False) (final (call.make R) (σ.node k now)) :=
  (lays.calls.call call).final (leads_node now)

/-- What an engine has come to in a call is two steps away: what the engine keeps changes, then what the storage has. -/
theorem Leads.run {n : Node} (h : σ.Leads k New n)
    (hnew : ∀ f, New f → ∃ i w, σ.writes i = some w ∧ f ∈ w.begun.files) (Q : StoredFile → Prop) :
    Run (Guarded (fun _ b => ∀ f ∈ b.copies, Q f) (ColumnStep R V)) σ [.turns k n.engine, .stores n.storage]
      (σ.after k n) := by
  refine .cons ⟨List.forall_mem_nil _, .turns h.versions h.bound⟩
    (.cons ⟨List.forall_mem_nil _, .stores fun l f hf => ?_⟩ (.nil _))
  exact (h.files l f hf).imp_right fun hf => .inl (hnew f hf)

theorem Leads.setWrite {n : Node} (h : σ.Leads k New n) (i : Nat) (o : Option OpenWrite) :
    (σ.setWrite i o).Leads k New n := ⟨h.versions, h.bound, h.files⟩

/-! ### Where writes are -/

/-- A write not finished is where its engine has the data of its contract. -/
def Placed (σ : Fleet) : Prop :=
  ∀ i w, σ.writes i = some w → (σ.engines w.engine).bound w.begun.reg = .ok (.files w.begun.location)

namespace Placed

variable (h : σ.Placed)

include h

theorem setWrite {i : Nat} {o : Option OpenWrite}
    (ho : ∀ w, o = some w → (σ.engines w.engine).bound w.begun.reg = .ok (.files w.begun.location)) :
    (σ.setWrite i o).Placed := by
  intro j w hj
  rcases of_setWrite hj with ⟨-, hw⟩ | ⟨-, hold⟩
  · exact ho w hw
  · exact h j w hold

/-- An engine that has its contracts' data where it had it has its writes there. -/
theorem setEngine {e : Engine} (he : ∀ reg, e.bound reg = (σ.engines k).bound reg) :
    Placed { σ with engines := Function.update σ.engines k e } := by
  intro i w hw
  dsimp only
  by_cases hk : w.engine = k
  · rw [hk, Function.update_self, he, ← hk]
    exact h i w hw
  · rw [Function.update_of_ne hk]
    exact h i w hw

theorem after {n : Node} (hn : σ.Leads k New n) : (σ.after k n).Placed := h.setEngine hn.bound

/-- So has one that has finished a write. -/
theorem finished {i : Nat} {w : OpenWrite} (hw : σ.writes i = some w) (now : Int)
    (commit : TableMetadata → Except PeqlError (Int × Option Int)) :
    σ.Leads w.engine (· ∈ w.begun.files) (final (w.begun.finishWrite R commit) (σ.node w.engine now)) :=
  (lays.finishWrite w.begun commit trivial (h i w hw) fun _ => id).final (leads_node now)

theorem step {a : FleetAction} {τ : Fleet} (hstep : FleetStep R V σ a τ) : τ.Placed := by
  cases hstep with
  | registers | publishes | unpublishes => exact h.setEngine fun _ => rfl
  | calls k now call => exact h.after (leads_call now call)
  | @begins k i now name mode onViolation id w n free fresh begun =>
    have hstart : σ.Leads k (fun _ => False) (σ.node k now) := leads_node now
    obtain ⟨hn, -, hbound, -⟩ := (lays.beginWrite _ _ _ _ _).of_ok hstart begun
    refine (h.after hn).setWrite ?_
    rintro _ ⟨⟩
    rw [after_self]
    exact (hn.bound w.reg).trans hbound
  | @compacts k i now name smallFileBytes minSmallFiles id files w n table t free fresh new begun =>
    have hstart : σ.Leads k (fun _ => False) (σ.node k now) := leads_node now
    obtain ⟨hn, hbegun⟩ := (lays.beginCompact _ _ _ _).of_ok hstart begun
    refine (h.after hn).setWrite ?_
    rintro _ ⟨⟩
    rw [after_self]
    exact (hn.bound w.reg).trans (hbegun w rfl).2.1
  | writes held data new part =>
    obtain ⟨hreg, hlocation, -⟩ := Begun.writePart_same part
    refine h.setWrite ?_
    rintro _ ⟨⟩
    rw [hreg, hlocation]
    exact h _ _ held
  | @finishes i now w commit held answers =>
    exact (h.after (h.finished held now commit)).setWrite fun _ ho => nomatch ho
  | drops i => exact h.setWrite fun _ ho => nomatch ho
  | commits => exact h

end Placed

/-! ## A step -/

/-- What is relied on of DataFusion's writer, in a part and in a compaction, and of other software. -/
def Laid (R : Runtime) (V : Compilation → Prop) (σ : Fleet) : FleetAction → Prop
  | .writes i rows files => ∀ w, σ.writes i = some w → w.begun.Lays R rows files
  | .compacts k _ _ name _ _ _ files => ∀ reg table t, (σ.engines k).get name = .ok reg →
      (σ.engines k).bound reg = .ok (.files (.iceberg table)) → σ.storage.tables table = some t →
        Compacts V files (t.metadata.filesAt t.metadata.current)
  | .commits table sn => ∀ t, σ.storage.tables table = some t → ∀ f ∈ sn.files,
      f ∈ t.metadata.filesAt t.metadata.current ∨ f.Foreign V
  | .registers _ _ | .publishes _ _ _ | .unpublishes _ _ _ | .calls _ _ _ | .begins _ _ _ _ _ _ _ | .finishes _ _ _
  | .drops _ => True

end Fleet

/-- The files a compaction makes. -/
def FleetAction.copies : FleetAction → List StoredFile
  | .compacts _ _ _ _ _ _ _ files => files
  | .registers _ _ | .publishes _ _ _ | .unpublishes _ _ _ | .calls _ _ _ | .begins _ _ _ _ _ _ _ | .writes _ _ _
  | .finishes _ _ _ | .drops _ | .commits _ _ => []

namespace Fleet

variable {σ τ : Fleet}

/-- **A step of a fleet is a run of column steps**, none of which makes other copies than it. -/
theorem columns (hplaced : σ.Placed) {a : FleetAction} (hlaid : σ.Laid R V a) (hstep : FleetStep R V σ a τ)
    {Q : StoredFile → Prop} (hQ : ∀ f ∈ a.copies, Q f) :
    ∃ bs, Run (Guarded (fun _ b => ∀ f ∈ b.copies, Q f) (ColumnStep R V)) σ bs τ := by
  have hno : ∀ {σ : Fleet} (f : StoredFile), False → ∃ i w, σ.writes i = some w ∧ f ∈ w.begun.files :=
    fun _ h => h.elim
  cases hstep with
  | registers compiled => exact ⟨_, .cons ⟨List.forall_mem_nil _, .registers compiled⟩ (.nil _)⟩
  | publishes k name audience =>
    have hturns : ColumnStep R V σ _ (σ.withStore k ((σ.engines k).store.publish name audience)) :=
      .turns rfl fun _ => rfl
    exact ⟨_, .cons ⟨List.forall_mem_nil _, hturns⟩ (.nil _)⟩
  | unpublishes k name audience =>
    have hturns : ColumnStep R V σ _ (σ.withStore k ((σ.engines k).store.unpublish name audience)) :=
      .turns rfl fun _ => rfl
    exact ⟨_, .cons ⟨List.forall_mem_nil _, hturns⟩ (.nil _)⟩
  | calls k now call => exact ⟨_, (leads_call now call).run hno Q⟩
  | @begins k i now name mode onViolation id w n free fresh begun =>
    obtain ⟨hn, hget, -, hfiles, -⟩ := (lays.beginWrite _ _ _ _ _).of_ok (leads_node now) begun
    have hbegins : ColumnStep R V σ (.begins k i w) (σ.setWrite i (some ⟨k, w⟩)) :=
      .begins (get_name hget ▸ hget) hfiles
    exact ⟨_, .cons ⟨List.forall_mem_nil _, hbegins⟩ ((hn.setWrite i (some ⟨k, w⟩)).run hno Q)⟩
  | @compacts k i now name smallFileBytes minSmallFiles id files w n table t free fresh new begun location found
      copied =>
    obtain ⟨hn, hbegun⟩ := (lays.beginCompact _ _ _ _).of_ok (leads_node now) begun
    obtain ⟨hget, hbound, hfiles, hrewrites⟩ := hbegun w rfl
    have hbegins : ColumnStep R V σ (.begins k i w) (σ.setWrite i (some ⟨k, w⟩)) :=
      .begins (get_name hget ▸ hget) hfiles
    have hlive : ∀ g ∈ t.metadata.filesAt t.metadata.current, ∃ l, σ.storage.Live l g := by
      intro g hg
      obtain ⟨sn, hsn, hg⟩ := TableMetadata.mem_filesAt hg
      exact ⟨.iceberg table, t, sn, found, hsn, hg⟩
    have hheld : (σ.setWrite i (some ⟨k, w⟩)).writes i = some ⟨k, w⟩ := Function.update_self ..
    have hcompacts := ColumnStep.compacts (R := R) hheld hrewrites hlive
      (hlaid w.reg table t (get_name hget ▸ hget) (location ▸ hbound) found)
    rw [setWrite_setWrite] at hcompacts
    have hcopies : ∀ f ∈ (ColumnAction.compacts i files (t.metadata.filesAt t.metadata.current)).copies, Q f := hQ
    exact ⟨_, .cons ⟨List.forall_mem_nil _, hbegins⟩ (.cons ⟨hcopies, hcompacts⟩ ((hn.setWrite i _).run hno Q))⟩
  | @writes i w rows files b held data new part =>
    exact ⟨_, .cons ⟨List.forall_mem_nil _, .writes held data part (hlaid w held)⟩ (.nil _)⟩
  | @finishes i now w commit held answers =>
    have hleads := hplaced.finished (R := R) held now commit
    have hrun := hleads.run (R := R) (V := V) (fun f hf => ⟨i, w, held, hf⟩) Q
    exact ⟨_, hrun.snoc ⟨List.forall_mem_nil _, .ends i⟩⟩
  | drops i => exact ⟨_, .cons ⟨List.forall_mem_nil _, .ends i⟩ (.nil _)⟩
  | @commits table sn t found new parent foreign nodup files =>
    have hfiles : ∀ l f, (σ.storage.changeTable table fun t => { t with metadata := t.metadata.push sn }).Live l f →
        σ.storage.Live l f ∨ f.Foreign V := by
      refine Storage.live_changeTable fun t' ht' sn' hsn' f hf => ?_
      rcases List.mem_append.1 hsn' with hsn' | hsn'
      · exact .inl ⟨t', sn', ht', hsn', hf⟩
      · obtain rfl := List.mem_singleton.1 hsn'
        refine (hlaid t' ht' f hf).imp_left fun hf => ?_
        obtain ⟨sn, hsn, hf⟩ := TableMetadata.mem_filesAt hf
        exact ⟨t', sn, ht', hsn, hf⟩
    exact ⟨_, .cons ⟨List.forall_mem_nil _, .stores fun l f hf => (hfiles l f hf).imp_right .inr⟩ (.nil _)⟩

/-- So is a run of calls, where other copies than its calls make are none. -/
theorem columns_of_calls (hplaced : σ.Placed) {Q : StoredFile → Prop} {as : List FleetAction}
    (hrun : Run (Guarded (fun σ a => σ.Laid R V a ∧ ∀ f ∈ a.copies, Q f) (FleetStep R V)) σ as τ) :
    ∃ bs, Run (Guarded (fun _ b => ∀ f ∈ b.copies, Q f) (ColumnStep R V)) σ bs τ := by
  have hsteps : ∀ (s : Fleet) (a : FleetAction) (t w : Fleet), w = s ∧ s.Placed →
      Guarded (fun σ a => σ.Laid R V a ∧ ∀ f ∈ a.copies, Q f) (FleetStep R V) s a t →
        ∃ bs w', Run (Guarded (fun _ b => ∀ f ∈ b.copies, Q f) (ColumnStep R V)) w bs w' ∧ w' = t ∧ t.Placed := by
    rintro s a t _ ⟨rfl, hs⟩ ⟨⟨hlaid, hQ⟩, hstep⟩
    obtain ⟨bs, hbs⟩ := columns hs hlaid hstep hQ
    exact ⟨bs, t, hbs, rfl, hs.step hstep⟩
  obtain ⟨bs, _, hbs, rfl, -⟩ := hrun.refines hsteps ⟨rfl, hplaced⟩
  exact ⟨bs, hbs⟩

end Fleet

/-! ## A read -/

section Read

variable {rd : Compilation → Reading} {σ τ : Fleet} {k : Nat} {now : Int} {name : String} {caller : Caller}
  {onViolation : OnReadViolation} {at_ : Option Int} {reg : Registered} {l : Location} {a : Resolution} {m : Manifest}
  {n : Node}

/-- A read resolved over a storage whose recorded facts are true has its view made of the files it was resolved by. -/
theorem Fleet.Sound.views (hR : Counts R V rd) (h : τ.Sound V rd) (hreg : (τ.engines k).get name = .ok reg)
    (hl : (τ.engines k).bound reg = .ok (.files l)) (hun : Unremembered (τ.node k now) l name)
    (hread : resolveAt R name caller onViolation at_ (τ.node k now) = .ok (a, m) n) :
    (τ.after k n).Views k name a m ∧ resolution R n.engine reg caller onViolation m = .ok a := by
  obtain ⟨hn, hdecides, hresolution⟩ := h.resolved hR hreg hl hun hread
  have hby := resolution_ok hresolution
  refine ⟨fun found hfound => ?_, hresolution⟩
  rw [Fleet.after_self] at hfound ⊢
  cases hreg.symm.trans ((hn.get name).symm.trans hfound)
  refine ⟨hby.contractHash.symm, l, (hn.bound reg).trans hl, fun f hf => ?_⟩
  have hlive : f ∈ liveFiles τ.storage l at_ := by
    rw [← hdecides.snapshot.liveFiles, ← hby.snapshotId]
    exact hn.data.liveFiles l a.snapshotId ▸ hf
  exact hdecides.tells.stamps.symm.subset (List.mem_map_of_mem hlive)

/-- **After any calls, the stored view is the live view**, where a contract hash is of one compilation and compactions
are of files written under the version they stamp: whatever a read that is to use stored columns is resolved by, at any
engine, its view releases what the view of the live rules would. -/
theorem stored_views_of_calls (hR : Counts R V rd) (hS : ∀ c, V c → c.Stores)
    (hH : ∀ c c', V c → V c' → c.contract.contractHash = c'.contract.contractHash → c = c') {as : List FleetAction}
    (hunrecorded : σ.Unrecorded V) (h : σ.Unwritten V)
    (hrun : Run (Guarded (fun σ a => Covers σ a ∧ σ.Laid R V a ∧ ∀ f ∈ a.copies, f.Apt V) (FleetStep R V)) σ as τ)
    (hreg : (τ.engines k).get name = .ok reg) (hl : (τ.engines k).bound reg = .ok (.files l))
    (hun : Unremembered (τ.node k now) l name)
    (hread : resolveAt R name caller onViolation at_ (τ.node k now) = .ok (a, m) n)
    (hstored : a.flagsMaterialised = true) {view : Plan × Multiset Row} {n' : Node}
    (hview : contractViewFor R name caller a n = .ok view n') :
    ∃ live, contractViewFor R name caller { a with flagsMaterialised := false } n = .ok live n' ∧
      SameView R.kernel view live := by
  have hsound := (hunrecorded.sound.run hR (hrun.weaken fun _ _ ha => ha.1)).1
  obtain ⟨hviews, hresolution⟩ := hsound.views hR hreg hl hun hread
  have hplaced : σ.Placed := fun i w hw => nomatch (h.idle i).symm.trans hw
  obtain ⟨bs, hbs⟩ := Fleet.columns_of_calls hplaced (hrun.weaken fun _ _ ha => ha.2)
  -- the read itself lays no files
  have hleads : τ.Leads k (fun _ => False) n :=
    ((Fleet.lays.resolveAt at_ hreg hl).of_ok (Fleet.leads_node now) hread).1
  have hreads := hleads.run (R := R) (V := V) (fun _ hf => hf.elim) fun f => f.Apt V
  obtain ⟨-, hsame⟩ := stored_view_is_live hR.hashes hS h (h.settles hH (hbs.append hreads))
  exact hsame k name caller onViolation n.engine reg m a hresolution hstored hviews n n' view Fleet.after_self.symm rfl
    hview

end Read

/-! ## Calls on the amounts -/

theorem counts_limits : Counts limitRuntime LowOrHigh flagReading where
  failures c _ rows v hv := by
    obtain rfl := Except.ok.inj hv
    rfl
  asserts c hc f hf := by
    rcases hc with rfl | rfl
    · obtain rfl := List.mem_singleton.1 hf
      exact List.mem_singleton_self _
    · obtain rfl := List.mem_singleton.1 hf
      exact List.mem_singleton_self _
  hashes := lowOrHigh_eq (fun c => c.contract.compilationHash) (by decide)

theorem unrecorded_limit : limitFleet.Unrecorded LowOrHigh where
  dirs _ _ _ hm := by cases hm
  facts _ _ _ _ _ ht := by cases ht
  writeFacts _ _ _ _ _ ht := by cases ht
  rooted _ _ ht := by cases ht
  compiled _ _ hreg := nomatch hreg
  idle _ := rfl

/-- Two engines have the low limit; the one writes, and then has the high one. -/
def raisesLimit : List FleetAction :=
  [.registers 0 ⟨lowLimit⟩, .registers 1 ⟨lowLimit⟩, .begins 0 0 5 "acme/amounts" .append .warn "w0",
    .writes 0 givenRows lowFiles, .finishes 0 6 commitsOnce, .registers 0 ⟨highLimit⟩]

/-- The other reads what was written by its stored columns. -/
theorem raises_run : ∃ τ, Run (Guarded (fun σ a => Covers σ a ∧ σ.Laid limitRuntime LowOrHigh a ∧
      ∀ f ∈ a.copies, f.Apt LowOrHigh) (FleetStep limitRuntime LowOrHigh)) limitFleet raisesLimit τ ∧
    (τ.engines 1).get "acme/amounts" = .ok ⟨lowLimit⟩ ∧
    (τ.engines 1).bound ⟨lowLimit⟩ = .ok (.files (.iceberg "amounts")) ∧
    liveFiles τ.storage (.iceberg "amounts") none = lowFiles ∧
    ∃ a m n view n', resolveAt limitRuntime "acme/amounts" ann .exclude none (τ.node 1 9) = .ok (a, m) n ∧
      a.flagsMaterialised = m.flagsCurrent "c1" ∧
      contractViewFor limitRuntime "acme/amounts" ann { a with flagsMaterialised := true } n = .ok view n' ∧
      (view.1.run ⟨limitRuntime.kernel, fun _ _ => lowRows⟩ []).val = [[("amount", .int 3), ("half", .int 1)]] := by
  refine ⟨_, .cons ⟨⟨trivial, trivial, List.forall_mem_nil _⟩, .registers (.inl rfl)⟩
    (.cons ⟨⟨trivial, trivial, List.forall_mem_nil _⟩, .registers (.inl rfl)⟩
      (.cons ⟨⟨trivial, trivial, List.forall_mem_nil _⟩, .begins rfl ?_ rfl⟩
        (.cons ⟨⟨trivial, ?_, List.forall_mem_nil _⟩, .writes rfl ?_ ?_ rfl⟩
          (.cons ⟨⟨?_, trivial, List.forall_mem_nil _⟩, .finishes rfl (answers_commitsOnce rfl)⟩
            (.cons ⟨⟨trivial, trivial, List.forall_mem_nil _⟩, .registers (.inr rfl)⟩ (.nil _)))))),
    rfl, rfl, rfl, _, _, _, _, _, rfl, rfl, rfl, ?_⟩
  · rintro (⟨table, t, ht, _⟩ | ⟨i, w, hw, _⟩)
    · cases ht
    · cases hw
  · intro w hw
    cases hw
    exact laid_low
  · decide
  · exact newFiles_amounts (by decide) rfl rfl rfl rfl
  · intro w hw hloc
    obtain rfl := Option.some.inj hw
    exact absurd rfl (hloc "amounts")
  · decide

theorem stored_views_of_calls_amounts : ∃ τ a m n view n' live,
    Run (Guarded (fun σ a => Covers σ a ∧ σ.Laid limitRuntime LowOrHigh a ∧ ∀ f ∈ a.copies, f.Apt LowOrHigh)
        (FleetStep limitRuntime LowOrHigh)) limitFleet raisesLimit τ ∧
      resolveAt limitRuntime "acme/amounts" ann .exclude none (τ.node 1 9) = .ok (a, m) n ∧
      a.flagsMaterialised = true ∧ contractViewFor limitRuntime "acme/amounts" ann a n = .ok view n' ∧
      (view.1.run ⟨limitRuntime.kernel, fun _ _ => lowRows⟩ []).val = [[("amount", .int 3), ("half", .int 1)]] ∧
      contractViewFor limitRuntime "acme/amounts" ann { a with flagsMaterialised := false } n = .ok live n' ∧
      SameView limitRuntime.kernel view live := by
  obtain ⟨τ, hrun, hreg, hl, hfiles, a, m, n, view, n', hread, hcurrent, hview, hrows⟩ := raises_run
  have hsound := (unrecorded_limit.sound.run counts_limits (hrun.weaken fun _ _ ha => ha.1)).1
  have htells := (hsound.read counts_limits hreg hl trivial hread).1
  rw [hfiles] at htells
  have hstored : a.flagsMaterialised = true := by
    rw [hcurrent, flagsCurrent_of_tells htells]
    decide
  have hview : contractViewFor limitRuntime "acme/amounts" ann a n = .ok view n' := by
    rw [← hstored] at hview
    exact hview
  obtain ⟨live, hlive, hsame⟩ := stored_views_of_calls counts_limits stores_lowOrHigh
    (lowOrHigh_eq (fun c => c.contract.contractHash) (by decide)) unrecorded_limit unwritten_limit hrun hreg hl trivial
    hread hstored hview
  exact ⟨τ, a, m, n, view, n', live, hrun, hread, hstored, hview, hrows, hlive, hsame⟩

end Peql
