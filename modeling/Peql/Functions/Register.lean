import Peql.Functions

/-!
# Registrations that fail

A bundle's functions are adopted before the compiled contract is read and stored, and nothing gives back what a failed
registration replaced. So a registration that fails has changed nothing exactly when the functions that load before it
fails, of each name the last, are registered as they are already (`failed_registers_nothing_iff`).
-/

namespace Peql

/-- Functions of one name and owner: the later replaces the earlier. -/
def SameFunction (f g : BundledFunction) : Prop := f.owner = g.owner ∧ f.manifest.name = g.manifest.name

instance (f g : BundledFunction) : Decidable (SameFunction f g) := inferInstanceAs (Decidable (_ ∧ _))

/-- Of a list of functions, those no later one replaces. -/
def lasts : List BundledFunction → List BundledFunction
  | [] => []
  | f :: fs => if fs.any fun g => SameFunction f g then lasts fs else f :: lasts fs

section Lists

variable (K : FunctionKernel)

/-- Functions that load one after another: each installs, no other owner has its name, and those of one name are of one
owner. -/
structure AllLoad (s : FunctionStore) (fs : List BundledFunction) : Prop where
  installed : ∀ f ∈ fs, ∃ e b, K.installed f = .ok (e, b)
  free : ∀ f ∈ fs, s.taken f.manifest.name f.owner = none
  agree : fs.Pairwise fun f g => f.manifest.name = g.manifest.name → f.owner = g.owner

/-- The bundle an installed function is carried in. -/
def bundled (f : BundledFunction) : List BundledFunction :=
  match K.installed f with
  | .ok (_, b) => [b]
  | .error _ => []

/-- Loading the functions again would leave the store as it is: each is registered, and their modules are its last. -/
structure AlreadyThere (s : FunctionStore) (fs : List BundledFunction) : Prop where
  registered : ∀ f ∈ lasts fs, ∀ e b, K.installed f = .ok (e, b) → s.registry f.manifest.name = some e
  carried : s.modules = (s.modules.filter fun m => ¬ ∃ f ∈ fs, SameFunction m f) ++ (lasts fs).flatMap (bundled K)

/-- The compiled contract is read, is the document's, and the store takes it. -/
def Accepted (s : ContractStore) (document : String) (compiled : List UInt8) (fault : Option PeqlError) : Prop :=
  (∃ c, K.fromBytes compiled = .ok c ∧ c.contract.name = document) ∧ (fault = none ∨ ∃ contents, s = .memory contents)

/-- Either nothing fails, or the functions that load before something does are there already. -/
def Harmless (s : Registrar) (document : String) (compiled : List UInt8) (functions : List BundledFunction)
    (fault : Option PeqlError) : Prop :=
  AllLoad K s.functions functions ∧ Accepted K s.store document compiled fault ∨
    ∃ loaded rest, functions = loaded ++ rest ∧ AllLoad K s.functions loaded ∧
      (∀ f after, rest = f :: after → ¬ AllLoad K s.functions (loaded ++ [f])) ∧ AlreadyThere K s.functions loaded

/-- The store with functions loaded into it. -/
def addAll : FunctionStore → List BundledFunction → FunctionStore
  | s, [] => s
  | s, f :: fs =>
    match K.installed f with
    | .ok (e, b) => addAll (s.add e b) fs
    | .error _ => addAll s fs

end Lists

variable {K : FunctionKernel}

/-! ## What loading functions leaves -/

theorem add_registry (s : FunctionStore) (e : FunctionEntry) (b : BundledFunction) (name : String) :
    (s.add e b).registry name = if name = e.name then some e else s.registry name := Lookup.insert_apply ..

theorem taken_eq_none {s : FunctionStore} {name owner : String} :
    s.taken name owner = none ↔ ∀ e, s.registry name = some e → e.owner = owner := by
  unfold FunctionStore.taken
  simp only [Option.filter_eq_none_iff, decide_eq_true_eq, not_not]

theorem addAll_cons {s : FunctionStore} {f : BundledFunction} {fs : List BundledFunction} {e : FunctionEntry}
    {b : BundledFunction} (h : K.installed f = .ok (e, b)) : addAll K s (f :: fs) = addAll K (s.add e b) fs := by
  rw [addAll, h]

theorem bundle_same {f : BundledFunction} {e : FunctionEntry} {b : BundledFunction} (h : K.installed f = .ok (e, b)) :
    b.owner = f.owner ∧ b.manifest.name = f.manifest.name := by
  obtain ⟨module, _, _, rfl⟩ := installed_eq_ok h
  exact ⟨rfl, rfl⟩

/-- An installed function's entry has its name and its owner. -/
theorem entry_same (hK : K.Installs) {f : BundledFunction} {e : FunctionEntry} {b : BundledFunction}
    (h : K.installed f = .ok (e, b)) : e.name = f.manifest.name ∧ e.owner = f.owner := by
  obtain ⟨module, _, hinstall, _⟩ := installed_eq_ok h
  exact hK module f.manifest f.owner e hinstall

/-- When the first function of a list has loaded, the others load as they would into the store it left. -/
theorem allLoad_cons (hK : K.Installs) {s : FunctionStore} {f : BundledFunction} {fs : List BundledFunction}
    {e : FunctionEntry} {b : BundledFunction} (h : Loads K s f e b) :
    AllLoad K s (f :: fs) ↔ AllLoad K (s.add e b) fs := by
  obtain ⟨hname, howner⟩ := entry_same hK h.1
  have hafter : ∀ g : BundledFunction, (s.add e b).taken g.manifest.name g.owner = none ↔
      s.taken g.manifest.name g.owner = none ∧ (f.manifest.name = g.manifest.name → f.owner = g.owner) := by
    intro g
    rw [taken_eq_none, taken_eq_none]
    simp only [add_registry, hname]
    by_cases hg : g.manifest.name = f.manifest.name
    · have hf := taken_eq_none.1 h.2
      rw [hg, if_pos rfl]
      constructor
      · intro hadd
        have hgo := hadd e rfl
        exact ⟨fun e' he' => (hf e' he').trans (howner.symm.trans hgo), fun _ => howner.symm.trans hgo⟩
      · rintro ⟨-, hagree⟩ e' he'
        obtain rfl := Option.some.inj he'
        exact howner.trans (hagree rfl)
    · rw [if_neg hg]
      exact ⟨fun hadd => ⟨hadd, fun heq => absurd heq.symm hg⟩, And.left⟩
  constructor
  · rintro ⟨hinstalled, hfree, hagree⟩
    obtain ⟨hf, hfs⟩ := List.pairwise_cons.1 hagree
    refine ⟨fun g hg => hinstalled g (List.mem_cons_of_mem _ hg), fun g hg => (hafter g).2 ⟨?_, hf g hg⟩, hfs⟩
    exact hfree g (List.mem_cons_of_mem _ hg)
  · rintro ⟨hinstalled, hfree, hagree⟩
    refine ⟨?_, ?_, List.pairwise_cons.2 ⟨fun g hg => ((hafter g).1 (hfree g hg)).2, hagree⟩⟩
    · exact List.forall_mem_cons.2 ⟨⟨e, b, h.1⟩, hinstalled⟩
    · exact List.forall_mem_cons.2 ⟨h.2, fun g hg => ((hafter g).1 (hfree g hg)).1⟩

theorem AllLoad.left {s : FunctionStore} {fs gs : List BundledFunction} (h : AllLoad K s (fs ++ gs)) : AllLoad K s fs :=
  ⟨fun f hf => h.installed f (List.mem_append_left _ hf), fun f hf => h.free f (List.mem_append_left _ hf),
    (List.pairwise_append.1 h.agree).1⟩

theorem AllLoad.nil (s : FunctionStore) : AllLoad K s [] := ⟨by simp, by simp, .nil⟩

/-- The functions that load are added; where one does not, the list is left there. -/
theorem adopt_spec (hK : K.Installs) (functions : List BundledFunction) (s : Registrar) :
    ∃ loaded rest, functions = loaded ++ rest ∧ AllLoad K s.functions loaded ∧
      (∀ f after, rest = f :: after → ¬ AllLoad K s.functions (loaded ++ [f])) ∧
      (rest = [] → adopt K functions s = .ok () { s with functions := addAll K s.functions loaded }) ∧
      (rest ≠ [] → ∃ err, adopt K functions s = .error err { s with functions := addAll K s.functions loaded }) := by
  induction functions generalizing s with
  | nil => exact ⟨[], [], rfl, AllLoad.nil _, fun _ _ h => (nomatch h), fun _ => rfl, fun h => absurd rfl h⟩
  | cons f fs ih =>
    rcases adopt_cons (K := K) f fs s with ⟨e, b, hloads, hadopt⟩ | ⟨hfails, err, hadopt⟩
    · obtain ⟨loaded, rest, rfl, hall, hstop, hok, herr⟩ := ih { s with functions := s.functions.add e b }
      refine ⟨f :: loaded, rest, rfl, (allLoad_cons hK hloads).2 hall, ?_, ?_, ?_⟩
      · intro g after hrest hall'
        exact hstop g after hrest ((allLoad_cons hK hloads).1 hall')
      · intro hrest
        rw [hadopt, hok hrest, addAll_cons hloads.1]
      · intro hrest
        obtain ⟨err, herr⟩ := herr hrest
        exact ⟨err, by rw [hadopt, herr, addAll_cons hloads.1]⟩
    · refine ⟨[], f :: fs, rfl, AllLoad.nil _, ?_, fun h => (nomatch h), fun _ => ⟨err, hadopt⟩⟩
      rintro g after heq hall
      obtain ⟨rfl, -⟩ := List.cons.inj heq
      obtain ⟨e, b, hinstalled⟩ := hall.installed f (by simp)
      exact hfails e b ⟨hinstalled, hall.free f (by simp)⟩

/-! ## When that is what there was -/

theorem mem_of_lasts {f : BundledFunction} {fs : List BundledFunction} (h : f ∈ lasts fs) : f ∈ fs := by
  induction fs with
  | nil => exact h
  | cons g gs ih =>
    unfold lasts at h
    split at h
    · exact List.mem_cons_of_mem _ (ih h)
    · rcases List.mem_cons.1 h with rfl | h
      · exact List.mem_cons_self
      · exact List.mem_cons_of_mem _ (ih h)

/-- Every function is the last of its name, or replaced by it. -/
theorem exists_last {f : BundledFunction} {fs : List BundledFunction} (h : f ∈ fs) :
    ∃ g ∈ lasts fs, SameFunction f g := by
  induction fs generalizing f with
  | nil => cases h
  | cons g gs ih =>
    unfold lasts
    split
    next hany =>
      rcases List.mem_cons.1 h with rfl | h
      · obtain ⟨g', hg', hsame⟩ := List.any_eq_true.1 hany
        have hsame' : SameFunction f g' := of_decide_eq_true hsame
        obtain ⟨last, hlast, hsame''⟩ := ih hg'
        exact ⟨last, hlast, hsame'.1.trans hsame''.1, hsame'.2.trans hsame''.2⟩
      · exact ih h
    next =>
      rcases List.mem_cons.1 h with rfl | h
      · exact ⟨f, List.mem_cons_self, rfl, rfl⟩
      · obtain ⟨last, hlast, hsame⟩ := ih h
        exact ⟨last, List.mem_cons_of_mem _ hlast, hsame⟩

/-- A name no function has is registered as it was. -/
theorem addAll_other (hK : K.Installs) {s : FunctionStore} {fs : List BundledFunction} {name : String}
    (h : ∀ f ∈ fs, f.manifest.name ≠ name) : (addAll K s fs).registry name = s.registry name := by
  induction fs generalizing s with
  | nil => rfl
  | cons f fs ih =>
    obtain ⟨hf, hfs⟩ := List.forall_mem_cons.1 h
    cases hinstalled : K.installed f with
    | error err =>
      rw [addAll, hinstalled]
      exact ih hfs
    | ok eb =>
      obtain ⟨e, b⟩ := eb
      rw [addAll_cons hinstalled, ih hfs, add_registry, if_neg]
      rw [(entry_same hK hinstalled).1]
      exact hf.symm

/-- The last function of a name is the one registered. -/
theorem addAll_last (hK : K.Installs) {s : FunctionStore} {fs : List BundledFunction} (h : AllLoad K s fs)
    {f : BundledFunction} (hf : f ∈ lasts fs) {e : FunctionEntry} {b : BundledFunction}
    (hinstalled : K.installed f = .ok (e, b)) : (addAll K s fs).registry f.manifest.name = some e := by
  induction fs generalizing s with
  | nil => cases hf
  | cons g gs ih =>
    obtain ⟨e', b', hg⟩ := h.installed g List.mem_cons_self
    have hgs := (allLoad_cons hK ⟨hg, h.free g List.mem_cons_self⟩).1 h
    rw [addAll_cons hg]
    unfold lasts at hf
    split at hf
    · exact ih hgs hf
    next hany =>
      rcases List.mem_cons.1 hf with rfl | hf
      · obtain ⟨rfl, rfl⟩ : e' = e ∧ b' = b := by simpa using hg.symm.trans hinstalled
        -- No later function has the name: it would have the owner too.
        have hother : ∀ g ∈ gs, g.manifest.name ≠ f.manifest.name := by
          intro g hmem heq
          refine hany (List.any_eq_true.2 ⟨g, hmem, decide_eq_true ⟨?_, heq.symm⟩⟩)
          exact (List.pairwise_cons.1 h.agree).1 g hmem heq.symm
        rw [addAll_other hK hother, add_registry, if_pos (entry_same hK hinstalled).1.symm]
      · exact ih hgs hf

/-- The modules are those of other functions, and then the last of each name. -/
theorem addAll_modules {s : FunctionStore} {fs : List BundledFunction}
    (h : ∀ f ∈ fs, ∃ e b, K.installed f = .ok (e, b)) :
    (addAll K s fs).modules =
      (s.modules.filter fun m => ¬ ∃ f ∈ fs, SameFunction m f) ++ (lasts fs).flatMap (bundled K) := by
  induction fs generalizing s with
  | nil => simp [addAll, lasts]
  | cons f fs ih =>
    obtain ⟨⟨e, b, hinstalled⟩, hfs⟩ := List.forall_mem_cons.1 h
    obtain ⟨howner, hname⟩ := bundle_same hinstalled
    have hadd : (s.add e b).modules = (s.modules.filter fun m => ¬ SameFunction m f) ++ [b] := by
      unfold FunctionStore.add SameFunction
      rw [howner, hname]
      rfl
    have hbundled : bundled K f = [b] := by
      unfold bundled
      rw [hinstalled]
    have hb : SameFunction b f := ⟨howner, hname⟩
    have hany : (fs.any fun g => SameFunction f g) = true ↔ ∃ g ∈ fs, SameFunction b g := by
      rw [List.any_eq_true]
      constructor
      · rintro ⟨g, hg, hsame⟩
        have hsame' : SameFunction f g := of_decide_eq_true hsame
        exact ⟨g, hg, howner.trans hsame'.1, hname.trans hsame'.2⟩
      · rintro ⟨g, hg, hsame⟩
        exact ⟨g, hg, decide_eq_true ⟨howner.symm.trans hsame.1, hname.symm.trans hsame.2⟩⟩
    rw [addAll_cons hinstalled, ih hfs, hadd, List.filter_append, List.filter_filter]
    have hkept : (s.modules.filter fun m => (decide ¬ ∃ g ∈ fs, SameFunction m g) && decide ¬ SameFunction m f) =
        s.modules.filter fun m => ¬ ∃ g ∈ f :: fs, SameFunction m g := by
      refine List.filter_congr fun m _ => ?_
      simp [Bool.and_comm]
    rw [hkept, List.append_assoc]
    congr 1
    by_cases hlater : (fs.any fun g => SameFunction f g) = true
    · rw [lasts, if_pos hlater, List.filter_cons_of_neg]
      · rfl
      · simpa using hany.1 hlater
    · rw [lasts, if_neg hlater, List.filter_cons_of_pos, List.flatMap_cons, hbundled]
      · rfl
      · exact decide_eq_true fun hex => hlater (hany.2 hex)

/-- Loading functions leaves a store as it is when they are there already. -/
theorem addAll_eq_iff (hK : K.Installs) {s : FunctionStore} {fs : List BundledFunction} (h : AllLoad K s fs) :
    addAll K s fs = s ↔ AlreadyThere K s fs := by
  constructor
  · intro heq
    refine ⟨fun f hf e b hinstalled => ?_, ?_⟩
    · rw [← addAll_last hK h hf hinstalled, heq]
    · rw [← addAll_modules h.installed, heq]
  · rintro ⟨hregistered, hcarried⟩
    have hregistry : (addAll K s fs).registry = s.registry := by
      funext name
      by_cases hname : ∃ f ∈ fs, f.manifest.name = name
      · obtain ⟨f, hf, rfl⟩ := hname
        obtain ⟨g, hg, hsame⟩ := exists_last hf
        obtain ⟨e, b, hinstalled⟩ := h.installed g (mem_of_lasts hg)
        rw [hsame.2, addAll_last hK h hg hinstalled, hregistered g hg e b hinstalled]
      · exact addAll_other hK fun f hf heq => hname ⟨f, hf, heq⟩
    have hmodules : (addAll K s fs).modules = s.modules := (addAll_modules h.installed).trans hcarried.symm
    cases hs : addAll K s fs with
    | mk registry modules =>
      rw [hs] at hregistry hmodules
      cases s
      simp only at hregistry hmodules
      rw [hregistry, hmodules]

/-! ## Registrations that fail -/

/-- The contract is read and stored, or the registration ends with an error and the state as it was. -/
theorem read_and_put (document : String) (compiled : List UInt8) (fault : Option PeqlError) (s : Registrar) :
    (Accepted K s.store document compiled fault ∧ ∃ reg t, (do
        let reg ← Effects.ofExcept (Registered.fromCompiled K document compiled)
        putContract reg fault
        return reg : EStateM PeqlError Registrar Registered) s = .ok reg t) ∨
      ¬ Accepted K s.store document compiled fault ∧ ∃ err, (do
        let reg ← Effects.ofExcept (Registered.fromCompiled K document compiled)
        putContract reg fault
        return reg : EStateM PeqlError Registrar Registered) s = .error err s := by
  cases hread : Registered.fromCompiled K document compiled with
  | error err =>
    right
    refine ⟨?_, err, by rw [Effects.bind_apply]; rfl⟩
    rintro ⟨⟨c, hc, hname⟩, -⟩
    unfold Registered.fromCompiled at hread
    rw [hc] at hread
    have hread' : (if c.contract.name ≠ document then _ else .ok ⟨c⟩ : Except PeqlError Registered) =
        .error err := hread
    rw [if_neg (not_not_intro hname)] at hread'
    cases hread'
  | ok reg =>
    have hdecoded : ∃ c, K.fromBytes compiled = .ok c ∧ c.contract.name = document := by
      unfold Registered.fromCompiled at hread
      obtain ⟨c, hc, hread⟩ := bind_eq_ok.1 hread
      split at hread
      · cases hread
      next hname =>
        refine ⟨c, ?_, not_not.1 hname⟩
        cases hbytes : K.fromBytes compiled with
        | error cause =>
          rw [hbytes] at hc
          cases hc
        | ok c' =>
          rw [hbytes] at hc
          exact congrArg _ (Except.ok.inj hc)
    have hput : ∀ store put, s.store.put reg fault = (store, put) → (do
        let reg ← Effects.ofExcept (.ok reg)
        putContract reg fault
        return reg : EStateM PeqlError Registrar Registered) s =
        match put with
        | .ok () => .ok reg { s with store := store }
        | .error err => .error err { s with store := store } := by
      intro store put hput
      unfold putContract
      simp only [Effects.bind_apply, Effects.ofExcept_apply, Effects.get_apply, hput]
      cases put <;> rfl
    cases hstore : s.store.put reg fault with
    | mk store put =>
      cases put with
      | ok u =>
        refine .inl ⟨⟨hdecoded, ?_⟩, reg, _, hput store (.ok u) hstore⟩
        cases hs : s.store with
        | memory contents => exact .inr ⟨contents, rfl⟩
        | dir d =>
          left
          cases fault with
          | none => rfl
          | some e =>
            rw [hs] at hstore
            cases hstore
      | error err =>
        have hsame : store = s.store := by
          have herror : (s.store.put reg fault).2 = .error err := by rw [hstore]
          have hrefused := put_refused herror
          rwa [hstore] at hrefused
        refine .inr ⟨?_, err, ?_⟩
        · rintro ⟨-, rfl | ⟨contents, hs⟩⟩
          · cases hs : s.store with
            | memory contents =>
              rw [hs] at hstore
              cases hstore
            | dir d =>
              rw [hs] at hstore
              cases hstore
          · rw [hs] at hstore
            cases hstore
        · rw [hput store (.error err) hstore, hsame]

/-- The loaded functions of a list are told by where it stops. -/
theorem loaded_unique {s : FunctionStore} {xs ys xs' ys' : List BundledFunction} (heq : xs ++ ys = xs' ++ ys')
    (hxs : AllLoad K s xs) (hys : ∀ f after, ys = f :: after → ¬ AllLoad K s (xs ++ [f])) (hxs' : AllLoad K s xs')
    (hys' : ∀ f after, ys' = f :: after → ¬ AllLoad K s (xs' ++ [f])) : xs = xs' := by
  -- What the longer list has beyond the shorter begins with a function that loads, where the shorter stops.
  have hnone : ∀ {xs ys zs as : List BundledFunction}, (∀ f after, ys = f :: after → ¬ AllLoad K s (xs ++ [f])) →
      ys = as ++ zs → AllLoad K s (xs ++ as) → as = [] := by
    intro xs ys zs as hstop hys hall
    cases as with
    | nil => rfl
    | cons f as =>
      rw [List.append_cons] at hall
      exact absurd hall.left (hstop f (as ++ zs) hys)
  rcases List.append_eq_append_iff.1 heq with ⟨as, hxs'', hys''⟩ | ⟨bs, hxs'', hys''⟩
  · rw [hxs''] at hxs'
    rw [hxs'', hnone hys hys'' hxs', List.append_nil]
  · rw [hxs''] at hxs
    rw [hxs'', hnone hys' hys'' hxs, List.append_nil]

/-- A registration that fails has changed nothing exactly when nothing fails, or the functions that load before it does
are in the store already. -/
theorem failed_registers_nothing_iff (hK : K.Installs) (document : String) (compiled : List UInt8)
    (functions : List BundledFunction) (fault : Option PeqlError) (s : Registrar) :
    (∀ e t, registerCompiled K document compiled functions fault s = .error e t → t = s) ↔
      Harmless K s document compiled functions fault := by
  obtain ⟨loaded, rest, rfl, hall, hstop, hok, herr⟩ := adopt_spec hK functions s
  have hmaximal : ∀ loaded' rest', loaded ++ rest = loaded' ++ rest' → AllLoad K s.functions loaded' →
      (∀ f after, rest' = f :: after → ¬ AllLoad K s.functions (loaded' ++ [f])) → loaded' = loaded :=
    fun _ _ heq hall' hstop' => (loaded_unique heq hall hstop hall' hstop').symm
  have hthere : ({ s with functions := addAll K s.functions loaded } : Registrar) = s ↔
      AlreadyThere K s.functions loaded := by
    rw [← addAll_eq_iff hK hall]
    cases s
    simp
  by_cases hrest : rest = []
  · subst hrest
    have hrun : registerCompiled K document compiled (loaded ++ []) fault s = (do
        let reg ← Effects.ofExcept (Registered.fromCompiled K document compiled)
        putContract reg fault
        return reg : EStateM PeqlError Registrar Registered) { s with functions := addAll K s.functions loaded } :=
      Effects.bind_of_ok (hok rfl) _
    rcases read_and_put (K := K) document compiled fault { s with functions := addAll K s.functions loaded } with
      ⟨haccepted, reg, t, hend⟩ | ⟨hrefused, err, hend⟩
    · rw [hrun, hend]
      refine ⟨fun _ => .inl ⟨?_, haccepted⟩, ?_⟩
      · rwa [List.append_nil]
      · rintro _ e t ⟨⟩
    · rw [hrun, hend]
      constructor
      · intro hunchanged
        exact .inr ⟨loaded, [], rfl, hall, hstop, hthere.1 (hunchanged err _ rfl)⟩
      · rintro (⟨-, haccepted⟩ | ⟨loaded', rest', heq, hall', hstop', halready⟩)
        · exact absurd haccepted hrefused
        · rintro e t ⟨⟩
          rw [hmaximal loaded' rest' heq hall' hstop'] at halready
          exact hthere.2 halready
  · obtain ⟨err, hfails⟩ := herr hrest
    have hrun : registerCompiled K document compiled (loaded ++ rest) fault s =
        .error err { s with functions := addAll K s.functions loaded } := by
      unfold registerCompiled
      rw [Effects.bind_apply, hfails]
    rw [hrun]
    constructor
    · intro hunchanged
      exact .inr ⟨loaded, rest, rfl, hall, hstop, hthere.1 (hunchanged err _ rfl)⟩
    · rintro (⟨hall', -⟩ | ⟨loaded', rest', heq, hall', hstop', halready⟩)
      · obtain ⟨f, after, rfl⟩ := List.exists_cons_of_ne_nil hrest
        rw [List.append_cons] at hall'
        exact absurd hall'.left (hstop f after rfl)
      · rintro e t ⟨⟩
        rw [hmaximal loaded' rest' heq hall' hstop'] at halready
        exact hthere.2 halready

/-- Modules of one byte, and contracts that do not decode. -/
def byteKernel : FunctionKernel where
  hexDecode text := if text = "00" then .ok [0] else if text = "01" then .ok [1] else .error "Invalid string length"
  hexEncode module := if module = [0] then "00" else "01"
  install module manifest owner := .ok ⟨manifest.name, owner, if module = [0] then "h0" else "h1"⟩
  fromBytes _ := .error "EOF while parsing a value at line 1 column 0"

theorem byteKernel_installs : byteKernel.Installs := by
  intro module manifest owner entry h
  cases h
  exact ⟨rfl, rfl⟩

/-- A function of one byte. -/
def normFunction (module : String) : BundledFunction := ⟨"acme", ⟨"norm", "f64 -> f64"⟩, module⟩

/-- A store with the first module registered. -/
def normRegistered : Registrar where
  functions := ⟨Lookup.ofList [("norm", ⟨"norm", "acme", "h0"⟩)], [normFunction "00"]⟩
  store := .memory .empty

theorem failed_registers_nothing_again :
    ∃ e, registerCompiled byteKernel "acme/eu" [] [normFunction "00"] none normRegistered =
      .error e normRegistered := by
  suffices h : ∀ e t, registerCompiled byteKernel "acme/eu" [] [normFunction "00"] none normRegistered = .error e t →
      t = normRegistered by
    cases hrun : registerCompiled byteKernel "acme/eu" [] [normFunction "00"] none normRegistered with
    | error e t => exact ⟨e, by rw [h e t hrun]⟩
    | ok a t => cases hrun
  refine (failed_registers_nothing_iff byteKernel_installs "acme/eu" [] [normFunction "00"] none normRegistered).2 ?_
  refine .inr ⟨[normFunction "00"], [], rfl, ⟨?_, ?_, List.pairwise_singleton _ _⟩, fun _ _ h => (nomatch h), ?_, ?_⟩
  · intro f hf
    obtain rfl := List.mem_singleton.1 hf
    exact ⟨_, _, rfl⟩
  · intro f hf
    obtain rfl := List.mem_singleton.1 hf
    rfl
  · rintro f hf e b hinstalled
    obtain rfl := List.mem_singleton.1 hf
    cases hinstalled
    rfl
  · rfl

/-- The function a contract is pinned to is replaced by a registration that then fails. -/
theorem failed_replaces_function :
    ¬ ∀ e t, registerCompiled byteKernel "acme/eu" [] [normFunction "01"] none normRegistered = .error e t →
      t = normRegistered := by
  intro h
  have hreplaced := h _ _ rfl
  have hentry : some (⟨"norm", "acme", "h1"⟩ : FunctionEntry) = some ⟨"norm", "acme", "h0"⟩ :=
    congrArg (fun s : Registrar => s.functions.registry "norm") hreplaced
  exact absurd hentry (by decide)

end Peql
