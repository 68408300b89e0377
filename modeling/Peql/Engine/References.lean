import Peql.Engine.Named
import Peql.Engine.Reconciled

/-!
# The references of a statement

A statement's references are resolved one after another: a name already resolved is skipped, a qualified reference is
refused, and any other is resolved and its view registered. What should be refused is said of each reference by itself
(`PassesAll`): the references passed are bare, and each distinct name among them is resolved once, where it comes first.
The loop asks whether a name is resolved before it asks whether the reference is qualified, so it agrees with that
exactly when it meets no qualified reference to a name it has resolved (`only_bare_names_iff`).
-/

namespace Peql

open Effects

namespace Resolved

/-- What has been resolved, and then a reference resolved by itself. -/
def add (done one : Resolved) : Resolved where
  resolutions := done.resolutions ++ one.resolutions
  active := done.active ++ one.active
  fingerprints := done.fingerprints ++ one.fingerprints
  views := done.views ++ one.views
  reads := done.reads ++ one.reads

/-- Whether a name is resolved. -/
def Has (done : Resolved) (name : String) : Prop := ∃ r ∈ done.resolutions, r.contract = name

/-- A contract is resolved already. -/
theorem any_iff (done : Resolved) (name : String) :
    (done.resolutions.any fun r => r.contract = name) = true ↔ done.Has name := by
  unfold Has
  simp

end Resolved

section Statement

variable (R : Runtime) (caller : Caller) (asOf : AsOf) (onViolation : OnReadViolation)

/-- References as they should be passed from a state: all bare, the first of each name resolved and registered. -/
inductive PassesAll (n : Node) : List TableRef → Resolved → Node → Prop
  | start : PassesAll n [] .none n
  | first {refs : List TableRef} {done one : Resolved} {t : TableRef} {m k : Node} (h : PassesAll n refs done m)
      (hbare : t.qualifier = none) (hnew : ¬ done.Has t.table)
      (hone : resolveReference R caller asOf onViolation t .none m = .ok one k) :
      PassesAll n (refs ++ [t]) (done.add one) k
  | again {refs : List TableRef} {done : Resolved} {t : TableRef} {m : Node} (h : PassesAll n refs done m)
      (hbare : t.qualifier = none) (hseen : done.Has t.table) : PassesAll n (refs ++ [t]) done m

/-- An error that is a reference's own. -/
structure Blames (n : Node) (t : TableRef) (e : PeqlError) : Prop where
  /-- A reference that is qualified, or names nothing the caller may see, is unknown. -/
  unknown : t.qualifier.isSome ∨ (∃ err, n.engine.visible t.table caller = .error err) → e = .unknownContract t.display
  /-- Whatever else it is refused for, the refusal names it. -/
  named : Names t.display e

/-- The first reference that does not pass is where the loop stops, with an error of that reference. -/
def StopsAtFirst (n : Node) (refs : List TableRef) (e : PeqlError) (m : Node) : Prop :=
  ∃ before t after done k, refs = before ++ t :: after ∧ PassesAll R caller asOf onViolation n before done k ∧
    resolveReference R caller asOf onViolation t done k = .error e m ∧ Blames caller n t e

/-- What the references resolved are, and what was made of each. -/
structure Admitted (n : Node) (refs : List TableRef) (done : Resolved) : Prop where
  bare : ∀ t ∈ refs, t.qualifier = none
  visible : ∀ t ∈ refs, ∃ reg, n.engine.visible t.table caller = .ok reg
  resolved : ∀ name, done.Has name ↔ ∃ t ∈ refs, t.table = name
  once : (done.resolutions.map Resolution.contract).Nodup
  rules : ∀ r ∈ done.resolutions, ∃ m manifest k,
    resolveAt R r.contract caller onViolation ((asOf.lookup r.contract).or (n.engine.frozen.lookup r.contract)) m =
      .ok (r, manifest) k
  views : done.views.map Prod.fst = done.resolutions.map fun r => ⟨none, r.contract⟩

/-- Only bare names of contracts are read: a statement is past its references when each is one, and is otherwise refused
for the first that is not, with nothing charged. -/
structure OnlyBareNames (sql : String) (n : Node) (refs : List TableRef) : Prop where
  prepared : ∀ p m, prepare R sql caller asOf onViolation n = .ok p m →
    ∃ done k, resolveReferences R caller asOf onViolation refs .none n = .ok done k ∧ p.resolutions = done.resolutions
  past : ∀ done m, resolveReferences R caller asOf onViolation refs .none n = .ok done m →
    PassesAll R caller asOf onViolation n refs done m ∧ Admitted R caller asOf onViolation n refs done
  refused : ∀ e m, resolveReferences R caller asOf onViolation refs .none n = .error e m →
    StopsAtFirst R caller asOf onViolation n refs e m ∧ prepare R sql caller asOf onViolation n = .error e m ∧
      (∀ auditId, run R sql caller auditId asOf onViolation n = .error e m) ∧ m.engine.budgets = n.engine.budgets

/-- Behind references that all pass, a qualified one that repeats the name of one of them. -/
def RepeatsQualified (n : Node) (refs : List TableRef) : Prop :=
  ∃ before q after done m, refs = before ++ q :: after ∧ PassesAll R caller asOf onViolation n before done m ∧
    q.qualifier.isSome ∧ ∃ t ∈ before, t.table = q.table

end Statement

variable {R : Runtime} {caller : Caller} {asOf : AsOf} {onViolation : OnReadViolation}

/-! ## One reference -/

/-- A reference to it is passed over. -/
theorem resolveReference_seen {t : TableRef} {done : Resolved} (h : done.Has t.table) (n : Node) :
    resolveReference R caller asOf onViolation t done n = .ok done n := by
  unfold resolveReference
  dsimp only
  rw [if_pos ((done.any_iff t.table).2 h)]
  rfl

/-- A qualified one is refused. -/
theorem resolveReference_qualified {t : TableRef} {done : Resolved} (h : ¬ done.Has t.table)
    (hqualified : t.qualifier.isSome) (n : Node) :
    resolveReference R caller asOf onViolation t done n = .error (.unknownContract t.display) n := by
  unfold resolveReference
  dsimp only
  rw [if_neg (fun hany => h ((done.any_iff t.table).1 hany)), if_pos hqualified]
  rfl

theorem none_any (name : String) : ¬ (Resolved.none.resolutions.any fun r => r.contract = name) = true := by
  simp [Resolved.none]

theorem not_qualified {t : TableRef} (h : t.qualifier = none) : ¬ t.qualifier.isSome = true := by
  rw [h]
  simp

/-- A name that comes first is resolved as by itself. -/
theorem resolveReference_new {t : TableRef} {done : Resolved} (h : ¬ done.Has t.table) (hbare : t.qualifier = none) :
    resolveReference R caller asOf onViolation t done =
      done.add <$> resolveReference R caller asOf onViolation t .none := by
  have hnew : ¬ (done.resolutions.any fun r => r.contract = t.table) = true :=
    fun hany => h ((done.any_iff t.table).1 hany)
  unfold resolveReference
  dsimp only
  rw [if_neg hnew, if_neg (none_any t.table), if_neg (not_qualified hbare), if_neg (not_qualified hbare)]
  simp only [map_bind, map_pure]
  rfl

theorem display_of_bare {t : TableRef} (h : t.qualifier = none) : t.display = t.table := by
  unfold TableRef.display
  rw [h]

/-- A reference resolved by itself: one contract, of its name, visible, resolved by its rules and registered. -/
structure One (R : Runtime) (caller : Caller) (asOf : AsOf) (onViolation : OnReadViolation) (n : Node) (t : TableRef)
    (r : Resolution) : Prop where
  contract : r.contract = t.table
  visible : ∃ reg, n.engine.visible t.table caller = .ok reg
  rules :
    ∃ manifest k, resolveAt R t.table caller onViolation ((asOf.lookup t.table).or (n.engine.frozen.lookup t.table)) n =
    .ok (r, manifest) k

/-- A resolution is of the contract it names. -/
theorem resolveAt_contract {name : String} {snapshot : Option Int} {n k : Node} {r : Resolution} {manifest : Manifest}
    (h : resolveAt R name caller onViolation snapshot n = .ok (r, manifest) k) : r.contract = name := by
  have hwith : ∀ {m : Node} {found : Ask (Option Manifest)},
      resolveWith R name caller onViolation found m = .ok (r, manifest) k → r.contract = name := by
    intro m found h
    unfold resolveWith at h
    obtain ⟨reg, hreg, h⟩ := Ask.engine_bind_ok.1 h
    obtain ⟨_, _, h⟩ := Effects.ofExcept_bind_ok.1 h
    obtain ⟨rule, _, h⟩ := Effects.ofExcept_bind_ok.1 h
    cases rule with
    | some rule => cases h
    | none =>
      obtain ⟨found, u, _, h⟩ := Effects.bind_eq_ok.1 h
      cases found with
      | none => cases h
      | some m' =>
        obtain ⟨a, ha, h⟩ := Ask.engine_bind_ok.1 h
        cases h
        exact (resolution_ok ha).contract.trans (visible_name hreg)
  unfold resolveAt at h
  cases snapshot with
  | none =>
    obtain ⟨_, _, _, h⟩ := Effects.bind_eq_ok.1 h
    exact hwith h
  | some s =>
    obtain ⟨_, _, _, h⟩ := Effects.bind_eq_ok.1 h
    exact hwith h

/-- A reference resolved has its one resolution. -/
theorem one_of_resolved {t : TableRef} {one : Resolved} {n k : Node} (hbare : t.qualifier = none)
    (h : resolveReference R caller asOf onViolation t .none n = .ok one k) :
    ∃ r, one.resolutions = [r] ∧ One R caller asOf onViolation n t r ∧ one.views.map Prod.fst = [t] := by
  unfold resolveReference at h
  dsimp only at h
  rw [if_neg (none_any t.table), if_neg (not_qualified hbare)] at h
  obtain ⟨reg, hreg, h⟩ := Ask.engine_bind_ok.1 h
  obtain ⟨frozen, hfrozen, h⟩ := Ask.engine_bind_ok.1 h
  cases hfrozen
  obtain ⟨⟨r, manifest⟩, k', hat, h⟩ := Effects.bind_eq_ok.1 h
  obtain ⟨⟨view, rows⟩, _, _, h⟩ := Effects.bind_eq_ok.1 h
  obtain ⟨_, _, h⟩ := Ask.engine_bind_ok.1 h
  obtain ⟨_, _, h⟩ := Effects.ofExcept_bind_ok.1 h
  obtain ⟨_, _, h⟩ := Effects.ofExcept_bind_ok.1 h
  cases h
  exact ⟨r, rfl, ⟨resolveAt_contract hat, ⟨reg, hreg⟩, manifest, k', hat⟩, rfl⟩

/-- An error met at a bare reference that comes first is its own. -/
theorem blames_of_error (hR : R.Plain) {t : TableRef} {n k : Node} {e : PeqlError} (hbare : t.qualifier = none)
    (h : resolveReference R caller asOf onViolation t .none n = .error e k) : Blames caller n t e := by
  have hnaming : Naming t.table (resolveReference R caller asOf onViolation t .none) := by
    unfold resolveReference
    dsimp only
    rw [if_neg (none_any t.table), if_neg (not_qualified hbare)]
    refine (naming_visible _ _).bind fun _ => Naming.bind (Naming.engine ?_) fun _ => ?_
    · rintro e err ⟨⟩
    refine (naming_resolveAt hR _ _ _ _).bind fun a => (naming_contractViewFor hR _ _ _).bind fun view => ?_
    refine (naming_get _).bind fun reg => (Naming.ofExcept (hR.activeShapes _ _)).bind fun _ => ?_
    refine (Naming.ofExcept ?_).bind fun _ => Naming.ret _
    intro err herr
    unfold paramsFingerprint at herr
    cases hparams : R.paramValues reg.compilation.contract caller with
    | ok params =>
      rw [hparams] at herr
      cases herr
    | error err' =>
      rw [hparams] at herr
      cases herr
      exact hR.paramValues _ _ _ hparams
  refine ⟨?_, ?_⟩
  · rintro (hqualified | ⟨err, herr⟩)
    · rw [hbare] at hqualified
      cases hqualified
    · unfold resolveReference at h
      dsimp only at h
      rw [if_neg (none_any t.table), if_neg (not_qualified hbare), bind_apply, Ask.engine_apply, herr] at h
      cases h
      rw [visible_error herr, display_of_bare hbare]
  · have hends := hnaming n trivial
    rw [h] at hends
    rwa [display_of_bare hbare]

/-- A reference that does not pass is where the loop stops, unless it is qualified and of a name resolved. -/
theorem stops_or_skips (hR : R.Plain) (t : TableRef) (done : Resolved) {n m : Node}
    (hstore : ∀ name, m.engine.visible name caller = n.engine.visible name caller) :
    (∃ done' k, t.qualifier = none ∧ resolveReference R caller asOf onViolation t done m = .ok done' k ∧
        ∀ refs, PassesAll R caller asOf onViolation n refs done m →
          PassesAll R caller asOf onViolation n (refs ++ [t]) done' k) ∨
      (∃ e k, resolveReference R caller asOf onViolation t done m = .error e k ∧ Blames caller n t e) ∨
      (t.qualifier.isSome ∧ done.Has t.table) := by
  by_cases hseen : done.Has t.table
  · cases hqualifier : t.qualifier with
    | none => exact .inl ⟨done, m, rfl, resolveReference_seen hseen m, fun refs h => .again h hqualifier hseen⟩
    | some q => exact .inr (.inr ⟨rfl, hseen⟩)
  · cases hqualifier : t.qualifier with
    | some q =>
      have hqualified : t.qualifier.isSome := by rw [hqualifier]; rfl
      exact .inr (.inl ⟨_, _, resolveReference_qualified hseen hqualified m, fun _ => rfl, fun _ => rfl⟩)
    | none =>
      cases hone : resolveReference R caller asOf onViolation t .none m with
      | ok one k =>
        refine .inl ⟨done.add one, k, rfl, ?_, fun refs h => .first h hqualifier hseen hone⟩
        rw [resolveReference_new hseen hqualifier, map_eq_pure_bind, bind_apply, hone]
        rfl
      | error e k =>
        refine .inr (.inl ⟨e, k, ?_, ?_⟩)
        · rw [resolveReference_new hseen hqualifier, map_eq_pure_bind, bind_apply, hone]
        · have hblames := blames_of_error hR hqualifier hone
          refine ⟨?_, hblames.named⟩
          rintro (hqualified | ⟨err, herr⟩)
          · exact hblames.unknown (.inl hqualified)
          · exact hblames.unknown (.inr ⟨err, (hstore t.table).trans herr⟩)

/-! ## One after another -/

namespace PassesAll

variable {n m : Node} {refs : List TableRef} {done : Resolved}

/-- References that pass are bare names. -/
theorem bare (h : PassesAll R caller asOf onViolation n refs done m) : ∀ t ∈ refs, t.qualifier = none := by
  induction h with
  | start => simp
  | first _ hbare _ _ ih =>
    rw [List.forall_mem_append, List.forall_mem_singleton]
    exact ⟨ih, hbare⟩
  | again _ hbare _ ih =>
    rw [List.forall_mem_append, List.forall_mem_singleton]
    exact ⟨ih, hbare⟩

/-- The loop passes what should be passed. -/
theorem runs (h : PassesAll R caller asOf onViolation n refs done m) :
    resolveReferences R caller asOf onViolation refs .none n = .ok done m := by
  have hlast : ∀ {refs : List TableRef} {t : TableRef} {done done' : Resolved} {m k : Node},
      resolveReferences R caller asOf onViolation refs .none n = .ok done m →
      resolveReference R caller asOf onViolation t done m = .ok done' k →
      resolveReferences R caller asOf onViolation (refs ++ [t]) .none n = .ok done' k := by
    intro refs t done done' m k hrefs ht
    rw [resolveReferences_append, bind_of_ok hrefs]
    unfold resolveReferences
    rw [bind_of_ok ht]
    rfl
  induction h with
  | start => rfl
  | first _ hbare hnew hone ih =>
    refine hlast ih ?_
    rw [resolveReference_new hnew hbare, map_eq_pure_bind, bind_of_ok hone]
    rfl
  | again _ _ hseen ih => exact hlast ih (resolveReference_seen hseen _)

/-- What the engine keeps beside its manifests is as it was. -/
theorem keeps {P : Node → Prop} (hP : DataStable P) (h : PassesAll R caller asOf onViolation n refs done m) (hn : P n) :
    P m := by
  have hkeeps := keeps_resolveReferences (R := R) hP caller asOf onViolation refs .none n hn
  rw [h.runs] at hkeeps
  exact hkeeps

/-- So much of the references as comes first passes too. -/
theorem prefix_passes {before after : List TableRef}
    (h : PassesAll R caller asOf onViolation n (before ++ after) done m) :
    ∃ done' k, PassesAll R caller asOf onViolation n before done' k := by
  generalize hrefs : before ++ after = refs at h
  induction h generalizing after with
  | start =>
    obtain ⟨rfl, rfl⟩ := List.append_eq_nil_iff.1 hrefs
    exact ⟨_, _, .start⟩
  | first h hbare hnew hone ih =>
    rcases List.eq_nil_or_concat after with rfl | ⟨after, t, rfl⟩
    · rw [List.append_nil] at hrefs
      subst hrefs
      exact ⟨_, _, .first h hbare hnew hone⟩
    · rw [List.concat_eq_append, ← List.append_assoc] at hrefs
      exact ih (List.append_inj_left' hrefs rfl)
  | again h hbare hseen ih =>
    rcases List.eq_nil_or_concat after with rfl | ⟨after, t, rfl⟩
    · rw [List.append_nil] at hrefs
      subst hrefs
      exact ⟨_, _, .again h hbare hseen⟩
    · rw [List.concat_eq_append, ← List.append_assoc] at hrefs
      exact ih (List.append_inj_left' hrefs rfl)

/-- The names resolved are those of the references. -/
theorem has_iff (h : PassesAll R caller asOf onViolation n refs done m) (name : String) :
    done.Has name ↔ ∃ t ∈ refs, t.table = name := by
  induction h with
  | start => simp [Resolved.Has, Resolved.none]
  | @first refs done one t m k h hbare hnew hone ih =>
    obtain ⟨r, hr, hof, -⟩ := one_of_resolved hbare hone
    have hadd : (done.add one).Has name ↔ done.Has name ∨ t.table = name := by
      unfold Resolved.Has Resolved.add
      rw [hr]
      simp only [List.mem_append, List.mem_singleton, or_and_right, exists_or, exists_eq_left, hof.contract]
    simp only [hadd, ih, List.mem_append, List.mem_singleton, or_and_right, exists_or, exists_eq_left]
  | @again refs done t m h hbare hseen ih =>
    simp only [ih, List.mem_append, List.mem_singleton, or_and_right, exists_or, exists_eq_left]
    refine ⟨.inl, ?_⟩
    rintro (hmem | rfl)
    · exact hmem
    · exact ih.1 hseen

/-- Resolving them changes no one's sight of a contract. -/
theorem visible (h : PassesAll R caller asOf onViolation n refs done m) (name : String) :
    m.engine.visible name caller = n.engine.visible name caller :=
  h.keeps (P := fun k => k.engine.visible name caller = n.engine.visible name caller)
    ⟨fun _ _ => id, fun _ _ => id, fun _ _ => id, fun _ _ => id⟩ rfl

theorem frozen (h : PassesAll R caller asOf onViolation n refs done m) : m.engine.frozen = n.engine.frozen :=
  h.keeps (P := fun k => k.engine.frozen = n.engine.frozen)
    ⟨fun _ _ => id, fun _ _ => id, fun _ _ => id, fun _ _ => id⟩ rfl

/-- References that pass are admitted, each once. -/
theorem admitted (h : PassesAll R caller asOf onViolation n refs done m) :
    Admitted R caller asOf onViolation n refs done := by
  have hhas := h.has_iff
  have hbare := h.bare
  induction h with
  | start => exact ⟨hbare, by simp, hhas, List.nodup_nil, by simp [Resolved.none], rfl⟩
  | @first refs done one t m k h ht hnew hone ih =>
    obtain ⟨r, hr, hof, hview⟩ := one_of_resolved ht hone
    have hbefore := ih h.has_iff h.bare
    obtain ⟨reg, hreg⟩ := hof.visible
    obtain ⟨manifest, k', hrules⟩ := hof.rules
    refine ⟨hbare, ?_, hhas, ?_, ?_, ?_⟩
    · rw [List.forall_mem_append, List.forall_mem_singleton]
      exact ⟨hbefore.visible, reg, (h.visible t.table).symm.trans hreg⟩
    · have hfresh : r.contract ∉ done.resolutions.map Resolution.contract := by
        rintro hmem
        obtain ⟨r', hr', heq⟩ := List.mem_map.1 hmem
        exact hnew ⟨r', hr', heq.trans hof.contract⟩
      show ((done.resolutions ++ one.resolutions).map Resolution.contract).Nodup
      rw [hr, List.map_append]
      exact hbefore.once.append (List.nodup_singleton _) (List.disjoint_singleton.2 hfresh)
    · show ∀ r ∈ done.resolutions ++ one.resolutions, _
      rw [hr, List.forall_mem_append, List.forall_mem_singleton, hof.contract]
      rw [h.frozen] at hrules
      exact ⟨hbefore.rules, m, manifest, k', hrules⟩
    · show (done.views ++ one.views).map Prod.fst = (done.resolutions ++ one.resolutions).map _
      rw [List.map_append, List.map_append, hbefore.views, hview, hr, List.map_singleton, hof.contract, ← ht]
  | again h ht hseen ih =>
    have hbefore := ih h.has_iff h.bare
    refine ⟨hbare, ?_, hhas, hbefore.once, hbefore.rules, hbefore.views⟩
    rw [List.forall_mem_append, List.forall_mem_singleton]
    obtain ⟨t', ht', heq⟩ := (h.has_iff _).1 hseen
    exact ⟨hbefore.visible, heq ▸ hbefore.visible t' ht'⟩

end PassesAll

/-- A statement stops at its first reference that does not pass. -/
theorem StopsAtFirst.runs {n m : Node} {refs : List TableRef} {e : PeqlError}
    (h : StopsAtFirst R caller asOf onViolation n refs e m) :
    resolveReferences R caller asOf onViolation refs .none n = .error e m := by
  obtain ⟨before, t, after, done, k, rfl, hpasses, hstop, -⟩ := h
  rw [resolveReferences_append, bind_of_ok hpasses.runs]
  unfold resolveReferences
  rw [bind_apply, hstop]

/-- All the references pass, or the loop stops at the first that does not, or skips a qualified one. -/
theorem passes_or_stops (hR : R.Plain) (n : Node) (refs : List TableRef) :
    (∃ done m, PassesAll R caller asOf onViolation n refs done m) ∨
      (∃ e m, StopsAtFirst R caller asOf onViolation n refs e m) ∨
      RepeatsQualified R caller asOf onViolation n refs := by
  induction refs using List.reverseRecOn with
  | nil => exact .inl ⟨_, _, .start⟩
  | append_singleton refs t ih =>
    rcases ih with ⟨done, m, h⟩ | ⟨e, m, before, t', after, done, k, rfl, hrest⟩ |
      ⟨before, q, after, done, m, rfl, hrest⟩
    · rcases stops_or_skips hR t done h.visible with ⟨done', k, -, -, hnext⟩ | ⟨e, k, hstop, hblames⟩ |
        ⟨hqualified, hseen⟩
      · exact .inl ⟨done', k, hnext refs h⟩
      · exact .inr (.inl ⟨e, k, refs, t, [], done, m, rfl, h, hstop, hblames⟩)
      · exact .inr (.inr ⟨refs, t, [], done, m, rfl, h, hqualified, (h.has_iff _).1 hseen⟩)
    · exact .inr (.inl ⟨e, m, before, t', after ++ [t], done, k, by simp, hrest⟩)
    · exact .inr (.inr ⟨before, q, after ++ [t], done, m, by simp, hrest⟩)

/-- Where a qualified reference is skipped, the loop does not stop at it, nor before it. -/
theorem RepeatsQualified.not_stops {n m : Node} {refs : List TableRef} {e : PeqlError}
    (h : RepeatsQualified R caller asOf onViolation n refs) : ¬ StopsAtFirst R caller asOf onViolation n refs e m := by
  obtain ⟨before, q, after, done, k, rfl, hpasses, hqualified, hseen⟩ := h
  rintro ⟨before', t, after', done', k', heq, hpasses', hstop, -⟩
  -- The loop passes `q`.
  have hskip : ∀ {t' : TableRef}, before = before' → t' = q →
      resolveReference R caller asOf onViolation t' done' k' ≠ .error e m := by
    rintro t' rfl rfl herr
    obtain ⟨rfl, rfl⟩ : done = done' ∧ k = k' := by
      have hruns := hpasses.runs.symm.trans hpasses'.runs
      injection hruns with hdone hk
      exact ⟨hdone, hk⟩
    rw [resolveReference_seen ((hpasses.has_iff _).2 hseen)] at herr
    cases herr
  rcases List.append_eq_append_iff.1 heq with ⟨as, hbefore, hafter⟩ | ⟨bs, hbefore, hafter⟩
  · cases as with
    | nil =>
      obtain ⟨rfl, -⟩ := List.cons.inj hafter
      exact hskip (by simpa using hbefore.symm) rfl hstop
    | cons q' as =>
      obtain ⟨rfl, -⟩ := List.cons.inj hafter
      have hbare := hpasses'.bare q (by rw [hbefore]; simp)
      rw [hbare] at hqualified
      cases hqualified
  · cases bs with
    | nil =>
      obtain ⟨rfl, -⟩ := List.cons.inj hafter
      exact hskip (by simpa using hbefore) rfl hstop
    | cons t' bs =>
      obtain ⟨rfl, -⟩ := List.cons.inj hafter
      rw [hbefore, show before' ++ t :: bs = (before' ++ [t]) ++ bs by simp] at hpasses
      obtain ⟨done'', k'', hpassed⟩ := hpasses.prefix_passes
      have hruns := hpassed.runs
      rw [resolveReferences_append, bind_of_ok hpasses'.runs] at hruns
      unfold resolveReferences at hruns
      rw [bind_apply, hstop] at hruns
      cases hruns

/-! ## Only bare names are read -/

/-- A statement reads bare names of contracts only, exactly when no qualified reference behind references that pass
repeats the name of one of them. -/
theorem only_bare_names_iff (hR : R.Plain) {sql expanded : String} {searches : List Search} {refs : List TableRef}
    (hguard : R.checkSql sql = .ok ()) (hexpand : R.expand sql = .ok (expanded, searches))
    (hrefs : R.references expanded = .ok refs) (n : Node) :
    OnlyBareNames R caller asOf onViolation sql n refs ↔ ¬ RepeatsQualified R caller asOf onViolation n refs := by
  constructor
  · rintro honly hrepeats
    have hrepeats' := hrepeats
    obtain ⟨before, q, after, done, k, rfl, hpasses, hqualified, hseen⟩ := hrepeats'
    cases hruns : resolveReferences R caller asOf onViolation (before ++ q :: after) .none n with
    | ok done m =>
      have hbare := (honly.past done m hruns).2.bare q (by simp)
      rw [hbare] at hqualified
      cases hqualified
    | error e m => exact hrepeats.not_stops (honly.refused e m hruns).1
  · intro hrepeats
    have hstart : ∀ {α : Type} (f : Unit → Ask α), (Effects.ofExcept (R.checkSql sql) >>= f) n = f () n := by
      intro α f
      rw [bind_apply, ofExcept_apply, hguard]
    refine ⟨?_, ?_, ?_⟩
    · intro p m hp
      unfold prepare at hp
      obtain ⟨_, _, hp⟩ := ofExcept_bind_ok.1 hp
      obtain ⟨⟨expanded', searches'⟩, hexpand', hp⟩ := ofExcept_bind_ok.1 hp
      obtain ⟨refs', hrefs', hp⟩ := ofExcept_bind_ok.1 hp
      obtain ⟨rfl, rfl⟩ : expanded = expanded' ∧ searches = searches' := by
        simpa using hexpand.symm.trans hexpand'
      obtain rfl : refs = refs' := Except.ok.inj (hrefs.symm.trans hrefs')
      obtain ⟨done, k, hdone, hp⟩ := Effects.bind_eq_ok.1 hp
      refine ⟨done, k, hdone, ?_⟩
      obtain ⟨_, _, hp⟩ := ofExcept_bind_ok.1 hp
      obtain ⟨_, _, _, hp⟩ := Effects.bind_eq_ok.1 hp
      obtain ⟨_, _, hp⟩ := ofExcept_bind_ok.1 hp
      obtain ⟨_, _, hp⟩ := ofExcept_bind_ok.1 hp
      obtain ⟨_, _, hp⟩ := ofExcept_bind_ok.1 hp
      obtain ⟨_, _, hp⟩ := ofExcept_bind_ok.1 hp
      cases hp
      rfl
    · intro done m hruns
      rcases passes_or_stops hR n refs with ⟨done', m', h⟩ | ⟨e, k, h⟩ | h
      · obtain ⟨rfl, rfl⟩ : done' = done ∧ m' = m := by
          have heq := h.runs.symm.trans hruns
          injection heq with hdone hm
          exact ⟨hdone, hm⟩
        exact ⟨h, h.admitted⟩
      · cases h.runs.symm.trans hruns
      · exact absurd h hrepeats
    · intro e m hruns
      have hprepare : prepare R sql caller asOf onViolation n = .error e m := by
        unfold prepare
        rw [hstart, bind_apply, ofExcept_apply, hexpand]
        dsimp only
        rw [bind_apply, ofExcept_apply, hrefs]
        dsimp only
        rw [bind_apply, hruns]
      have hbudgets := keeps_resolveReferences (R := R)
        (DataStable.ofEngine (P := fun k => k.engine.budgets = n.engine.budgets)
          fun _ _ hb _ _ _ _ h => hb.trans h) caller asOf onViolation refs .none n rfl
      rw [hruns] at hbudgets
      refine ⟨?_, hprepare, fun auditId => ?_, hbudgets⟩
      · rcases passes_or_stops hR n refs with ⟨done', m', h⟩ | ⟨e', k, h⟩ | h
        · cases h.runs.symm.trans hruns
        · obtain ⟨rfl, rfl⟩ : e' = e ∧ k = m := by
            have heq := h.runs.symm.trans hruns
            injection heq with he hk
            exact ⟨he, hk⟩
          exact h
        · exact absurd h hrepeats
      · unfold run
        rw [bind_apply, hprepare]

theorem plain_amounts : amountsRuntime.Plain where
  validate _ _ := fails_ok _
  verifyPins _ := fails_ok _
  refusal _ _ := fails_ok _
  activeShapes _ _ := fails_ok _
  paramValues _ _ := fails_ok _

theorem only_bare_names_amounts :
    OnlyBareNames amountsRuntime ann [] .exclude (selectAll "acme/amounts") oneAmount [⟨none, "acme/amounts"⟩] := by
  refine (only_bare_names_iff plain_amounts rfl rfl (if_pos rfl) oneAmount).2 ?_
  rintro ⟨before, q, after, _, _, hrefs, _, hqualified, _⟩
  have hq : q ∈ [(⟨none, "acme/amounts"⟩ : TableRef)] := by
    rw [hrefs]
    simp
  obtain rfl := List.mem_singleton.1 hq
  cases hqualified

/-- The amounts, and the amounts again under the default schema. -/
def amountsTwice : List TableRef := [⟨none, "acme/amounts"⟩, ⟨some "public", "acme/amounts"⟩]

def joinedRuntime : Runtime := { amountsRuntime with references := fun _ => .ok amountsTwice }

/-- The qualified reference is passed over: the statement is past its references. -/
theorem qualified_passed_over :
    ¬ OnlyBareNames joinedRuntime ann [] .exclude
      "SELECT * FROM \"acme/amounts\" JOIN public.\"acme/amounts\" USING (amount)"
      oneAmount amountsTwice := by
  intro honly
  cases hruns : resolveReferences joinedRuntime ann [] .exclude amountsTwice .none oneAmount with
  | ok done m =>
    have hbare := (honly.past done m hruns).2.bare ⟨some "public", "acme/amounts"⟩ (by decide)
    cases hbare
  | error e m =>
    have hok : (match resolveReferences joinedRuntime ann [] .exclude amountsTwice .none oneAmount with
      | .ok _ _ => true
      | .error _ _ => false) = true := by decide +kernel
    rw [hruns] at hok
    cases hok

end Peql
