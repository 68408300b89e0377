import Mathlib.Data.List.Infix
import Mathlib.Data.Set.Basic

/-!
# Runs of a step relation

A system is a relation `step s a t`: from state `s`, action `a` may lead to state `t`. A run is the list of its actions,
taken in order (`Run`). A property that every step keeps holds along every run (`Run.inv`); a property that a step keeps
when the step meets a condition holds along every run all of whose steps meet it (`Run.inv_of_all`, over `Guarded`); one
that also speaks of the actions taken so far is `Run.inv_along`, and `Run.breaks` is the step that ends what a run ends
without. Where the condition is exact, a run meets it at every step exactly when the property holds of every state it
goes through (`Run.guarded_iff`). A system that stands for another, step by step, shows nothing but runs of it
(`Simulates.run`); one whose every step is a run of another has no other runs (`Run.refines`).
-/

namespace Runs

variable {σ α : Type*}

/-- The states a list of actions can lead to. -/
inductive Run (step : σ → α → σ → Prop) : σ → List α → σ → Prop
  | nil (s : σ) : Run step s [] s
  | cons {s t u : σ} {a : α} {as : List α} : step s a t → Run step t as u → Run step s (a :: as) u

/-- The steps that meet a condition on the state they are taken in. -/
def Guarded (g : σ → α → Prop) (step : σ → α → σ → Prop) : σ → α → σ → Prop :=
  fun s a t => g s a ∧ step s a t

variable {step : σ → α → σ → Prop}

/-- A property every step keeps holds at the end of every run. -/
theorem Run.inv {I : σ → Prop} (hstep : ∀ s a t, I s → step s a t → I t) {s t : σ} {as : List α}
    (h : Run step s as t) : I s → I t := by
  induction h with
  | nil _ => exact id
  | cons hs _ ih => exact fun hi => ih (hstep _ _ _ hi hs)

/-- A property kept by the steps that meet `g` holds at the end of every run of such steps. -/
theorem Run.inv_of_all {g : σ → α → Prop} {I : σ → Prop} (hstep : ∀ s a t, I s → g s a → step s a t → I t)
    {s t : σ} {as : List α} (h : Run (Guarded g step) s as t) (hi : I s) : I t :=
  h.inv (fun s a t hi hg => hstep s a t hi hg.1 hg.2) hi

/-- Two runs, one after the other. -/
theorem Run.append {s t u : σ} {as bs : List α} (h : Run step s as t) (h' : Run step t bs u) :
    Run step s (as ++ bs) u := by
  induction h with
  | nil _ => exact h'
  | cons hs _ ih => exact .cons hs (ih h')

/-- One more step at the end of a run. -/
theorem Run.snoc {s t u : σ} {as : List α} {a : α} (h : Run step s as t) (hs : step t a u) :
    Run step s (as ++ [a]) u :=
  h.append (.cons hs (.nil u))

/-- A run that goes on, after one more step. -/
theorem Run.ahead {s t : σ} {as : List α} {a : α} (hs : step s a t) (h : ∃ u, Run step t as u) :
    ∃ u, Run step s (a :: as) u := by
  obtain ⟨u, hrun⟩ := h
  exact ⟨u, .cons hs hrun⟩

/-- A property of a state and of the actions that led to it. -/
theorem Run.inv_along {I : List α → σ → Prop} {s : σ} (h₀ : I [] s)
    (hstep : ∀ as t a u, Run step s as t → I as t → step t a u → I (as ++ [a]) u) {t : σ} {as : List α}
    (h : Run step s as t) : I as t := by
  have hrest : ∀ {t u : σ} {bs as : List α}, Run step t as u → Run step s bs t → I bs t → I (bs ++ as) u := by
    intro t u bs as hrun
    induction hrun generalizing bs with
    | nil t =>
      intro _ hi
      rwa [List.append_nil]
    | cons hs _ ih =>
      intro hbs hi
      have hnext := ih (hbs.snoc hs) (hstep _ _ _ _ hbs hi hs)
      rwa [List.append_assoc] at hnext
  exact hrest h (.nil s) h₀

/-- Of a property a run ends without, some step is the end. -/
theorem Run.breaks {P : σ → Prop} {s t : σ} {as : List α} (h : Run step s as t) (hs : P s) (ht : ¬ P t) :
    ∃ bs a cs u v, as = bs ++ a :: cs ∧ Run step s bs u ∧ step u a v ∧ P u ∧ ¬ P v := by
  induction h with
  | nil s => exact absurd hs ht
  | @cons s u t a as hstep hrun ih =>
    by_cases hu : P u
    · obtain ⟨bs, b, cs, v, w, rfl, hbs, hb, hv, hw⟩ := ih hu ht
      exact ⟨a :: bs, b, cs, v, w, rfl, .cons hstep hbs, hb, hv, hw⟩
    · exact ⟨[], a, as, s, u, rfl, .nil s, hstep, hs, hu⟩

/-- Dropping the conditions. -/
theorem Run.of_guarded {g : σ → α → Prop} {s t : σ} {as : List α} (h : Run (Guarded g step) s as t) :
    Run step s as t := by
  induction h with
  | nil s => exact .nil s
  | cons hs _ ih => exact .cons hs.2 ih

/-- A run all of whose actions meet a condition. -/
theorem Run.guarded {g : α → Prop} {s t : σ} {as : List α} (h : Run step s as t) (hg : ∀ a ∈ as, g a) :
    Run (Guarded (fun _ => g) step) s as t := by
  induction h with
  | nil s => exact .nil s
  | cons hs _ ih =>
    obtain ⟨ha, hrest⟩ := List.forall_mem_cons.1 hg
    exact .cons ⟨ha, hs⟩ (ih hrest)

/-- Steps that meet a condition meet a weaker one. -/
theorem Run.weaken {g g' : σ → α → Prop} (hg : ∀ s a, g s a → g' s a) {s t : σ} {as : List α}
    (h : Run (Guarded g step) s as t) : Run (Guarded g' step) s as t := by
  induction h with
  | nil s => exact .nil s
  | cons hs _ ih => exact .cons ⟨hg _ _ hs.1, hs.2⟩ ih

/-- Where steps that meet `g` keep `I`, and meet another condition in a state with `I`, so do the steps of a run. -/
theorem Run.reguard {g g' : σ → α → Prop} {I : σ → Prop} (hI : ∀ s a t, I s → g s a → step s a t → I t)
    (hg : ∀ s a t, I s → g s a → step s a t → g' s a) {s t : σ} {as : List α} (h : Run (Guarded g step) s as t)
    (hi : I s) : Run (Guarded g' step) s as t := by
  induction h with
  | nil s => exact .nil s
  | cons hs _ ih => exact .cons ⟨hg _ _ _ hi hs.1 hs.2, hs.2⟩ (ih (hI _ _ _ hi hs.1 hs.2))

/-- Where the steps that meet `g` are those that keep `P`, a run meets `g` at every step exactly when it goes through
states with `P` alone. -/
theorem Run.guarded_iff {g : σ → α → Prop} {I P : σ → Prop}
    (hdet : ∀ s a t t', step s a t → step s a t' → t = t') (hI : ∀ s a t, I s → step s a t → I t)
    (hP : ∀ s a t, I s → P s → step s a t → (P t ↔ g s a)) {s t : σ} {as : List α} (h : Run step s as t)
    (hi : I s) (hp : P s) :
    Run (Guarded g step) s as t ↔ ∀ bs u, bs <+: as → Run step s bs u → P u := by
  induction h with
  | nil s =>
    constructor
    · intro _ bs u hpre hrun
      rw [List.prefix_nil.1 hpre] at hrun
      cases hrun
      exact hp
    · intro _
      exact .nil s
  | @cons s t v a as hs _ ih =>
    have hit := hI s a t hi hs
    constructor
    · intro hg bs u hpre hrun
      obtain ⟨hga, hpt, htail⟩ : g s a ∧ P t ∧ Run (Guarded g step) t as v := by
        cases hg with
        | cons hs' hrun' =>
          have ht := hdet s a _ _ hs'.2 hs
          subst ht
          exact ⟨hs'.1, (hP s a _ hi hp hs).2 hs'.1, hrun'⟩
      cases hrun with
      | nil _ => exact hp
      | cons hs' hrun' =>
        obtain ⟨rfl, hpre'⟩ := List.cons_prefix_cons.1 hpre
        have ht := hdet s _ _ _ hs' hs
        subst ht
        exact (ih hit hpt).1 htail _ u hpre' hrun'
    · intro hall
      have hone : [a] <+: a :: as := List.cons_prefix_cons.2 ⟨rfl, List.nil_prefix⟩
      have hpt := hall [a] t hone (.cons hs (.nil t))
      refine .cons ⟨(hP s a t hi hp hs).1 hpt, hs⟩ ((ih hit hpt).2 fun bs u hpre hrun => ?_)
      exact hall (a :: bs) u (List.cons_prefix_cons.2 ⟨rfl, hpre⟩) (.cons hs hrun)

/-! ## Simulation -/

/-- States of one system stand for states of another: a step either shows nothing and stands for the same state, or
shows a step of the other. -/
structure Simulates {τ β : Type*} (step : σ → α → σ → Prop) (spec : τ → β → τ → Prop) (visible : α → Option β)
    (stands : σ → τ → Prop) : Prop where
  hidden : ∀ s a t w, stands s w → step s a t → visible a = none → stands t w
  shown : ∀ s a t w b, stands s w → step s a t → visible a = some b → ∃ w', spec w b w' ∧ stands t w'

/-- What a run shows is a run of the system it stands for. -/
theorem Simulates.run {τ β : Type*} {spec : τ → β → τ → Prop} {visible : α → Option β} {stands : σ → τ → Prop}
    (h : Simulates step spec visible stands) {s t : σ} {as : List α} (hrun : Run step s as t) {w : τ}
    (hw : stands s w) : ∃ w', Run spec w (as.filterMap visible) w' ∧ stands t w' := by
  induction hrun generalizing w with
  | nil s => exact ⟨w, .nil w, hw⟩
  | @cons s t u a as hs _ ih =>
    cases hv : visible a with
    | none =>
      obtain ⟨w', hrun', hw'⟩ := ih (h.hidden s a t w hw hs hv)
      refine ⟨w', ?_, hw'⟩
      rwa [List.filterMap_cons_none hv]
    | some b =>
      obtain ⟨w₁, hb, hw₁⟩ := h.shown s a t w b hw hs hv
      obtain ⟨w', hrun', hw'⟩ := ih hw₁
      refine ⟨w', ?_, hw'⟩
      rw [List.filterMap_cons_some hv]
      exact .cons hb hrun'

/-- Where each step is a run of another system, so is every run. -/
theorem Run.refines {τ β : Type*} {spec : τ → β → τ → Prop} {stands : σ → τ → Prop}
    (h : ∀ s a t w, stands s w → step s a t → ∃ bs w', Run spec w bs w' ∧ stands t w') {s t : σ} {as : List α}
    (hrun : Run step s as t) {w : τ} (hw : stands s w) : ∃ bs w', Run spec w bs w' ∧ stands t w' := by
  induction hrun generalizing w with
  | nil s => exact ⟨[], w, .nil w, hw⟩
  | @cons s t u a as hs _ ih =>
    obtain ⟨bs, w₁, hbs, hw₁⟩ := h s a t w hw hs
    obtain ⟨cs, w', hcs, hw'⟩ := ih hw₁
    exact ⟨bs ++ cs, w', hbs.append hcs, hw'⟩

end Runs
