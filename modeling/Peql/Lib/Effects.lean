import Mathlib.Data.List.Forall2
import Mathlib.Logic.Basic

/-!
# Calls that read and write a state and may fail

A call is an `EStateM` computation: an error keeps what was written before it. Two kinds of statement about calls are
carried through sequencing and loops here: `Ends P x Q E`, that from a state meeting `P` the call ends as `Q` says with
its value or as `E` says with its error, with `Keeps P x` for what every end keeps; and `Twins R S P x`, that two runs
of the call from states related by `R` end alike, in states related by `S`.
-/

namespace Effects

variable {ε σ α β : Type}

/-- From a state that meets `P`, `x` ends as `Q` says of its value, or as `E` says of its error. -/
def Ends (P : σ → Prop) (x : EStateM ε σ α) (Q : α → σ → Prop) (E : ε → σ → Prop) : Prop :=
  ∀ s, P s →
    match x s with
    | .ok a t => Q a t
    | .error e t => E e t

/-- Two runs of `x` from states `R` relates end with one value, which meets `P`, or with one error, in states `S`
relates. -/
def Twins (R S : σ → σ → Prop) (P : α → Prop) (x : EStateM ε σ α) : Prop :=
  ∀ s s', R s s' →
    match x s, x s' with
    | .ok a t, .ok b t' => a = b ∧ P a ∧ S t t'
    | .error e t, .error f t' => e = f ∧ S t t'
    | _, _ => False

/-- What `x` gives, without the state it ends in. -/
def outcome (x : EStateM ε σ α) (s : σ) : Except ε α :=
  match x s with
  | .ok a _ => .ok a
  | .error e _ => .error e

/-- The state `x` ends in, whatever it gives. -/
def final (x : EStateM ε σ α) (s : σ) : σ :=
  match x s with
  | .ok _ t => t
  | .error _ t => t

/-- An outcome that does not read the state. -/
def ofExcept : Except ε α → EStateM ε σ α
  | .ok a => pure a
  | .error e => throw e

/-- A call's outcome, for what follows it to read. -/
def attempt (x : EStateM ε σ α) : EStateM ε σ (Except ε α) := fun s =>
  match x s with
  | .ok a t => .ok (.ok a) t
  | .error e t => .ok (.error e) t

/-- A call with its error told in other words. -/
def mapError {ε' : Type} (f : ε → ε') (x : EStateM ε σ α) : EStateM ε' σ α := fun s =>
  match x s with
  | .ok a t => .ok a t
  | .error e t => .error (f e) t

/-- A step after another starts where that one ended, unless it failed. -/
theorem bind_apply (x : EStateM ε σ α) (f : α → EStateM ε σ β) (s : σ) :
    (x >>= f) s = match x s with
      | .ok a t => f a t
      | .error e t => .error e t := by
  show EStateM.bind x f s = _
  unfold EStateM.bind
  cases x s <;> rfl

theorem get_apply (s : σ) : (MonadState.get : EStateM ε σ σ) s = .ok s s := rfl

theorem modify_apply (f : σ → σ) (s : σ) : (modify f : EStateM ε σ PUnit) s = .ok ⟨⟩ (f s) := rfl

/-- A call whose first part gave a value goes on from there. -/
theorem bind_of_ok {x : EStateM ε σ α} {s t : σ} {a : α} (h : x s = .ok a t) (f : α → EStateM ε σ β) :
    (x >>= f) s = f a t := by
  rw [bind_apply, h]

/-- Two steps end as the second does, from where the first ended. -/
theorem bind_eq_ok {x : EStateM ε σ α} {f : α → EStateM ε σ β} {s u : σ} {b : β} :
    (x >>= f) s = .ok b u ↔ ∃ a t, x s = .ok a t ∧ f a t = .ok b u := by
  rw [bind_apply]
  constructor
  · intro h
    cases hx : x s with
    | ok a t =>
      rw [hx] at h
      exact ⟨a, t, rfl, h⟩
    | error e t =>
      rw [hx] at h
      cases h
  · rintro ⟨a, t, hx, hf⟩
    rw [hx]
    exact hf

/-- A call in two parts fails in one of them. -/
theorem bind_eq_error {x : EStateM ε σ α} {f : α → EStateM ε σ β} {s u : σ} {e : ε} :
    (x >>= f) s = .error e u ↔ x s = .error e u ∨ ∃ a t, x s = .ok a t ∧ f a t = .error e u := by
  rw [bind_apply]
  cases x s with
  | ok a t =>
    constructor
    · intro h
      exact .inr ⟨a, t, rfl, h⟩
    · rintro (h | ⟨_, _, heq, h⟩)
      · cases h
      · cases heq
        exact h
  | error e' t => simp

/-- The state two steps leave is the second's, or the first's when it failed. -/
theorem final_bind (x : EStateM ε σ α) (f : α → EStateM ε σ β) (s : σ) :
    final (x >>= f) s = match x s with
      | .ok a t => final (f a) t
      | .error _ t => t := by
  unfold final
  rw [bind_apply]
  cases x s <;> rfl

/-- An outcome that does not read the state leaves it. -/
theorem ofExcept_apply (r : Except ε α) (s : σ) :
    (ofExcept r : EStateM ε σ α) s = match r with
      | .ok a => .ok a s
      | .error e => .error e s := by
  cases r <;> rfl

/-- It succeeds in the state it is given. -/
theorem ofExcept_eq_ok {r : Except ε α} {s t : σ} {a : α} :
    (ofExcept r : EStateM ε σ α) s = .ok a t ↔ r = .ok a ∧ t = s := by
  rw [ofExcept_apply]
  cases r with
  | ok b => simp [eq_comm]
  | error e => simp

/-- It fails there too. -/
theorem ofExcept_eq_error {r : Except ε α} {s t : σ} {e : ε} :
    (ofExcept r : EStateM ε σ α) s = .error e t ↔ r = .error e ∧ t = s := by
  rw [ofExcept_apply]
  cases r with
  | ok a => simp
  | error e' => simp [eq_comm]

/-- An error renamed is no success. -/
theorem mapError_eq_ok {ε' : Type} {f : ε → ε'} {x : EStateM ε σ α} {s t : σ} {a : α} :
    mapError f x s = .ok a t ↔ x s = .ok a t := by
  unfold mapError
  cases x s <;> simp

theorem mapError_eq_error {ε' : Type} {f : ε → ε'} {x : EStateM ε σ α} {s t : σ} {e' : ε'} :
    mapError f x s = .error e' t ↔ ∃ e, x s = .error e t ∧ e' = f e := by
  unfold mapError
  cases x s with
  | ok a u => simp
  | error e u => simp [and_assoc, and_comm, eq_comm]

/-- What follows a call leaves the state as the call did. -/
theorem final_bind_still {x : EStateM ε σ α} {f : α → EStateM ε σ β} (hf : ∀ a t, final (f a) t = t) (s : σ) :
    final (x >>= f) s = final x s := by
  rw [final_bind]
  unfold final
  cases x s with
  | ok a t => exact hf a t
  | error e t => rfl

theorem final_ofExcept (r : Except ε α) (s : σ) : final (ofExcept r : EStateM ε σ α) s = s := by
  cases r <;> rfl

/-- Renaming an error leaves the state. -/
theorem final_mapError {ε' : Type} (f : ε → ε') (x : EStateM ε σ α) (s : σ) : final (mapError f x) s = final x s := by
  unfold final mapError
  cases x s <;> rfl

theorem ofExcept_bind_ok {r : Except ε α} {f : α → EStateM ε σ β} {s u : σ} {b : β} :
    (ofExcept r >>= f) s = .ok b u ↔ ∃ a, r = .ok a ∧ f a s = .ok b u := by
  simp only [bind_eq_ok, ofExcept_eq_ok]
  constructor
  · rintro ⟨a, t, ⟨ha, rfl⟩, h⟩
    exact ⟨a, ha, h⟩
  · rintro ⟨a, ha, h⟩
    exact ⟨a, s, ⟨ha, rfl⟩, h⟩

/-- The outcome is a result when the computation returns it, in some state. -/
theorem outcome_eq_ok {x : EStateM ε σ α} {s : σ} {a : α} : outcome x s = .ok a ↔ ∃ t, x s = .ok a t := by
  unfold outcome
  cases x s with
  | ok b t => simp
  | error e t => simp

/-- A list of outcomes is one when each is. -/
theorem mapM_eq_ok {f : α → Except ε β} {xs : List α} {ys : List β} :
    xs.mapM f = .ok ys ↔ List.Forall₂ (fun a b => f a = .ok b) xs ys := by
  induction xs generalizing ys with
  | nil =>
    rw [List.mapM_nil, List.forall₂_nil_left_iff]
    constructor
    · rintro ⟨⟩
      rfl
    · rintro rfl
      rfl
  | cons x xs ih =>
    rw [List.mapM_cons, List.forall₂_cons_left_iff]
    cases hx : f x with
    | error e => 
      constructor
      · intro h
        cases h
      · rintro ⟨y, us, hy, _⟩
        cases hy
    | ok y =>
      cases hxs : xs.mapM f with
      | error e =>
        constructor
        · intro h
          cases h
        · rintro ⟨y, us, hy, hus, rfl⟩
          cases hxs.symm.trans (ih.2 hus)
      | ok zs =>
        constructor
        · intro h
          cases h
          exact ⟨y, zs, rfl, ih.1 hxs, rfl⟩
        · rintro ⟨_, us, ⟨⟩, hus, rfl⟩
          cases hxs.symm.trans (ih.2 hus)
          rfl

/-! ## One run -/

namespace Ends

variable {P P' : σ → Prop} {Q Q' : α → σ → Prop} {E E' : ε → σ → Prop}

/-- To return ends where it began. -/
theorem ret (a : α) : Ends (Q a) (pure a : EStateM ε σ α) Q E := fun _ hs => hs

/-- To fail ends there too. -/
theorem fail (e : ε) : Ends (E e) (throw e : EStateM ε σ α) Q E := fun _ hs => hs

theorem write (f : σ → σ) {Q : PUnit → σ → Prop} :
    Ends (fun s => Q ⟨⟩ (f s)) (modify f : EStateM ε σ PUnit) Q E := fun _ hs => hs

/-- The rule of sequencing: the second starts wherever the first ends. -/
theorem bind {x : EStateM ε σ α} {f : α → EStateM ε σ β} {R : β → σ → Prop} (hx : Ends P x Q E)
    (hf : ∀ a, Ends (Q a) (f a) R E) : Ends P (x >>= f) R E := by
  intro s hs
  have h := hx s hs
  rw [bind_apply]
  cases hxs : x s with
  | ok a t =>
    rw [hxs] at h
    exact hf a t h
  | error e t =>
    rw [hxs] at h
    exact h

/-- The state is read, and what follows is known of the state it was read in. -/
theorem read {f : σ → EStateM ε σ β} {R : β → σ → Prop} (hf : ∀ s, P s → Ends (fun t => t = s) (f s) R E) :
    Ends P (MonadState.get >>= f) R E := by
  intro s hs
  exact hf s hs s rfl

/-- The rule of consequence. -/
theorem mono {x : EStateM ε σ α} (h : Ends P x Q E) (hP : ∀ s, P' s → P s) (hQ : ∀ a s, Q a s → Q' a s)
    (hE : ∀ e s, E e s → E' e s) : Ends P' x Q' E' := by
  intro s hs
  have hx := h s (hP s hs)
  cases hxs : x s with
  | ok a t =>
    rw [hxs] at hx
    exact hQ a t hx
  | error e t =>
    rw [hxs] at hx
    exact hE e t hx

/-- What a call that gave a value ends with. -/
theorem of_ok {x : EStateM ε σ α} (h : Ends P x Q E) {s t : σ} {a : α} (hs : P s) (hx : x s = .ok a t) : Q a t := by
  have hend := h s hs
  rw [hx] at hend
  exact hend

/-- The state a call ends in, where its value and its error say the same of it. -/
theorem final {x : EStateM ε σ α} {S : σ → Prop} (h : Ends P x (fun _ => S) fun _ => S) {s : σ} (hs : P s) :
    S (Effects.final x s) := by
  have hend := h s hs
  unfold Effects.final
  cases hxs : x s with
  | ok a t =>
    rw [hxs] at hend
    exact hend
  | error e t =>
    rw [hxs] at hend
    exact hend

theorem ofExcept {r : Except ε α} (hok : ∀ a, r = .ok a → ∀ s, P s → Q a s)
    (herr : ∀ e, r = .error e → ∀ s, P s → E e s) :
    Ends P (ofExcept r) Q E := by
  intro s hs
  cases r with
  | ok a => exact hok a rfl s hs
  | error e => exact herr e rfl s hs

/-- What two statements say of a call's end. -/
theorem and {x : EStateM ε σ α} (h : Ends P x Q E) (h' : Ends P' x Q' E') :
    Ends (fun s => P s ∧ P' s) x (fun a s => Q a s ∧ Q' a s) (fun e s => E e s ∧ E' e s) := by
  rintro s ⟨hs, hs'⟩
  have hx := h s hs
  have hx' := h' s hs'
  cases hxs : x s with
  | ok a t =>
    rw [hxs] at hx hx'
    exact ⟨hx, hx'⟩
  | error e t =>
    rw [hxs] at hx hx'
    exact ⟨hx, hx'⟩

/-- What is attempted ends well, with its result or its error. -/
theorem attempt {x : EStateM ε σ α} (h : Ends P x Q E) {R : Except ε α → σ → Prop}
    (hok : ∀ a s, Q a s → R (.ok a) s) (herr : ∀ e s, E e s → R (.error e) s) {E' : ε → σ → Prop} :
    Ends P (Effects.attempt x) R E' := by
  intro s hs
  have hx := h s hs
  unfold Effects.attempt
  cases hxs : x s with
  | ok a t =>
    rw [hxs] at hx
    exact hok a t hx
  | error e t =>
    rw [hxs] at hx
    exact herr e t hx

end Ends

/-- However `x` ends, what held of the state still does. -/
abbrev Keeps (P : σ → Prop) (x : EStateM ε σ α) : Prop := Ends P x (fun _ => P) (fun _ => P)

namespace Keeps

variable {P : σ → Prop}

theorem ret (a : α) : Keeps P (pure a : EStateM ε σ α) := fun _ hs => hs

theorem fail (e : ε) : Keeps P (throw e : EStateM ε σ α) := fun _ hs => hs

theorem write {f : σ → σ} (h : ∀ s, P s → P (f s)) : Keeps P (modify f : EStateM ε σ PUnit) := h

/-- A sequence keeps what its steps keep. -/
theorem bind {x : EStateM ε σ α} {f : α → EStateM ε σ β} (hx : Keeps P x) (hf : ∀ a, Keeps P (f a)) :
    Keeps P (x >>= f) := Ends.bind hx hf

theorem ofExcept (r : Except ε α) : Keeps P (ofExcept r) := by
  cases r with
  | ok a => exact ret a
  | error e => exact fail e

/-- What follows reads the state it is in. -/
theorem read {f : σ → EStateM ε σ β} (hf : ∀ s, P s → Keeps P (f s)) : Keeps P (MonadState.get >>= f) :=
  fun s hs => hf s hs s hs

/-- To read the state keeps it. -/
theorem reading (f : σ → Except ε α) : Keeps P (MonadState.get >>= fun s => Effects.ofExcept (f s)) :=
  read fun _ _ => ofExcept _

theorem attempt {x : EStateM ε σ α} (h : Keeps P x) : Keeps P (Effects.attempt x) :=
  Ends.attempt h (fun _ _ => id) fun _ _ => id

theorem mapError {ε' : Type} {x : EStateM ε σ α} (h : Keeps P x) (f : ε → ε') : Keeps P (Effects.mapError f x) := by
  intro s hs
  have hx := h s hs
  unfold Effects.mapError
  cases hxs : x s with
  | ok a t =>
    rw [hxs] at hx
    exact hx
  | error e t =>
    rw [hxs] at hx
    exact hx

end Keeps

/-! ## Two runs -/

namespace Twins

variable {R S T : σ → σ → Prop} {P : α → Prop} {Q : β → Prop}

theorem ret {a : α} (h : P a) : Twins R R P (pure a : EStateM ε σ α) := fun _ _ hs => ⟨rfl, h, hs⟩

theorem fail (e : ε) : Twins R R P (throw e : EStateM ε σ α) := fun _ _ hs => ⟨rfl, hs⟩

theorem write {f : σ → σ} (h : ∀ s s', R s s' → S (f s) (f s')) :
    Twins R S (fun _ => True) (modify f : EStateM ε σ PUnit) := fun s s' hs => ⟨rfl, trivial, h s s' hs⟩

theorem ofExcept (r : Except ε α) : Twins R R (fun a => r = .ok a) (ofExcept r : EStateM ε σ α) := by
  cases r with
  | ok a => exact ret rfl
  | error e => exact fail e

theorem weaken {P' : α → Prop} {x : EStateM ε σ α} (h : Twins R S P x) (hP : ∀ a, P a → P' a)
    (hS : ∀ t t', S t t' → T t t') : Twins R T P' x := by
  intro s s' hs
  have hx := h s s' hs
  cases hxs : x s with
  | ok a t =>
    cases hxs' : x s' with
    | ok b t' =>
      rw [hxs, hxs'] at hx
      exact ⟨hx.1, hP a hx.2.1, hS t t' hx.2.2⟩
    | error e t' =>
      rw [hxs, hxs'] at hx
      exact hx.elim
  | error e t =>
    cases hxs' : x s' with
    | ok b t' =>
      rw [hxs, hxs'] at hx
      exact hx.elim
    | error e' t' =>
      rw [hxs, hxs'] at hx
      exact ⟨hx.1, hS t t' hx.2⟩

theorem value {P' : α → Prop} {x : EStateM ε σ α} (h : Twins R S P x) (hP : ∀ a, P a → P' a) : Twins R S P' x :=
  h.weaken hP fun _ _ => id

/-- They may be asked to start closer. -/
theorem strengthen {x : EStateM ε σ α} (h : Twins S T P x) (hR : ∀ t t', R t t' → S t t') : Twins R T P x :=
  fun s s' hs => h s s' (hR s s' hs)

/-- What follows may keep less than `x` does. -/
theorem bindTo {x : EStateM ε σ α} {f : α → EStateM ε σ β} (hx : Twins R S P x) (hST : ∀ t t', S t t' → T t t')
    (hf : ∀ a, P a → Twins S T Q (f a)) : Twins R T Q (x >>= f) := by
  intro s s' hs
  have h := hx s s' hs
  rw [bind_apply, bind_apply]
  cases hxs : x s with
  | ok a t =>
    cases hxs' : x s' with
    | ok b t' =>
      rw [hxs, hxs'] at h
      obtain ⟨rfl, ha, ht⟩ := h
      exact hf a ha t t' ht
    | error e t' =>
      rw [hxs, hxs'] at h
      exact h.elim
  | error e t =>
    cases hxs' : x s' with
    | ok b t' =>
      rw [hxs, hxs'] at h
      exact h.elim
    | error e' t' =>
      rw [hxs, hxs'] at h
      exact ⟨h.1, hST t t' h.2⟩

/-- Twins in sequence: the second steps are twins on equal results. -/
theorem bind {x : EStateM ε σ α} {f : α → EStateM ε σ β} (hx : Twins R S P x) (hf : ∀ a, P a → Twins S S Q (f a)) :
    Twins R S Q (x >>= f) := hx.bindTo (fun _ _ => id) hf

/-- What is read of the state is one in both. -/
theorem reading {f : σ → Except ε α} (h : ∀ s s', R s s' → f s = f s') (hP : ∀ s s', R s s' → ∀ a, f s = .ok a → P a) :
    Twins R R P (MonadState.get >>= fun s => Effects.ofExcept (f s)) := by
  intro s s' hs
  show match (Effects.ofExcept (f s) : EStateM ε σ α) s, (Effects.ofExcept (f s') : EStateM ε σ α) s' with
    | .ok a t, .ok b t' => a = b ∧ P a ∧ R t t'
    | .error e t, .error e' t' => e = e' ∧ R t t'
    | _, _ => False
  rw [← h s s' hs]
  cases hf : f s with
  | ok a => exact ⟨rfl, hP s s' hs a hf, hs⟩
  | error e => exact ⟨rfl, hs⟩

/-- What is attempted has twin results. -/
theorem attempt {x : EStateM ε σ α} (h : Twins R S P x) :
    Twins R S (fun r => ∀ a, r = .ok a → P a) (Effects.attempt x) := by
  intro s s' hs
  have hx := h s s' hs
  unfold Effects.attempt
  cases hxs : x s with
  | ok a t =>
    cases hxs' : x s' with
    | ok b t' =>
      rw [hxs, hxs'] at hx
      obtain ⟨rfl, ha, ht⟩ := hx
      refine ⟨rfl, ?_, ht⟩
      rintro _ ⟨⟩
      exact ha
    | error e t' =>
      rw [hxs, hxs'] at hx
      exact hx.elim
  | error e t =>
    cases hxs' : x s' with
    | ok b t' =>
      rw [hxs, hxs'] at hx
      exact hx.elim
    | error e' t' =>
      rw [hxs, hxs'] at hx
      obtain ⟨rfl, ht⟩ := hx
      refine ⟨rfl, ?_, ht⟩
      rintro _ ⟨⟩

theorem mapError {ε' : Type} {x : EStateM ε σ α} (h : Twins R S P x) (f : ε → ε') :
    Twins R S P (Effects.mapError f x) := by
  intro s s' hs
  have hx := h s s' hs
  unfold Effects.mapError
  cases hxs : x s with
  | ok a t =>
    cases hxs' : x s' with
    | ok b t' =>
      rw [hxs, hxs'] at hx
      exact hx
    | error e t' =>
      rw [hxs, hxs'] at hx
      exact hx.elim
  | error e t =>
    cases hxs' : x s' with
    | ok b t' =>
      rw [hxs, hxs'] at hx
      exact hx.elim
    | error e' t' =>
      rw [hxs, hxs'] at hx
      obtain ⟨rfl, ht⟩ := hx
      exact ⟨rfl, ht⟩

/-- Twins from related states have one outcome. -/
theorem outcome_eq {x : EStateM ε σ α} (h : Twins R S P x) {s s' : σ} (hs : R s s') : outcome x s' = outcome x s := by
  have hx := h s s' hs
  unfold outcome
  cases hxs : x s with
  | ok a t =>
    cases hxs' : x s' with
    | ok b t' =>
      rw [hxs, hxs'] at hx
      rw [hx.1]
    | error e t' =>
      rw [hxs, hxs'] at hx
      exact hx.elim
  | error e t =>
    cases hxs' : x s' with
    | ok b t' =>
      rw [hxs, hxs'] at hx
      exact hx.elim
    | error e' t' =>
      rw [hxs, hxs'] at hx
      rw [hx.1]

/-- The states two runs end in. -/
theorem final {x : EStateM ε σ α} (h : Twins R S P x) {s s' : σ} (hs : R s s') :
    S (Effects.final x s) (Effects.final x s') := by
  have hx := h s s' hs
  unfold Effects.final
  cases hxs : x s with
  | ok a t =>
    cases hxs' : x s' with
    | ok b t' =>
      rw [hxs, hxs'] at hx
      exact hx.2.2
    | error e t' =>
      rw [hxs, hxs'] at hx
      exact hx.elim
  | error e t =>
    cases hxs' : x s' with
    | ok b t' =>
      rw [hxs, hxs'] at hx
      exact hx.elim
    | error e' t' =>
      rw [hxs, hxs'] at hx
      exact hx.2

end Twins

end Effects
