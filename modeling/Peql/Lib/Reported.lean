import Mathlib.Data.List.Basic

/-!
# Values with the errors met on the way

`Reported ε α` is a value together with every error its computation can raise. Nothing is cut short: the errors of a
part are errors of the whole (`bind`, `traverse`), so an evaluator over it says what an engine that may evaluate the
parts in any order, or on any of its rows, can raise.

`Refines r' r` (the same value, no error that `r` does not raise) is what a rewriting that preserves meaning keeps; it
is carried through `bind`, `collect` and lists of rows.
-/

/-- A value, and the errors raised while it was computed. -/
@[ext] structure Reported (ε α : Type) where
  val : α
  errs : List ε
deriving DecidableEq

namespace Reported

variable {ε α β : Type}

def pure (a : α) : Reported ε α := ⟨a, []⟩

/-- The errors of both parts, in order. -/
def bind (r : Reported ε α) (f : α → Reported ε β) : Reported ε β := ⟨(f r.val).val, r.errs ++ (f r.val).errs⟩

/-- An outcome, with `d` standing for the value an error leaves out. -/
def ofExcept (d : α) : Except ε α → Reported ε α
  | .ok a => ⟨a, []⟩
  | .error e => ⟨d, [e]⟩

def map (f : α → β) (r : Reported ε α) : Reported ε β := ⟨f r.val, r.errs⟩

/-- `f` of every element. -/
def traverse (f : α → Reported ε β) (xs : List α) : Reported ε (List β) :=
  ⟨xs.map fun x => (f x).val, xs.flatMap fun x => (f x).errs⟩

/-- The elements `f` answers `true` on; `f` is computed on every element. -/
def filter (f : α → Reported ε Bool) (xs : List α) : Reported ε (List α) :=
  ⟨xs.filter fun x => (f x).val, xs.flatMap fun x => (f x).errs⟩

/-- Raises no error. -/
def Clean (r : Reported ε α) : Prop := r.errs = []

instance (r : Reported ε α) [DecidableEq ε] : Decidable r.Clean := inferInstanceAs (Decidable (r.errs = []))

@[simp] theorem pure_val (a : α) : (pure a : Reported ε α).val = a := rfl
@[simp] theorem pure_errs (a : α) : (pure a : Reported ε α).errs = [] := rfl
@[simp] theorem bind_val (r : Reported ε α) (f : α → Reported ε β) : (r.bind f).val = (f r.val).val := rfl
@[simp] theorem bind_errs (r : Reported ε α) (f : α → Reported ε β) :
    (r.bind f).errs = r.errs ++ (f r.val).errs := rfl
@[simp] theorem map_val (f : α → β) (r : Reported ε α) : (r.map f).val = f r.val := rfl
@[simp] theorem map_errs (f : α → β) (r : Reported ε α) : (r.map f).errs = r.errs := rfl
@[simp] theorem ofExcept_ok (d a : α) : (ofExcept d (.ok a) : Reported ε α) = pure a := rfl
@[simp] theorem traverse_val (f : α → Reported ε β) (xs : List α) :
    (traverse f xs).val = xs.map fun x => (f x).val := rfl
@[simp] theorem traverse_errs (f : α → Reported ε β) (xs : List α) :
    (traverse f xs).errs = xs.flatMap fun x => (f x).errs := rfl
@[simp] theorem filter_val (f : α → Reported ε Bool) (xs : List α) :
    (filter f xs).val = xs.filter fun x => (f x).val := rfl
@[simp] theorem filter_errs (f : α → Reported ε Bool) (xs : List α) :
    (filter f xs).errs = xs.flatMap fun x => (f x).errs := rfl

/-- What follows a computation depends on its value alone. -/
theorem bind_congr {r : Reported ε α} {f g : α → Reported ε β} (h : f r.val = g r.val) : r.bind f = r.bind g := by
  unfold bind
  rw [h]

/-- What follows a map is what follows of the images. -/
theorem map_bind {γ : Type} (g : α → β) (r : Reported ε α) (f : β → Reported ε γ) :
    (r.map g).bind f = r.bind fun a => f (g a) := rfl

/-- A list of images, each computed on. -/
theorem traverse_of_map {γ : Type} (f : β → Reported ε γ) (g : α → β) (xs : List α) :
    traverse f (xs.map g) = traverse (fun x => f (g x)) xs := by
  simp [traverse, Function.comp_def, List.flatMap_map]

/-- Values alone. -/
theorem traverse_pure {f : α → Reported ε β} {g : α → β} {xs : List α} (h : ∀ x ∈ xs, f x = pure (g x)) :
    traverse f xs = pure (xs.map g) := by
  refine Reported.ext (List.map_congr_left fun x hx => ?_) (List.flatMap_eq_nil_iff.2 fun x hx => ?_)
  · rw [h x hx]
    rfl
  · rw [h x hx]
    rfl

/-- A list of images, filtered. -/
theorem filter_of_map (f : β → Reported ε Bool) (g : α → β) (xs : List α) :
    filter f (xs.map g) = (filter (fun x => f (g x)) xs).map (List.map g) := by
  simp [filter, map, List.filter_map, Function.comp_def, List.flatMap_map]

/-- Elements on which two functions agree. -/
theorem traverse_congr {f g : α → Reported ε β} {xs : List α} (h : ∀ x ∈ xs, f x = g x) :
    traverse f xs = traverse g xs := by
  refine Reported.ext (List.map_congr_left fun x hx => ?_) (List.flatMap_congr fun x hx => ?_)
  · rw [h x hx]
  · rw [h x hx]

theorem filter_congr {f g : α → Reported ε Bool} {xs : List α} (h : ∀ x ∈ xs, f x = g x) :
    filter f xs = filter g xs := by
  refine Reported.ext (List.filter_congr fun x hx => ?_) (List.flatMap_congr fun x hx => ?_)
  · rw [h x hx]
  · rw [h x hx]

/-! ## Refinement -/

/-- The same value, and no error the other does not raise. -/
def Refines (r' r : Reported ε α) : Prop := r'.val = r.val ∧ r'.errs ⊆ r.errs

/-- An outcome refines itself. -/
theorem Refines.refl (r : Reported ε α) : Refines r r := ⟨rfl, fun _ h => h⟩

/-- Refinements compose. -/
theorem Refines.trans {r r' r'' : Reported ε α} (h : Refines r'' r') (h' : Refines r' r) : Refines r'' r :=
  ⟨h.1.trans h'.1, fun _ hx => h'.2 (h.2 hx)⟩

/-- What refines a clean computation is clean. -/
theorem Refines.clean {r r' : Reported ε α} (h : Refines r' r) (hc : r.Clean) : r'.Clean :=
  List.eq_nil_of_subset_nil (hc ▸ h.2)

/-- They go through a sequence. -/
theorem Refines.bind {r r' : Reported ε α} {f f' : α → Reported ε β} (h : Refines r' r)
    (hf : ∀ a, Refines (f' a) (f a)) : Refines (r'.bind f') (r.bind f) := by
  obtain ⟨hv, he⟩ := h
  refine ⟨by simpa [hv] using (hf r.val).1, ?_⟩
  simp only [bind_errs, hv]
  exact List.append_subset.2 ⟨fun _ hx => List.mem_append_left _ (he hx),
    fun _ hx => List.mem_append_right _ ((hf r.val).2 hx)⟩

/-- They go through a map. -/
theorem Refines.map {r r' : Reported ε α} (f : α → β) (h : Refines r' r) : Refines (r'.map f) (r.map f) :=
  ⟨congrArg f h.1, h.2⟩

/-- They go through a list. -/
theorem Refines.traverse {f f' : α → Reported ε β} (h : ∀ a, Refines (f' a) (f a)) (xs : List α) :
    Refines (Reported.traverse f' xs) (Reported.traverse f xs) := by
  induction xs with
  | nil => exact Refines.refl _
  | cons x xs ih =>
    obtain ⟨hv, he⟩ := ih
    obtain ⟨hxv, hxe⟩ := h x
    simp only [traverse_val, traverse_errs] at hv he
    refine ⟨by simp [hxv, hv], ?_⟩
    simp only [traverse_errs, List.flatMap_cons]
    exact List.append_subset.2 ⟨fun _ hy => List.mem_append_left _ (hxe hy),
      fun _ hy => List.mem_append_right _ (he hy)⟩

/-- They go through a filter. -/
theorem Refines.filter {f f' : α → Reported ε Bool} (h : ∀ a, Refines (f' a) (f a)) (xs : List α) :
    Refines (Reported.filter f' xs) (Reported.filter f xs) := by
  have ht := (Refines.traverse h xs).2
  refine ⟨?_, by simpa using ht⟩
  simp only [filter_val]
  exact List.filter_congr fun x _ => (h x).1

/-! ## Lists in another order -/

/-- The same elements and the same errors, in some order. -/
structure Permutes (r' r : Reported ε (List α)) : Prop where
  val : r'.val.Perm r.val
  errs : r'.errs.Perm r.errs

/-- A list computed on in another order. -/
theorem Permutes.traverse {xs ys : List α} (h : xs.Perm ys) (f : α → Reported ε β) :
    Permutes (Reported.traverse f xs) (Reported.traverse f ys) := ⟨h.map _, h.flatMap_right _⟩

/-- A list filtered in another order. -/
theorem Permutes.filter {xs ys : List α} (h : xs.Perm ys) (f : α → Reported ε Bool) :
    Permutes (Reported.filter f xs) (Reported.filter f ys) := ⟨h.filter _, h.flatMap_right _⟩

/-- What is computed of each element of lists in different orders. -/
theorem Permutes.bind_traverse {r r' : Reported ε (List α)} (h : Permutes r' r) (f : α → Reported ε β) :
    Permutes (r'.bind (Reported.traverse f)) (r.bind (Reported.traverse f)) :=
  ⟨h.val.map _, h.errs.append (h.val.flatMap_right _)⟩

/-! ## Elements that say nothing -/

/-- Elements that `f` leaves out without an error can be taken away. -/
theorem filter_of_silent {f : α → Reported ε Bool} {p : α → Bool} {xs : List α}
    (h : ∀ x ∈ xs, p x = false → (f x).val = false ∧ (f x).errs = []) :
    Reported.filter f xs = Reported.filter f (xs.filter p) := by
  induction xs with
  | nil => rfl
  | cons x xs ih =>
    have ih := ih fun y hy => h y (List.mem_cons_of_mem _ hy)
    have hval : xs.filter (fun y => (f y).val) = (xs.filter p).filter fun y => (f y).val := congrArg val ih
    have herrs : xs.flatMap (fun y => (f y).errs) = (xs.filter p).flatMap fun y => (f y).errs := congrArg errs ih
    cases hp : p x with
    | true => simp only [Reported.filter, List.filter_cons, List.flatMap_cons, hp, hval, herrs, ite_true]
    | false =>
      obtain ⟨hv, he⟩ := h x (List.mem_cons_self ..) hp
      simp [Reported.filter, hp, hv, he, hval, herrs]

end Reported
