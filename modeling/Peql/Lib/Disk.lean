import Mathlib.Logic.Function.Basic
import Mathlib.Data.List.Infix

/-!
# A disk: names of files, and files

A name is of a file or of none, and a file is what has been written to it: whoever has a file open goes on with that
file, whatever is done to its name. Opening a name to write cuts its file to nothing, or makes a new one; renaming gives
a file another name, and the file that had it no name at all. A file has one name at most.

What an operation does to a file it is not about is said once for each (`Spares`).
-/

structure Disk (π α : Type) where
  names : π → Option Nat
  files : Nat → List α
  /-- Files are numbered, and no number is used again. -/
  next : Nat
  allocated : ∀ {p i}, names p = some i → i < next
  unshared : ∀ {p q i}, names p = some i → names q = some i → p = q

namespace Disk

variable {π α : Type}

/-- What a name's file holds. -/
def content (d : Disk π α) (p : π) : Option (List α) := (d.names p).map d.files

/-- The file that is opened under a name to write. -/
def fileFor (d : Disk π α) (p : π) : Nat := (d.names p).getD d.next

/-- More is written to an open file. -/
def append (d : Disk π α) (i : Nat) (chunk : List α) : Disk π α :=
  { d with files := Function.update d.files i (d.files i ++ chunk) }

/-- The file `i` is as it was, under no name it did not have. -/
structure Spares (d d' : Disk π α) (i : Nat) : Prop where
  files : d'.files i = d.files i
  names : ∀ p, d'.names p = some i → d.names p = some i
  next : d.next ≤ d'.next

section Files

variable {d d' : Disk π α} {p : π} {i j : Nat}

theorem Spares.refl (d : Disk π α) (i : Nat) : Spares d d i := ⟨rfl, fun _ h => h, le_refl _⟩

/-- The file a path is created as is the one it names, or a new one. -/
theorem fileFor_eq (d : Disk π α) (p : π) : d.names p = some (d.fileFor p) ∨ d.fileFor p = d.next := by
  unfold fileFor
  cases h : d.names p with
  | none => exact .inr rfl
  | some i => exact .inl rfl

/-- It is no other file there is. -/
theorem fileFor_ne (hi : i < d.next) (hp : d.names p ≠ some i) : d.fileFor p ≠ i := by
  rintro rfl
  rcases d.fileFor_eq p with h | h
  · exact hp h
  · omega

@[simp] theorem names_append (d : Disk π α) (i : Nat) (chunk : List α) : (d.append i chunk).names = d.names := rfl

@[simp] theorem files_append_self (d : Disk π α) (i : Nat) (chunk : List α) :
    (d.append i chunk).files i = d.files i ++ chunk := by simp [append]

/-- A path's content is that of the file it names. -/
theorem content_eq_some {bytes : List α} : d.content p = some bytes ↔ ∃ i, d.names p = some i ∧ d.files i = bytes :=
  Option.map_eq_some_iff

theorem content_eq_none : d.content p = none ↔ d.names p = none := Option.map_eq_none_iff

/-- Appending to one file spares the others. -/
theorem spares_append (chunk : List α) (h : j ≠ i) : Spares d (d.append j chunk) i :=
  ⟨Function.update_of_ne (Ne.symm h) _ _, fun _ hp => hp, le_refl _⟩

/-- A name keeps what it holds where its file does. -/
theorem content_of_spares (hnames : d'.names p = d.names p) (h : ∀ i, d.names p = some i → Spares d d' i) :
    d'.content p = d.content p := by
  unfold content
  rw [hnames]
  cases hp : d.names p with
  | none => rfl
  | some i => exact congrArg some (h i hp).files

end Files

/-! ## Names -/

variable [DecidableEq π]

/-- A name is opened to write: its file is cut, or made. -/
def create (d : Disk π α) (p : π) : Disk π α where
  names := Function.update d.names p (some (d.fileFor p))
  files := Function.update d.files (d.fileFor p) []
  next := max d.next (d.fileFor p + 1)
  allocated := by
    intro q i hq
    by_cases hqp : q = p
    · subst hqp
      simp only [Function.update_self, Option.some.injEq] at hq
      omega
    · rw [Function.update_of_ne hqp] at hq
      have := d.allocated hq
      omega
  unshared := by
    have hself : ∀ {q i}, q ≠ p → d.names q = some i → d.fileFor p = i → False := by
      intro q i hqp hq hi
      rcases d.fileFor_eq p with h | h
      · exact hqp (d.unshared hq (hi ▸ h))
      · have := d.allocated hq
        omega
    intro q r i hq hr
    by_cases hqp : q = p <;> by_cases hrp : r = p
    · rw [hqp, hrp]
    · subst hqp
      rw [Function.update_of_ne hrp] at hr
      simp only [Function.update_self, Option.some.injEq] at hq
      exact (hself hrp hr hq).elim
    · subst hrp
      rw [Function.update_of_ne hqp] at hq
      simp only [Function.update_self, Option.some.injEq] at hr
      exact (hself hqp hq hr).elim
    · rw [Function.update_of_ne hqp] at hq
      rw [Function.update_of_ne hrp] at hr
      exact d.unshared hq hr

def unlink (d : Disk π α) (p : π) : Disk π α :=
  { d with
    names := Function.update d.names p none
    allocated := by
      intro q i hq
      by_cases hqp : q = p
      · simp [hqp] at hq
      · exact d.allocated (by rwa [Function.update_of_ne hqp] at hq)
    unshared := by
      intro q r i hq hr
      by_cases hqp : q = p
      · simp [hqp] at hq
      by_cases hrp : r = p
      · simp [hrp] at hr
      · rw [Function.update_of_ne hqp] at hq
        rw [Function.update_of_ne hrp] at hr
        exact d.unshared hq hr }

/-- The name `q` is given to what had the name `p`. -/
def move (d : Disk π α) (p q : π) : Disk π α :=
  { d with
    names := Function.update (Function.update d.names p none) q (d.names p)
    allocated := by
      intro r i hr
      simp only [Function.update_apply] at hr
      split at hr
      · exact d.allocated hr
      split at hr
      · cases hr
      · exact d.allocated hr
    unshared := by
      intro r r' i hr hr'
      simp only [Function.update_apply] at hr hr'
      split at hr <;> split at hr'
      · next h h' => rw [h, h']
      · split at hr'
        · cases hr'
        · next hne => exact (hne (d.unshared hr' hr)).elim
      · split at hr
        · cases hr
        · next hne => exact (hne (d.unshared hr hr')).elim
      · split at hr
        · cases hr
        split at hr'
        · cases hr'
        · exact d.unshared hr hr' }

/-- A name without a file cannot be renamed. -/
def rename (d : Disk π α) (p q : π) : Option (Disk π α) := if (d.names p).isSome then some (d.move p q) else none

section Names

variable {d : Disk π α} {p q : π} {i : Nat}

@[simp] theorem names_create (d : Disk π α) (p : π) :
    (d.create p).names = Function.update d.names p (some (d.fileFor p)) := rfl

@[simp] theorem names_unlink (d : Disk π α) (p : π) : (d.unlink p).names = Function.update d.names p none := rfl

@[simp] theorem names_move (d : Disk π α) (p q : π) :
    (d.move p q).names = Function.update (Function.update d.names p none) q (d.names p) := rfl

@[simp] theorem files_create_self (d : Disk π α) (p : π) : (d.create p).files (d.fileFor p) = [] := by simp [create]

/-- A created file is one there is. -/
theorem fileFor_lt_create (d : Disk π α) (p : π) : d.fileFor p < (d.create p).next := by
  simp only [create]
  omega

/-- A rename moves the name of a file there is. -/
theorem rename_eq_some {d' : Disk π α} (h : d.rename p q = some d') : ∃ i, d.names p = some i ∧ d' = d.move p q := by
  unfold rename at h
  split at h
  · next hp =>
    obtain ⟨i, hi⟩ := Option.isSome_iff_exists.1 hp
    exact ⟨i, hi, (Option.some.inj h).symm⟩
  · cases h

/-- Creating spares the files of other names. -/
theorem spares_create (h : d.fileFor p ≠ i) : Spares d (d.create p) i where
  files := Function.update_of_ne (Ne.symm h) _ _
  names := by
    intro q hq
    by_cases hqp : q = p
    · subst hqp
      simp only [names_create, Function.update_self, Option.some.injEq] at hq
      exact absurd hq h
    · rwa [names_create, Function.update_of_ne hqp] at hq
  next := Nat.le_max_left _ _

/-- Removing a name spares every file. -/
theorem spares_unlink : Spares d (d.unlink p) i where
  files := rfl
  names := by
    intro q hq
    by_cases hqp : q = p
    · simp [hqp] at hq
    · rwa [names_unlink, Function.update_of_ne hqp] at hq
  next := le_refl _

/-- So does moving another's. -/
theorem spares_move (h : d.names p ≠ some i) : Spares d (d.move p q) i where
  files := rfl
  names := by
    intro r hr
    simp only [names_move, Function.update_apply] at hr
    split at hr
    · exact absurd hr h
    split at hr
    · cases hr
    · exact hr
  next := le_refl _

end Names

end Disk
