import Mathlib.Logic.Function.Basic

/-!
# Maps as their lookups

A finite map from keys is what looking a key up gives. Two maps are equal when every lookup is.
-/

/-- What a map holds under each key. -/
abbrev Lookup (κ ν : Type*) := κ → Option ν

namespace Lookup

variable {κ ν : Type*}

/-- The map with nothing in it. -/
def empty : Lookup κ ν := fun _ => none

@[simp] theorem empty_apply (k : κ) : (empty : Lookup κ ν) k = none := rfl

variable [DecidableEq κ]

/-- `m` with `v` under `k`. -/
def insert (m : Lookup κ ν) (k : κ) (v : ν) : Lookup κ ν := Function.update m k (some v)

/-- `m` with nothing under `k`. -/
def erase (m : Lookup κ ν) (k : κ) : Lookup κ ν := Function.update m k none

/-- The map of a list of entries; of two under one key the later stands. -/
def ofList : List (κ × ν) → Lookup κ ν
  | [] => empty
  | (k, v) :: rest => fun x => (ofList rest x).or (if x = k then some v else none)

@[simp] theorem insert_self (m : Lookup κ ν) (k : κ) (v : ν) : m.insert k v k = some v := by
  simp [insert]

theorem insert_of_ne (m : Lookup κ ν) {k k' : κ} (v : ν) (h : k' ≠ k) : m.insert k v k' = m k' := by
  simp [insert, h]

theorem insert_apply (m : Lookup κ ν) (k k' : κ) (v : ν) :
    m.insert k v k' = if k' = k then some v else m k' := by
  simp [insert, Function.update_apply]

@[simp] theorem erase_self (m : Lookup κ ν) (k : κ) : m.erase k k = none := by
  simp [erase]

theorem erase_of_ne (m : Lookup κ ν) {k k' : κ} (h : k' ≠ k) : m.erase k k' = m k' := by
  simp [erase, h]

/-- A key no entry has. -/
theorem ofList_eq_none {l : List (κ × ν)} {k : κ} (h : k ∉ l.map Prod.fst) : ofList l k = none := by
  induction l with
  | nil => rfl
  | cons e l ih =>
    obtain ⟨k', v⟩ := e
    simp only [List.map_cons, List.mem_cons, not_or] at h
    simp [ofList, ih h.2, h.1]

/-- What the map of a list holds is an entry of the list. -/
theorem mem_of_ofList {l : List (κ × ν)} {k : κ} {v : ν} (h : ofList l k = some v) : (k, v) ∈ l := by
  induction l with
  | nil => simp [ofList] at h
  | cons e l ih =>
    obtain ⟨k', v'⟩ := e
    simp only [ofList] at h
    cases hr : ofList l k with
    | some w =>
      rw [hr] at h
      simp only [Option.some_or, Option.some.injEq] at h
      subst h
      exact List.mem_cons_of_mem _ (ih hr)
    | none =>
      rw [hr] at h
      simp only [Option.none_or] at h
      split at h
      · rename_i hk
        simp only [Option.some.injEq] at h
        subst hk h
        exact List.mem_cons_self
      · cases h

/-! ## Maps filled entry by entry -/

variable {α : Type*}

/-- `m` with the value `f` gives each element, if it gives one, under the element's key, in order. -/
def fill (key : α → κ) (f : α → Option ν) (l : List α) (m : Lookup κ ν) : Lookup κ ν :=
  l.foldl (fun out x => match f x with | some v => out.insert (key x) v | none => out) m

@[simp] theorem fill_nil (key : α → κ) (f : α → Option ν) (m : Lookup κ ν) : fill key f [] m = m := rfl

theorem fill_cons (key : α → κ) (f : α → Option ν) (x : α) (l : List α) (m : Lookup κ ν) :
    fill key f (x :: l) m = fill key f l (match f x with | some v => m.insert (key x) v | none => m) := rfl

/-- A key no element has keeps what it had. -/
theorem fill_of_notMem (key : α → κ) (f : α → Option ν) {l : List α} {k : κ} (m : Lookup κ ν) (h : k ∉ l.map key) :
    fill key f l m k = m k := by
  induction l generalizing m with
  | nil => rfl
  | cons x l ih =>
    simp only [List.map_cons, List.mem_cons, not_or] at h
    rw [fill_cons, ih _ h.2]
    cases f x with
    | none => rfl
    | some v => exact insert_of_ne m v h.1

/-- What a filled map holds it held before, or an element gave. -/
theorem mem_of_fill {key : α → κ} {f : α → Option ν} {l : List α} {m : Lookup κ ν} {k : κ} {v : ν}
    (h : fill key f l m k = some v) : m k = some v ∨ ∃ x ∈ l, key x = k ∧ f x = some v := by
  induction l generalizing m with
  | nil => exact .inl h
  | cons x l ih =>
    rw [fill_cons] at h
    rcases ih h with hm | ⟨y, hy, hrest⟩
    · cases hx : f x with
      | none =>
        rw [hx] at hm
        exact .inl hm
      | some w =>
        rw [hx] at hm
        dsimp only at hm
        rw [insert_apply] at hm
        split at hm
        · next hk => exact .inr ⟨x, List.mem_cons_self, hk.symm, hx.trans hm⟩
        · exact .inl hm
    · exact .inr ⟨y, List.mem_cons_of_mem _ hy, hrest⟩

/-- A key is filled when an element under it gives a value. -/
theorem fill_ne_none {key : α → κ} {f : α → Option ν} {l : List α} {m : Lookup κ ν} {k : κ}
    (h : m k ≠ none ∨ ∃ x ∈ l, key x = k ∧ f x ≠ none) : fill key f l m k ≠ none := by
  induction l generalizing m with
  | nil => simpa using h
  | cons x l ih =>
    rw [fill_cons]
    refine ih ?_
    rcases h with hm | ⟨y, hy, hk, hf⟩
    · refine .inl ?_
      cases f x with
      | none => exact hm
      | some v =>
        dsimp only
        rw [insert_apply]
        split
        · exact Option.some_ne_none v
        · exact hm
    · rcases List.mem_cons.1 hy with rfl | hy
      · obtain ⟨v, hv⟩ := Option.ne_none_iff_exists'.1 hf
        refine .inl ?_
        rw [hv]
        dsimp only
        rw [← hk, insert_self]
        exact Option.some_ne_none v
      · exact .inr ⟨y, hy, hk, hf⟩

/-- An element whose key no other element has leaves its own value, if it has one. -/
theorem fill_of_mem (key : α → κ) (f : α → Option ν) {l : List α} {x : α} (m : Lookup κ ν)
    (hn : (l.map key).Nodup) (hx : x ∈ l) (hm : m (key x) = none) : fill key f l m (key x) = f x := by
  induction l generalizing m with
  | nil => cases hx
  | cons y l ih =>
    simp only [List.map_cons, List.nodup_cons] at hn
    rw [fill_cons]
    rcases List.mem_cons.1 hx with rfl | hx
    · rw [fill_of_notMem key f _ hn.1]
      cases f x with
      | none => exact hm
      | some v => exact insert_self m (key x) v
    · have hne : key x ≠ key y := fun h => hn.1 (h ▸ List.mem_map_of_mem hx)
      refine ih _ hn.2 hx ?_
      cases f y with
      | none => exact hm
      | some v => exact (insert_of_ne m v hne).trans hm

/-! ## Association lists -/

/-- In an association list without repeats, an entry is what its key is looked up to. -/
theorem lookup_of_mem {α β : Type*} [BEq α] [LawfulBEq α] {l : List (α × β)} {k : α} {v : β}
    (hunique : (l.map Prod.fst).Nodup) (h : (k, v) ∈ l) : l.lookup k = some v := by
  induction l with
  | nil => cases h
  | cons c l ih =>
    obtain ⟨s, u⟩ := c
    obtain ⟨hnot, htail⟩ := List.nodup_cons.1 hunique
    rw [List.lookup_cons]
    rcases List.mem_cons.1 h with heq | hrest
    · obtain ⟨rfl, rfl⟩ := Prod.mk.inj heq
      simp
    · have hne : k ≠ s := by
        rintro rfl
        exact hnot (List.mem_map.2 ⟨_, hrest, rfl⟩)
      rw [beq_eq_false_iff_ne.2 hne]
      exact ih htail hrest

end Lookup
