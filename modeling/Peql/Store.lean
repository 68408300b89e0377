import Mathlib.Data.List.Sort
import Mathlib.Data.List.Dedup
import Mathlib.Data.List.Pairwise
import Mathlib.Data.String.Basic
import Peql.Parcel

/-!
# The contract store

Compiled contracts by name and version, and the tenants each is published to (`MemoryStore`). The two maps of the source
are kept as one list, in the order of names and then of versions: the current version of a name is its last.
-/

namespace Peql

/-- One registered version of a contract. -/
structure Registered where
  compilation : Compilation

namespace Registered

def name (r : Registered) : String := r.compilation.contract.name

def version (r : Registered) : Nat := r.compilation.contract.version

def owner (r : Registered) : Option String := r.compilation.contract.owner

/-- The order of the store. -/
def before (a b : Registered) : Prop := a.name < b.name ∨ a.name = b.name ∧ a.version < b.version

instance (a b : Registered) : Decidable (a.before b) := inferInstanceAs (Decidable (_ ∨ _))

/-- The order of versions is transitive. -/
theorem before_trans {a b c : Registered} (hab : a.before b) (hbc : b.before c) : a.before c := by
  rcases hab with hab | ⟨hab, hv⟩
  · rcases hbc with hbc | ⟨hbc, _⟩
    · exact .inl (hab.trans hbc)
    · exact .inl (hbc ▸ hab)
  · rcases hbc with hbc | ⟨hbc, hv'⟩
    · exact .inl (hab ▸ hbc)
    · exact .inr ⟨hab.trans hbc, hv.trans hv'⟩

/-- Any two versions are in order, or one. -/
theorem before_or_eq_or_before (a b : Registered) :
    a.before b ∨ (a.name = b.name ∧ a.version = b.version) ∨ b.before a := by
  unfold before
  rcases lt_trichotomy a.name b.name with h | h | h
  · exact .inl (.inl h)
  · have hv := lt_trichotomy a.version b.version
    simp only [h, lt_irrefl, false_or, true_and]
    exact hv
  · exact .inr (.inr (.inl h))

/-- What a version is kept under. -/
def key (r : Registered) : String × Nat := (r.name, r.version)

theorem key_eq {a b : Registered} : a.key = b.key ↔ a.name = b.name ∧ a.version = b.version :=
    Prod.mk.injEq .. ▸ Iff.rfl

/-- Versions in order have keys of their own. -/
theorem key_ne_of_before {a b : Registered} (h : a.before b) : a.key ≠ b.key := by
  intro heq
  obtain ⟨hname, hversion⟩ := key_eq.1 heq
  rcases h with h | ⟨_, h⟩
  · exact absurd hname h.ne
  · exact absurd hversion h.ne

instance : Std.Irrefl before := ⟨fun _ h => key_ne_of_before h rfl⟩

instance : Std.Antisymm before := ⟨fun _ _ hab hba => absurd rfl (key_ne_of_before (before_trans hab hba))⟩

end Registered

/-- The list with `r` in its place, over the version it had of that name and number. -/
def insertVersion (r : Registered) : List Registered → List Registered
  | [] => [r]
  | x :: xs =>
    if r.before x then r :: x :: xs
    else if x.before r then x :: insertVersion r xs
    else r :: xs

/-- What is in the list is the new version, or was there. -/
theorem mem_insertVersion {r x : Registered} {xs : List Registered} (h : x ∈ insertVersion r xs) : x = r ∨ x ∈ xs := by
  induction xs with
  | nil => exact .inl (List.mem_singleton.1 h)
  | cons y ys ih =>
    unfold insertVersion at h
    split at h
    · exact List.mem_cons.1 h
    split at h
    · rcases List.mem_cons.1 h with rfl | h
      · exact .inr List.mem_cons_self
      · exact (ih h).imp_right (List.mem_cons_of_mem y)
    · rcases List.mem_cons.1 h with rfl | h
      · exact .inl rfl
      · exact .inr (List.mem_cons_of_mem y h)

/-- The list stays in order. -/
theorem sorted_insertVersion (r : Registered) {xs : List Registered} (h : xs.Pairwise Registered.before) :
    (insertVersion r xs).Pairwise Registered.before := by
  induction xs with
  | nil => exact List.pairwise_singleton _ _
  | cons y ys ih =>
    obtain ⟨hy, hys⟩ := List.pairwise_cons.1 h
    unfold insertVersion
    split
    · next hry =>
      refine List.pairwise_cons.2 ⟨fun z hz => ?_, h⟩
      rcases List.mem_cons.1 hz with rfl | hz
      · exact hry
      · exact Registered.before_trans hry (hy z hz)
    split
    · next hyr =>
      refine List.pairwise_cons.2 ⟨fun z hz => ?_, ih hys⟩
      rcases mem_insertVersion hz with rfl | hz
      · exact hyr
      · exact hy z hz
    · next hry hyr =>
      -- The version replaced has the same name and number, so it stood where `r` stands.
      obtain ⟨hname, hversion⟩ : r.name = y.name ∧ r.version = y.version := by
        rcases Registered.before_or_eq_or_before r y with h | h | h
        · exact absurd h hry
        · exact h
        · exact absurd h hyr
      refine List.pairwise_cons.2 ⟨fun z hz => ?_, hys⟩
      have hyz := hy z hz
      unfold Registered.before at hyz ⊢
      rwa [hname, hversion]

/-- Inserting a version replaces the one of its name and number, and no other. -/
theorem mem_insertVersion_iff {r x : Registered} {xs : List Registered} (h : xs.Pairwise Registered.before) :
    x ∈ insertVersion r xs ↔ x = r ∨ x ∈ xs ∧ x.key ≠ r.key := by
  induction xs with
  | nil => simp [insertVersion]
  | cons y ys ih =>
    obtain ⟨hy, hys⟩ := List.pairwise_cons.1 h
    unfold insertVersion
    split
    · next hry =>
      have hne : ∀ z ∈ y :: ys, z.key ≠ r.key := by
        intro z hz
        have hrz : r.before z := by
          rcases List.mem_cons.1 hz with rfl | hz
          · exact hry
          · exact Registered.before_trans hry (hy z hz)
        exact (Registered.key_ne_of_before hrz).symm
      rw [List.mem_cons, and_iff_left_of_imp (hne x)]
    split
    · next hyr =>
      rw [List.mem_cons, ih hys, List.mem_cons]
      have hne : x = y → x.key ≠ r.key := fun hxy => hxy ▸ Registered.key_ne_of_before hyr
      tauto
    · next hry hyr =>
      obtain heq : r.key = y.key := by
        rcases Registered.before_or_eq_or_before r y with h | h | h
        · exact absurd h hry
        · exact Registered.key_eq.2 h
        · exact absurd h hyr
      have hne : ∀ z ∈ ys, z.key ≠ r.key := fun z hz => heq ▸ (Registered.key_ne_of_before (hy z hz)).symm
      have hxy : x = y → x.key = r.key := fun hxy => hxy ▸ heq.symm
      rw [List.mem_cons, List.mem_cons]
      constructor
      · rintro (hx | hx)
        · exact .inl hx
        · exact .inr ⟨.inr hx, hne x hx⟩
      · rintro (hx | ⟨hx | hx, hk⟩)
        · exact .inl hx
        · exact absurd (hxy hx) hk
        · exact .inr hx

/-- The store's maps: every version registered, and the audiences of every contract. -/
structure Contents where
  versions : List Registered
  sorted : versions.Pairwise Registered.before
  audiences : String → List String

/-- Audience for a contract published to every tenant. -/
def publicAudience : String := "public"

namespace Contents

def empty : Contents := ⟨[], List.Pairwise.nil, fun _ => []⟩

def put (s : Contents) (r : Registered) : Contents :=
  ⟨insertVersion r s.versions, sorted_insertVersion r s.sorted, s.audiences⟩

/-- The current (latest registered) version. -/
def current (s : Contents) (name : String) : Option Registered := (s.versions.filter fun r => r.name = name).getLast?

/-- The names registered, in order. -/
def names (s : Contents) : List String := (s.versions.map Registered.name).dedup

/-- The current version of every contract. -/
def list (s : Contents) : List Registered := s.names.filterMap s.current

def publish (s : Contents) (name audience : String) : Contents :=
  { s with audiences := Function.update s.audiences name (audience :: s.audiences name) }

def unpublish (s : Contents) (name audience : String) : Contents :=
  { s with audiences := Function.update s.audiences name ((s.audiences name).filter (· ≠ audience)) }

/-- The current version is of the name. -/
theorem current_name {s : Contents} {name : String} {r : Registered} (h : s.current name = some r) : r.name = name := by
  have hmem := List.mem_of_getLast? h
  exact of_decide_eq_true (List.mem_filter.1 hmem).2

/-- Stores of the same versions have the same current ones. -/
theorem current_of_versions {s t : Contents} (h : s.versions = t.versions) (name : String) :
    s.current name = t.current name := by
  unfold current
  rw [h]

/-- It is one of the versions. -/
theorem current_mem {s : Contents} {name : String} {r : Registered} (h : s.current name = some r) : r ∈ s.versions :=
  (List.mem_filter.1 (List.mem_of_getLast? h)).1

theorem mem_put {s : Contents} {r x : Registered} (h : x ∈ (s.put r).versions) : x = r ∨ x ∈ s.versions :=
  mem_insertVersion h

/-- A version put replaces the one of its name and number. -/
theorem mem_put_iff {s : Contents} {r x : Registered} :
    x ∈ (s.put r).versions ↔ x = r ∨ x ∈ s.versions ∧ x.key ≠ r.key := mem_insertVersion_iff s.sorted

/-- Two versions in a store with one name and number are one. -/
theorem eq_of_key {s : Contents} {x y : Registered} (hx : x ∈ s.versions) (hy : y ∈ s.versions) (h : x.key = y.key) :
    x = y := by
  let Apart (a b : Registered) : Prop := a.key = b.key → a = b
  have hsymm : Std.Symm Apart := ⟨fun _ _ hab hk => (hab hk.symm).symm⟩
  have hapart : s.versions.Pairwise Apart :=
    s.sorted.imp fun hab hk => absurd hk (Registered.key_ne_of_before hab)
  exact hapart.forall_of_forall (fun _ _ _ => rfl) hx hy h

/-- The current version of a name is the highest of it. -/
theorem current_eq_some {s : Contents} {name : String} {h : Registered} :
    s.current name = some h ↔
      h ∈ s.versions ∧ h.name = name ∧ ∀ x ∈ s.versions, x.name = name → x.version ≤ h.version := by
  have hle : ∀ l, s.current name = some l → ∀ x ∈ s.versions, x.name = name → x.version ≤ l.version := by
    intro l hl x hx hname
    obtain ⟨ys, hys⟩ := List.getLast?_eq_some_iff.1 hl
    have hmem : x ∈ s.versions.filter fun r => r.name = name := List.mem_filter.2 ⟨hx, decide_eq_true hname⟩
    have hsorted := s.sorted.filter fun r => r.name = name
    rw [hys] at hmem hsorted
    rcases List.mem_append.1 hmem with hmem | hmem
    · rcases (List.pairwise_append.1 hsorted).2.2 x hmem l List.mem_cons_self with hlt | ⟨_, hlt⟩
      · exact absurd (hname.trans (current_name hl).symm) hlt.ne
      · exact hlt.le
    · rw [List.mem_singleton.1 hmem]
  constructor
  · intro hc
    exact ⟨current_mem hc, current_name hc, hle h hc⟩
  · rintro ⟨hmem, hname, hmax⟩
    cases hc : s.current name with
    | none =>
      have hnil := List.getLast?_eq_none_iff.1 hc
      have hin : h ∈ s.versions.filter fun r => r.name = name := List.mem_filter.2 ⟨hmem, decide_eq_true hname⟩
      rw [hnil] at hin
      cases hin
    | some l =>
      have hversion : l.version = h.version :=
        le_antisymm (hmax l (current_mem hc) (current_name hc)) (hle l hc h hmem hname)
      rw [eq_of_key (current_mem hc) hmem (Registered.key_eq.2 ⟨(current_name hc).trans hname.symm, hversion⟩)]

/-- There is none when no version has the name. -/
theorem current_eq_none {s : Contents} {name : String} :
    s.current name = none ↔ ∀ x ∈ s.versions, x.name ≠ name := by
  unfold current
  rw [List.getLast?_eq_none_iff, List.filter_eq_nil_iff]
  simp only [decide_eq_true_eq]

/-- Other contracts' current versions stay. -/
theorem current_put_of_ne {s : Contents} {r : Registered} {name : String} (h : name ≠ r.name) :
    (s.put r).current name = s.current name := by
  cases hc : s.current name with
  | none =>
    rw [current_eq_none] at hc ⊢
    intro x hx hname
    rcases mem_put hx with rfl | hx
    · exact h hname.symm
    · exact hc x hx hname
  | some c =>
    rw [current_eq_some] at hc ⊢
    obtain ⟨hmem, hname, hmax⟩ := hc
    refine ⟨mem_put_iff.2 (.inr ⟨hmem, fun hk => h ?_⟩), hname, fun x hx hxname => ?_⟩
    · exact hname.symm.trans (Registered.key_eq.1 hk).1
    · rcases mem_put hx with rfl | hx
      · exact absurd hxname.symm h
      · exact hmax x hx hxname

/-- A version put that none of its name is above is the current one. -/
theorem current_put_self {s : Contents} {r : Registered}
    (h : ∀ c, s.current r.name = some c → c.version ≤ r.version) : (s.put r).current r.name = some r := by
  rw [current_eq_some]
  refine ⟨mem_put_iff.2 (.inl rfl), rfl, fun x hx hname => ?_⟩
  rcases mem_put hx with rfl | hx
  · exact le_rfl
  cases hc : s.current r.name with
  | none => exact absurd hname (current_eq_none.1 hc x hx)
  | some c => exact ((current_eq_some.1 hc).2.2 x hx hname).trans (h c hc)

/-- A version put below the current one leaves it so. -/
theorem current_put_of_lt {s : Contents} {r c : Registered} (hc : s.current r.name = some c)
    (h : r.version < c.version) : (s.put r).current r.name = some c := by
  rw [current_eq_some] at hc ⊢
  obtain ⟨hmem, hname, hmax⟩ := hc
  refine ⟨mem_put_iff.2 (.inr ⟨hmem, fun hk => ?_⟩), hname, fun x hx hxname => ?_⟩
  · exact h.ne' (Registered.key_eq.1 hk).2
  · rcases mem_put hx with rfl | hx
    · exact h.le
    · exact hmax x hx hxname

/-- A name that has a version keeps one. -/
theorem current_put_isSome {s : Contents} {name : String} {c : Registered} (r : Registered)
    (h : s.current name = some c) : ∃ c', (s.put r).current name = some c' := by
  by_cases hname : name = r.name
  · subst hname
    by_cases hle : c.version ≤ r.version
    · exact ⟨r, current_put_self fun c' hc' => Option.some.inj (h.symm.trans hc') ▸ hle⟩
    · exact ⟨c, current_put_of_lt h (not_le.1 hle)⟩
  · exact ⟨c, (current_put_of_ne hname).trans h⟩

/-- The contracts listed are the current ones. -/
theorem mem_list {s : Contents} {r : Registered} : r ∈ s.list ↔ s.current r.name = some r := by
  unfold list
  rw [List.mem_filterMap]
  constructor
  · rintro ⟨name, _, h⟩
    rwa [current_name h]
  · intro h
    refine ⟨r.name, List.mem_dedup.2 (List.mem_map_of_mem (current_mem h)), h⟩

/-- The contracts are listed in the order of their names, each once. -/
theorem sorted_list (s : Contents) : s.list.Pairwise fun a b => a.name < b.name := by
  have hle : (s.versions.map Registered.name).Pairwise (· ≤ ·) := by
    refine List.pairwise_map.2 (s.sorted.imp fun {a b} h => ?_)
    rcases h with h | ⟨h, _⟩
    · exact h.le
    · exact h.le
  have hlt : s.names.Pairwise (· < ·) := by
    have hsub := hle.sublist (List.dedup_sublist _)
    have hne := List.nodup_dedup (s.versions.map Registered.name)
    exact (hsub.and hne).imp fun h => lt_of_le_of_ne h.1 h.2
  refine hlt.filterMap _ fun a a' haa b hb b' hb' => ?_
  rwa [current_name hb, current_name hb']

end Contents

end Peql
