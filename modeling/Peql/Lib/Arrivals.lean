import Mathlib.Algebra.Order.Ring.Nat
import Mathlib.Algebra.BigOperators.Group.Finset.Piecewise
import Mathlib.Algebra.Order.BigOperators.Group.Finset
import Mathlib.Data.List.Infix

/-!
# Streams, as far as they have come

A stream of items that may fail is told by what has come of it so far and whether it has ended (`Arrived`). Several
streams are merged into one when it gives their items one after another, each stream's from its start and in its order;
one that has failed may be left there (`Merged`). Items are weighed, an error nothing, and what has been merged weighs
no more than what has come, and as much when all has been.
-/

/-- What has come of a stream, and whether that is all. -/
structure Arrived (ε α : Type) where
  items : List (Except ε α)
  ended : Bool

namespace Arrived

variable {ε α : Type}

/-- What an item weighs; an error weighs nothing. -/
def itemWeight (w : α → Nat) : Except ε α → Nat
  | .ok a => w a
  | .error _ => 0

def weight (w : α → Nat) (items : List (Except ε α)) : Nat := (items.map (itemWeight w)).sum

/-- The items before the first error. -/
def clean : List (Except ε α) → List α
  | .ok a :: rest => a :: clean rest
  | _ => []

/-- No item is an error. -/
def Sound (items : List (Except ε α)) : Prop := ∀ x ∈ items, ∃ a, x = .ok a

@[simp] theorem weight_nil (w : α → Nat) : weight w ([] : List (Except ε α)) = 0 := rfl

@[simp] theorem weight_cons (w : α → Nat) (x : Except ε α) (items : List (Except ε α)) :
    weight w (x :: items) = itemWeight w x + weight w items := rfl

theorem weight_append (w : α → Nat) (xs ys : List (Except ε α)) : weight w (xs ++ ys) = weight w xs + weight w ys := by
  unfold weight
  rw [List.map_append, List.sum_append]

theorem weight_initial (w : α → Nat) {xs ys : List (Except ε α)} (h : xs <+: ys) : weight w xs ≤ weight w ys := by
  obtain ⟨zs, rfl⟩ := h
  rw [weight_append]
  exact Nat.le_add_right _ _

/-- What comes before the first error is where the items begin. -/
theorem clean_initial (items : List (Except ε α)) : (clean items).map .ok <+: items := by
  induction items with
  | nil => exact List.prefix_rfl
  | cons x items ih =>
    cases x with
    | ok a => exact List.cons_prefix_cons.2 ⟨rfl, ih⟩
    | error e => exact List.nil_prefix

theorem sum_clean_le (w : α → Nat) (items : List (Except ε α)) : ((clean items).map w).sum ≤ weight w items := by
  have h := weight_initial w (clean_initial items)
  unfold weight at h
  rwa [List.map_map] at h

/-- Items without an error are all before the first. -/
theorem clean_of_sound {items : List (Except ε α)} (h : Sound items) : (clean items).map .ok = items := by
  induction items with
  | nil => rfl
  | cons x items ih =>
    obtain ⟨⟨a, rfl⟩, hrest⟩ := List.forall_mem_cons.1 h
    rw [clean, List.map_cons, ih hrest]

theorem sum_clean_of_sound (w : α → Nat) {items : List (Except ε α)} (h : Sound items) :
    ((clean items).map w).sum = weight w items := by
  conv_rhs => rw [← clean_of_sound h]
  unfold weight
  rw [List.map_map]
  rfl

/-- Items end before an error, or all are sound. -/
theorem clean_or_error (items : List (Except ε α)) :
    Sound items ∨ ∃ e rest, items = (clean items).map .ok ++ .error e :: rest := by
  induction items with
  | nil => exact .inl (by simp [Sound])
  | cons x items ih =>
    cases x with
    | error e => exact .inr ⟨e, items, rfl⟩
    | ok a =>
      rcases ih with h | ⟨e, rest, h⟩
      · exact .inl (List.forall_mem_cons.2 ⟨⟨a, rfl⟩, h⟩)
      · refine .inr ⟨e, rest, ?_⟩
        rw [clean, List.map_cons, List.cons_append, ← h]

/-! ## Merging -/

/-- The items of one stream among items told by their streams. -/
def own (p : Nat) (tagged : List (Nat × Except ε α)) : List (Except ε α) :=
  (tagged.filter fun t => t.1 = p).map Prod.snd

/-- A stream merged of `n` streams, its items told by theirs. -/
structure Merged (n : Nat) (parts : Nat → Arrived ε α) (tagged : List (Nat × Except ε α)) (out : Arrived ε α) :
    Prop where
  items : tagged.map Prod.snd = out.items
  within : ∀ t ∈ tagged, t.1 < n
  starts : ∀ p < n, own p tagged <+: (parts p).items
  /-- It ends when each has ended, or is left where it failed. -/
  ended : out.ended = true → ∀ p < n, (parts p).ended = true ∧ own p tagged = (parts p).items ∨
    ∃ e, (own p tagged).getLast? = some (.error e)

/-- One stream is merged of itself. -/
theorem merged_one (parts : Nat → Arrived ε α) :
    Merged 1 parts ((parts 0).items.map fun x => (0, x)) (parts 0) := by
  have hown : own 0 ((parts 0).items.map fun x => (0, x)) = (parts 0).items := by
    unfold own
    rw [List.filter_eq_self.2 (by simp), List.map_map]
    exact List.map_id _
  refine ⟨by rw [List.map_map]; exact List.map_id _, by simp, ?_, ?_⟩
  · intro p hp
    obtain rfl := Nat.lt_one_iff.1 hp
    rw [hown]
  · intro hended p hp
    obtain rfl := Nat.lt_one_iff.1 hp
    exact .inl ⟨hended, hown⟩

/-- Streams one behind another. -/
def concat (n : Nat) (parts : Nat → Arrived ε α) : Arrived ε α :=
  ⟨(List.range n).flatMap fun p => (parts p).items, (List.range n).all fun p => (parts p).ended⟩

theorem own_append (p : Nat) (xs ys : List (Nat × Except ε α)) : own p (xs ++ ys) = own p xs ++ own p ys := by
  unfold own
  rw [List.filter_append, List.map_append]

theorem own_tag (p q : Nat) (items : List (Except ε α)) :
    own p (items.map fun x => (q, x)) = if p = q then items else [] := by
  unfold own
  by_cases hp : p = q
  · rw [List.filter_eq_self.2 (by simp [hp]), List.map_map, if_pos hp]
    exact List.map_id _
  · rw [List.filter_eq_nil_iff.2 (by simp [Ne.symm hp]), if_neg hp]
    rfl

theorem own_concat (p n : Nat) (parts : Nat → Arrived ε α) :
    own p ((List.range n).flatMap fun q => (parts q).items.map fun x => (q, x)) =
      if p < n then (parts p).items else [] := by
  induction n with
  | zero => rfl
  | succ n ih =>
    rw [List.range_succ, List.flatMap_append, own_append, ih, List.flatMap_singleton, own_tag]
    rcases Nat.lt_trichotomy p n with hp | rfl | hp
    · rw [if_pos hp, if_neg (by omega), if_pos (by omega), List.append_nil]
    · rw [if_neg (by omega), if_pos rfl, if_pos (by omega), List.nil_append]
    · rw [if_neg (by omega), if_neg (by omega), if_neg (by omega), List.append_nil]

/-- Streams one behind another are merged. -/
theorem merged_concat (n : Nat) (parts : Nat → Arrived ε α) :
    Merged n parts ((List.range n).flatMap fun p => (parts p).items.map fun x => (p, x)) (concat n parts) := by
  refine ⟨?_, ?_, fun p hp => ?_, fun hended p hp => .inl ⟨?_, ?_⟩⟩
  · rw [List.map_flatMap]
    simp only [List.map_map]
    exact List.flatMap_congr fun p _ => List.map_id _
  · intro t ht
    obtain ⟨p, hp, ht⟩ := List.mem_flatMap.1 ht
    obtain ⟨x, _, rfl⟩ := List.mem_map.1 ht
    exact List.mem_range.1 hp
  · rw [own_concat, if_pos hp]
  · exact List.all_eq_true.1 hended p (List.mem_range.2 hp)
  · rw [own_concat, if_pos hp]

theorem weight_own (w : α → Nat) {n : Nat} {tagged : List (Nat × Except ε α)} (h : ∀ t ∈ tagged, t.1 < n) :
    ∑ p ∈ Finset.range n, weight w (own p tagged) = weight w (tagged.map Prod.snd) := by
  induction tagged with
  | nil => simp [own]
  | cons t tagged ih =>
    obtain ⟨ht, hrest⟩ := List.forall_mem_cons.1 h
    have hcons : ∀ p,
        weight w (own p (t :: tagged)) = (if t.1 = p then itemWeight w t.2 else 0) + weight w (own p tagged) := by
      intro p
      unfold own
      by_cases hp : t.1 = p
      · rw [List.filter_cons, if_pos (decide_eq_true hp), if_pos hp]
        rfl
      · rw [List.filter_cons, if_neg (by simpa using hp), if_neg hp, Nat.zero_add]
    simp only [hcons, Finset.sum_add_distrib, Finset.sum_ite_eq, Finset.mem_range, if_pos ht, ih hrest]
    rfl

namespace Merged

variable {n : Nat} {parts : Nat → Arrived ε α} {tagged : List (Nat × Except ε α)} {out : Arrived ε α}

/-- No more is merged than has come. -/
theorem weight_le (h : Merged n parts tagged out) (w : α → Nat) :
    weight w out.items ≤ ∑ p ∈ Finset.range n, weight w (parts p).items := by
  rw [← h.items, ← weight_own w h.within]
  exact Finset.sum_le_sum fun p hp => weight_initial w (h.starts p (Finset.mem_range.1 hp))

/-- When the merged stream has ended and none failed, all of each has been merged. -/
theorem all_of_ended (h : Merged n parts tagged out) (hended : out.ended = true)
    (hsound : ∀ p < n, Sound (parts p).items)
    {p : Nat} (hp : p < n) : own p tagged = (parts p).items := by
  rcases h.ended hended p hp with ⟨-, hall⟩ | ⟨e, he⟩
  · exact hall
  · have hmem : (.error e : Except ε α) ∈ (parts p).items := (h.starts p hp).subset (List.mem_of_getLast? he)
    obtain ⟨a, ha⟩ := hsound p hp _ hmem
    cases ha

theorem weight_of_ended (h : Merged n parts tagged out) (w : α → Nat) (hended : out.ended = true)
    (hsound : ∀ p < n, Sound (parts p).items) :
    weight w out.items = ∑ p ∈ Finset.range n, weight w (parts p).items := by
  rw [← h.items, ← weight_own w h.within]
  exact Finset.sum_congr rfl fun p hp => by rw [h.all_of_ended hended hsound (Finset.mem_range.1 hp)]

theorem sound (h : Merged n parts tagged out) (hsound : ∀ p < n, Sound (parts p).items) : Sound out.items := by
  rw [← h.items]
  intro x hx
  obtain ⟨t, ht, rfl⟩ := List.mem_map.1 hx
  have hmem : t.2 ∈ own t.1 tagged := List.mem_map.2 ⟨t, List.mem_filter.2 ⟨ht, by simp⟩, rfl⟩
  exact hsound t.1 (h.within t ht) _ ((h.starts t.1 (h.within t ht)).subset hmem)

end Merged

end Arrived
