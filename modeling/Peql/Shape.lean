import Peql.Cache
import Peql.Lib.Arrivals
import Peql.Lib.Runs

/-!
# Suppression of a whole result

`SuppressExec` ends a query with no aggregate: it holds its input's batches back until they have `k` rows, then gives
them and what follows; an input that ends before gives nothing. It runs over one partition, so its input's partitions
are merged first, whatever plan the optimiser puts in its input's place (`suppress_all_or_nothing`).
-/

namespace Peql

open Arrived

variable {ω ε : Type}

/-- A physical plan: in a run at a moment, executing one of its partitions fails, or has given so much of a stream. -/
structure ExecutionPlan (ω ε : Type) where
  partitionCount : Nat
  execute : ω → Nat → Except ε (Arrived ε Batch)

/-- What has come of a partition's stream; an execution that fails is one error. -/
def ExecutionPlan.stream (plan : ExecutionPlan ω ε) (w : ω) (partition : Nat) : Arrived ε Batch :=
  match plan.execute w partition with
  | .ok s => s
  | .error e => ⟨[.error e], true⟩

/-- What `hold_first` makes of what has come of its input. -/
inductive HoldFirst (ε : Type)
  | waits
  | empty
  | fails (e : ε)
  | gives (items : List (Except ε Batch))

/-- `hold_first`, from the batches it holds and their rows, which are in memory; `ended` says whether what has come is
all of the input. -/
def holdFirst (k : Nat) (ended : Bool) : List (Except ε Batch) → Nat → List Batch → HoldFirst ε
  | items, rows, held =>
    if rows < k then
      match items with
      | .ok b :: input => holdFirst k ended input (rows + b.rows.length) (held ++ [b])
      | .error e :: _ => .fails e
      | [] => if ended then .empty else .waits
    else .gives (held.map .ok ++ items)

/-- `once(hold_first(input, k)).try_flatten()`. -/
def suppressed (k : Nat) (input : Arrived ε Batch) : Arrived ε Batch :=
  match holdFirst k input.ended input.items 0 [] with
  | .waits => ⟨[], false⟩
  | .empty => ⟨[], true⟩
  | .fails e => ⟨[.error e], true⟩
  | .gives items => ⟨items, input.ended⟩

structure SuppressExec (ω ε : Type) where
  k : Nat
  input : ExecutionPlan ω ε

namespace SuppressExec

variable (coalesce : ExecutionPlan ω ε → ExecutionPlan ω ε)

/-- `SuppressExec::new`. -/
def new (k : Nat) (input : ExecutionPlan ω ε) : SuppressExec ω ε :=
  ⟨k, if 1 < input.partitionCount then coalesce input else input⟩

/-- `with_new_children`, which panics without a child. -/
def withNewChildren (s : SuppressExec ω ε) (children : List (ExecutionPlan ω ε)) : Option (SuppressExec ω ε) :=
  children.head?.map (new coalesce s.k)

def execute (s : SuppressExec ω ε) (w : ω) (partition : Nat) : Except ε (Arrived ε Batch) := do
  let input ← s.input.execute w partition
  return suppressed s.k input

/-- The operator as a plan: its partitions are its input's. -/
def plan (s : SuppressExec ω ε) : ExecutionPlan ω ε := ⟨s.input.partitionCount, s.execute⟩

/-- The optimiser puts other children in a node's place. -/
def Rebuilds (s : SuppressExec ω ε) (children : List (ExecutionPlan ω ε)) (t : SuppressExec ω ε) : Prop :=
  s.withNewChildren coalesce children = some t

end SuppressExec

/-- What a node over `input` runs over, when the optimiser has given it these children, one after another. -/
def lastChild (input : ExecutionPlan ω ε) (rebuilt : List (List (ExecutionPlan ω ε))) : ExecutionPlan ω ε :=
  rebuilt.foldl (fun plan children => children.head?.getD plan) input

/-- `CoalescePartitionsExec` merges the streams of its input's partitions into one. -/
structure Coalesces (coalesce : ExecutionPlan ω ε → ExecutionPlan ω ε) : Prop where
  one : ∀ p, (coalesce p).partitionCount = 1
  merges : ∀ p w s, (coalesce p).execute w 0 = .ok s → ∃ tagged, Merged p.partitionCount (p.stream w) tagged s

/-! ## Holding back -/

/-- The rows of some batches. -/
def rowCount (batches : List Batch) : Nat := (batches.map fun b => b.rows.length).sum

/-- The rows that have come, errors apart. -/
abbrev rowsOfItems (items : List (Except ε Batch)) : Nat := weight (fun b : Batch => b.rows.length) items

/-- Where `k` rows come before an error, what is held and what follows is given as it came. -/
theorem holdFirst_gives {k : Nat} (ended : Bool) {items : List (Except ε Batch)} {rows : Nat} (held : List Batch)
    (h : k ≤ rows + rowCount (clean items)) : holdFirst k ended items rows held = .gives (held.map .ok ++ items) := by
  induction items generalizing rows held with
  | nil =>
    unfold holdFirst
    rw [if_neg (by simpa [rowCount, clean] using h)]
  | cons x items ih =>
    by_cases hrows : rows < k
    · unfold holdFirst
      rw [if_pos hrows]
      cases x with
      | error e =>
        simp [rowCount, clean] at h
        omega
      | ok b =>
        have hrest : k ≤ rows + b.rows.length + rowCount (clean items) := by
          simp only [rowCount, clean, List.map_cons, List.sum_cons] at h ⊢
          omega
        show holdFirst k ended items (rows + b.rows.length) (held ++ [b]) = _
        rw [ih (held ++ [b]) hrest, List.map_append, List.append_assoc]
        rfl
    · unfold holdFirst
      rw [if_neg hrows]

/-- Where they do not, an error is all that is given. -/
theorem holdFirst_keeps {k : Nat} (ended : Bool) {items : List (Except ε Batch)} {rows : Nat} (held : List Batch)
    (h : rows + rowCount (clean items) < k) :
    holdFirst k ended items rows held =
      match items.drop (clean items).length with
      | .error e :: _ => .fails e
      | _ => if ended then .empty else .waits := by
  induction items generalizing rows held with
  | nil =>
    unfold holdFirst
    rw [if_pos (by simpa [rowCount, clean] using h)]
    rfl
  | cons x items ih =>
    have hrows : rows < k := by omega
    unfold holdFirst
    rw [if_pos hrows]
    cases x with
    | error e => rfl
    | ok b =>
      have hrest : rows + b.rows.length + rowCount (clean items) < k := by
        simp only [rowCount, clean, List.map_cons, List.sum_cons] at h ⊢
        omega
      show holdFirst k ended items (rows + b.rows.length) (held ++ [b]) = _
      rw [ih (held ++ [b]) hrest]
      rfl

/-- All or nothing, of what has come of one stream. -/
structure AllOrNothing (k : Nat) (input out : Arrived ε Batch) : Prop where
  /-- `k` rows have come with no error before: every batch is released, in order and unchanged, and what follows. -/
  released : k ≤ rowCount (clean input.items) → out = input
  /-- They have not: no batch is. -/
  withheld : rowCount (clean input.items) < k → ∀ b, .ok b ∉ out.items
  /-- An error met before is given, and nothing else. -/
  failed : rowCount (clean input.items) < k → ∀ e rest,
    input.items = (clean input.items).map .ok ++ .error e :: rest → out = ⟨[.error e], true⟩
  /-- With no error, nothing is, until the input has ended. -/
  quiet : rowCount (clean input.items) < k → Sound input.items → out = ⟨[], input.ended⟩

theorem suppressed_allOrNothing (k : Nat) (input : Arrived ε Batch) : AllOrNothing k input (suppressed k input) := by
  by_cases hk : k ≤ rowCount (clean input.items)
  · have hzero : k ≤ 0 + rowCount (clean input.items) := by omega
    have hgives := holdFirst_gives input.ended [] hzero
    refine ⟨fun _ => ?_, fun h => absurd hk (by omega), fun h => absurd hk (by omega), fun h => absurd hk (by omega)⟩
    unfold suppressed
    rw [hgives]
    rfl
  · have hlt : rowCount (clean input.items) < k := by omega
    have hzero : 0 + rowCount (clean input.items) < k := by omega
    have hkeeps := holdFirst_keeps input.ended [] hzero
    have hfailed : ∀ e rest, input.items = (clean input.items).map .ok ++ .error e :: rest →
        suppressed k input = ⟨[.error e], true⟩ := by
      intro e rest heq
      unfold suppressed
      have hdrop : input.items.drop (clean input.items).length = .error e :: rest := by
        have hlength :
            (clean input.items).length = ((clean input.items).map fun b => (.ok b : Except ε Batch)).length := by
          rw [List.length_map]
        rw [hlength]
        conv_lhs =>
          arg 2
          rw [heq]
        exact List.drop_left
      rw [hkeeps, hdrop]
    have hquiet : Sound input.items → suppressed k input = ⟨[], input.ended⟩ := by
      intro hsound
      unfold suppressed
      have hdrop : input.items.drop (clean input.items).length = [] := by
        rw [List.drop_eq_nil_iff, ← congrArg List.length (clean_of_sound hsound), List.length_map]
      rw [hkeeps, hdrop]
      cases input.ended <;> rfl
    refine ⟨fun h => absurd h hk, fun _ => ?_, fun _ => hfailed, fun _ => hquiet⟩
    rcases clean_or_error input.items with hsound | ⟨e, rest, heq⟩
    · rw [hquiet hsound]
      simp
    · rw [hfailed e rest heq]
      simp

/-! ## Over merged partitions -/

/-- However often its children are replaced, a node is as if made over the last. -/
theorem rebuilt_eq {coalesce : ExecutionPlan ω ε → ExecutionPlan ω ε} {k : Nat} {input : ExecutionPlan ω ε}
    {rebuilt : List (List (ExecutionPlan ω ε))} {s : SuppressExec ω ε}
    (h : Runs.Run (SuppressExec.Rebuilds coalesce) (.new coalesce k input) rebuilt s) :
    s = .new coalesce k (lastChild input rebuilt) := by
  generalize hstart : SuppressExec.new coalesce k input = start at h
  induction h generalizing input with
  | nil _ => exact hstart.symm
  | @cons _ t u children rebuilt hstep _ ih =>
    subst hstart
    unfold SuppressExec.Rebuilds SuppressExec.withNewChildren at hstep
    cases hhead : children.head? with
    | none =>
      rw [hhead] at hstep
      cases hstep
    | some child =>
      rw [hhead] at hstep
      have ht : SuppressExec.new coalesce k child = t := Option.some.inj hstep
      rw [ih ht]
      unfold lastChild
      rw [List.foldl_cons, hhead]
      rfl

/-- The stream a node runs over is merged of its child's partitions. -/
theorem new_merges {coalesce : ExecutionPlan ω ε → ExecutionPlan ω ε} (hc : Coalesces coalesce) (k : Nat)
    (child : ExecutionPlan ω ε) {w : ω} {p : Nat} {arrived : Arrived ε Batch}
    (hp : p < (SuppressExec.new coalesce k child).input.partitionCount)
    (h : (SuppressExec.new coalesce k child).input.execute w p = .ok arrived) :
    ∃ tagged, Merged child.partitionCount (child.stream w) tagged arrived := by
  unfold SuppressExec.new at hp h
  dsimp only at hp h
  split at hp
  · next hmany =>
    rw [if_pos hmany] at h
    rw [hc.one, Nat.lt_one_iff] at hp
    subst hp
    exact hc.merges child w arrived h
  · next hfew =>
    rw [if_neg hfew] at h
    obtain ⟨hone, rfl⟩ : child.partitionCount = 1 ∧ p = 0 := by omega
    have harrived : arrived = child.stream w 0 := by
      unfold ExecutionPlan.stream
      rw [h]
    rw [hone, harrived]
    exact ⟨_, merged_one (child.stream w)⟩

/-- Suppression releases all or nothing of the merge of its child's partitions, whatever child the optimiser has given
it: no batch before `k` rows have come of all partitions together, every batch once they have with no error before, and
of partitions that have ended without one, all or nothing by their rows. -/
theorem suppress_all_or_nothing {coalesce : ExecutionPlan ω ε → ExecutionPlan ω ε} (hc : Coalesces coalesce) (k : Nat)
    (input : ExecutionPlan ω ε) {rebuilt : List (List (ExecutionPlan ω ε))} {s : SuppressExec ω ε}
    (h : Runs.Run (SuppressExec.Rebuilds coalesce) (.new coalesce k input) rebuilt s) {w : ω} {p : Nat}
    (hp : p < s.plan.partitionCount) {out : Arrived ε Batch} (hout : s.plan.execute w p = .ok out) :
    let child := lastChild input rebuilt
    let rows := ∑ q ∈ Finset.range child.partitionCount, rowsOfItems (child.stream w q).items
    ∃ tagged arrived, Merged child.partitionCount (child.stream w) tagged arrived ∧ AllOrNothing k arrived out ∧
      (rows < k → ∀ b, .ok b ∉ out.items) ∧
      (arrived.ended = true → (∀ q < child.partitionCount, Sound (child.stream w q).items) →
        (k ≤ rows → out = arrived ∧ ∀ q < child.partitionCount, own q tagged = (child.stream w q).items) ∧
        (rows < k → out = ⟨[], true⟩)) := by
  intro child rows
  obtain rfl := rebuilt_eq h
  cases harrived : (SuppressExec.new coalesce k child).input.execute w p with
  | error e =>
    have hfails : (SuppressExec.new coalesce k child).plan.execute w p = .error e := by
      show ((SuppressExec.new coalesce k child).input.execute w p >>= _) = _
      rw [harrived]
      rfl
    cases hfails.symm.trans hout
  | ok arrived =>
    obtain rfl : suppressed k arrived = out := by
      have hruns : (SuppressExec.new coalesce k child).plan.execute w p = .ok (suppressed k arrived) := by
        show ((SuppressExec.new coalesce k child).input.execute w p >>= _) = _
        rw [harrived]
        rfl
      exact Except.ok.inj (hruns.symm.trans hout)
    obtain ⟨tagged, hmerged⟩ := new_merges hc k child hp harrived
    have hall := suppressed_allOrNothing k arrived
    have hcome : rowCount (clean arrived.items) ≤ rows :=
      (sum_clean_le _ arrived.items).trans (hmerged.weight_le fun b => b.rows.length)
    refine ⟨tagged, arrived, hmerged, hall, fun hlt => hall.withheld (hcome.trans_lt hlt), fun hended hsound => ?_⟩
    have hclean := hmerged.sound hsound
    have hrows : rowCount (clean arrived.items) = rows :=
      (sum_clean_of_sound _ hclean).trans (hmerged.weight_of_ended (fun b => b.rows.length) hended hsound)
    refine ⟨fun hk => ⟨hall.released (hrows ▸ hk), fun q hq => hmerged.all_of_ended hended hsound hq⟩, fun hlt => ?_⟩
    rw [hall.quiet (hrows ▸ hlt) hclean, hended]

/-- Partitions given one behind another. -/
def inOrder (p : ExecutionPlan ω ε) : ExecutionPlan ω ε := ⟨1, fun w _ => .ok (concat p.partitionCount (p.stream w))⟩

theorem inOrder_coalesces : Coalesces (inOrder : ExecutionPlan ω ε → ExecutionPlan ω ε) := by
  refine ⟨fun _ => rfl, fun p w s h => ?_⟩
  obtain rfl := Except.ok.inj h
  exact ⟨_, merged_concat _ _⟩

/-- Two partitions, of one row each. -/
def twoRows : ExecutionPlan Unit String := ⟨2, fun _ p => .ok ⟨[.ok ⟨[], [[("amount", .int p)]]⟩], true⟩⟩

/-- Two rows are fewer than three, behind a child put in another's place. -/
theorem suppress_two_of_three : ∃ out, (SuppressExec.new inOrder 3 twoRows).plan.execute () 0 = .ok out ∧
    ∀ b, .ok b ∉ out.items := by
  obtain ⟨out, hout⟩ : ∃ out, (SuppressExec.new inOrder 3 twoRows).plan.execute () 0 = .ok out := ⟨_, rfl⟩
  have hrun : Runs.Run (SuppressExec.Rebuilds inOrder) (.new inOrder 3 (inOrder twoRows)) [[twoRows]]
      (.new inOrder 3 twoRows) := .cons rfl (.nil _)
  obtain ⟨_, _, _, _, hfew, _⟩ := suppress_all_or_nothing inOrder_coalesces 3 (inOrder twoRows) hrun (by decide) hout
  exact ⟨out, hout, hfew (by decide)⟩

end Peql
