import Mathlib.Algebra.Order.Field.Rat
import Mathlib.Data.Rat.Cast.Order
import Mathlib.Order.Interval.Set.Basic
import Mathlib.Tactic.Linarith
import Mathlib.Tactic.Positivity
import Mathlib.Tactic.NormNum

/-!
# How long a commit waits for its next attempt

A commit refused is tried again after a wait that doubles from the policy's minimum, grows by a random share of itself,
and stops at the policy's maximum. Durations are exact, in nanoseconds, up to the longest there is; what does not fit
saturates, or panics (`none`). Each wait lies between the two bounds and grows with the retries made and with the share
(`waits_grow`), and a policy allows no more waits than retries, each over within its total time.
-/

namespace Peql

/-! ## Durations -/

/-- `Duration::MAX`, in nanoseconds. -/
def durationMax : ℚ := 2 ^ 64 * 10 ^ 9 - 1

theorem durationMax_nonneg : 0 ≤ durationMax := by norm_num [durationMax]

structure Duration where
  nanos : ℚ
  nonneg : 0 ≤ nanos
  le_max : nanos ≤ durationMax

/-- A random share. -/
abbrev Share := {unit : ℚ // 0 ≤ unit ∧ unit ≤ 1}

namespace Duration

theorem nanos_injective : Function.Injective Duration.nanos := by
  rintro ⟨d, _, _⟩ ⟨e, _, _⟩ rfl
  rfl

instance : LinearOrder Duration := LinearOrder.lift' Duration.nanos nanos_injective

theorem le_iff {d e : Duration} : d ≤ e ↔ d.nanos ≤ e.nanos := Iff.rfl

theorem nanos_min (d e : Duration) : (min d e).nanos = min d.nanos e.nanos :=
  Monotone.map_min (f := Duration.nanos) fun _ _ h => h

def saturate (nanos : ℚ) (h : 0 ≤ nanos) : Duration :=
  ⟨min nanos durationMax, le_min h durationMax_nonneg, min_le_right _ _⟩

def saturatingMul (d : Duration) (times : Nat) : Duration :=
  saturate (d.nanos * times) (mul_nonneg d.nonneg (Nat.cast_nonneg _))

def saturatingAdd (d e : Duration) : Duration := saturate (d.nanos + e.nanos) (add_nonneg d.nonneg e.nonneg)

/-- `mul_f64`, which panics when the product is no duration. -/
def mulF64 (d : Duration) (x : ℚ) : Option Duration :=
  if h : 0 ≤ d.nanos * x ∧ d.nanos * x ≤ durationMax then some ⟨d.nanos * x, h.1, h.2⟩ else none

theorem millis_lt_max (ms : UInt64) : (ms.toNat : ℚ) * 10 ^ 6 < durationMax := by
  have h : (ms.toNat : ℚ) ≤ 2 ^ 64 := by exact_mod_cast ms.toNat_lt.le
  unfold durationMax
  linarith

def fromMillis (ms : UInt64) : Duration := ⟨ms.toNat * 10 ^ 6, by positivity, (millis_lt_max ms).le⟩

end Duration

/-! ## The policy -/

/-- `1u32.checked_shl`. -/
def checkedShlOne (k : Nat) : Option Nat := if k < 32 then some (2 ^ k) else none

structure CommitRetry where
  retries : Nat
  minWait : Duration
  maxWait : Duration
  total : Duration

namespace CommitRetry

/-- The policy of a table's properties. -/
def of (numRetries : Nat) (minRetryWaitMs maxRetryWaitMs totalRetryTimeoutMs : UInt64) : CommitRetry where
  retries := numRetries
  minWait := .fromMillis minRetryWaitMs
  maxWait := .fromMillis maxRetryWaitMs
  total := .fromMillis totalRetryTimeoutMs

variable (p : CommitRetry)

/-- The wait before retry number `retried + 1`, without its random share. -/
def base (retried : Nat) : Duration :=
  min (p.minWait.saturatingMul ((checkedShlOne (min retried 31)).getD (2 ^ 32 - 1))) p.maxWait

/-- `wait_for`. -/
def waitFor (retried : Nat) (unit : ℚ) : Option Duration :=
  ((p.base retried).mulF64 (max 0 (min unit 1))).map fun share => min ((p.base retried).saturatingAdd share) p.maxWait

end CommitRetry

/-- A policy that has begun: the retries made so far. -/
structure Retrying where
  policy : CommitRetry
  retried : Nat

def CommitRetry.start (p : CommitRetry) : Retrying := ⟨p, 0⟩

namespace Retrying

/-- `wait`, so long after the first attempt: the wait made, if one is due. -/
def wait (r : Retrying) (elapsed : Duration) (unit : ℚ) : Option (Option Duration × Retrying) :=
  if r.policy.retries ≤ r.retried then some (none, r)
  else do
    let w ← r.policy.waitFor r.retried unit
    if r.policy.total < elapsed.saturatingAdd w then some (none, r)
    else some (some w, { r with retried := r.retried + 1 })

def attempts (r : Retrying) : Nat := r.retried + 1

/-- Waits asked for one after another, each so long after the first attempt: those made. -/
def waits (r : Retrying) : List (Duration × Share) → Option (List (Duration × Duration) × Retrying)
  | [] => some ([], r)
  | (elapsed, share) :: rest => do
    let (w, r) ← r.wait elapsed share
    let (ws, r) ← r.waits rest
    some (w.toList.map (fun w => (elapsed, w)) ++ ws, r)

end Retrying

/-! ## One wait -/

namespace CommitRetry

variable (p : CommitRetry)

/-- The doubled minimum, up to the maximum, in exact arithmetic. -/
def exactBase (n : Nat) : ℚ := min p.maxWait.nanos (p.minWait.nanos * 2 ^ min n 31)

theorem base_eq (n : Nat) : (p.base n).nanos = p.exactBase n := by
  have hshl : (checkedShlOne (min n 31)).getD (2 ^ 32 - 1) = 2 ^ min n 31 := by
    unfold checkedShlOne
    rw [if_pos (by omega), Option.getD_some]
  unfold base exactBase
  rw [hshl, Duration.nanos_min]
  show min (min (p.minWait.nanos * ((2 ^ min n 31 : ℕ) : ℚ)) durationMax) p.maxWait.nanos = _
  push_cast
  rw [min_assoc, min_eq_right p.maxWait.le_max, min_comm]

/-- The wait with its share, in exact arithmetic. -/
def exactWait (n : Nat) (s : Share) : ℚ := min p.maxWait.nanos (p.exactBase n + s * p.exactBase n)

theorem exactBase_nonneg (n : Nat) : 0 ≤ p.exactBase n :=
  le_min p.maxWait.nonneg (mul_nonneg p.minWait.nonneg (by positivity))

theorem exactWait_nonneg (n : Nat) (s : Share) : 0 ≤ p.exactWait n s :=
  le_min p.maxWait.nonneg (add_nonneg (p.exactBase_nonneg n) (mul_nonneg s.2.1 (p.exactBase_nonneg n)))

theorem exactWait_le (n : Nat) (s : Share) : p.exactWait n s ≤ p.maxWait.nanos := min_le_left _ _

/-- The wait, as a duration. -/
def waitOf (n : Nat) (s : Share) : Duration :=
  ⟨p.exactWait n s, p.exactWait_nonneg n s, (p.exactWait_le n s).trans p.maxWait.le_max⟩

/-- `wait_for` does not panic, and is exact. -/
theorem waitFor_eq (n : Nat) (s : Share) : p.waitFor n s = some (p.waitOf n s) := by
  have hclamp : max 0 (min s.1 1) = s.1 := by rw [min_eq_left s.2.2, max_eq_right s.2.1]
  have hshare : (p.base n).nanos * s.1 ≤ (p.base n).nanos := mul_le_of_le_one_right (p.base n).nonneg s.2.2
  have hfits : 0 ≤ (p.base n).nanos * s.1 ∧ (p.base n).nanos * s.1 ≤ durationMax :=
    ⟨mul_nonneg (p.base n).nonneg s.2.1, hshare.trans (p.base n).le_max⟩
  unfold waitFor
  rw [hclamp, Duration.mulF64, dif_pos hfits, Option.map_some]
  refine congrArg some (Duration.nanos_injective ?_)
  rw [Duration.nanos_min]
  show min (min ((p.base n).nanos + (p.base n).nanos * s.1) durationMax) p.maxWait.nanos = p.exactWait n s
  rw [min_assoc, min_eq_right p.maxWait.le_max, p.base_eq, min_comm, mul_comm]
  rfl

theorem exactBase_mono {m n : Nat} (h : m ≤ n) : p.exactBase m ≤ p.exactBase n := by
  refine min_le_min_left _ (mul_le_mul_of_nonneg_left ?_ p.minWait.nonneg)
  exact pow_le_pow_right₀ (by norm_num) (by omega)

/-- A wait grows with the retries made and with its share. -/
theorem exactWait_mono {m n : Nat} {s t : Share} (h : m ≤ n) (hs : s ≤ t) : p.exactWait m s ≤ p.exactWait n t := by
  have hbase := p.exactBase_mono h
  refine min_le_min_left _ (add_le_add hbase ?_)
  calc (s : ℚ) * p.exactBase m ≤ s * p.exactBase n := mul_le_mul_of_nonneg_left hbase s.2.1
    _ ≤ t * p.exactBase n := mul_le_mul_of_nonneg_right hs (p.exactBase_nonneg n)

theorem min_le_exactWait (n : Nat) (s : Share) : min p.minWait.nanos p.maxWait.nanos ≤ p.exactWait n s := by
  have hone : p.minWait.nanos ≤ p.minWait.nanos * 2 ^ min n 31 :=
    le_mul_of_one_le_right p.minWait.nonneg (one_le_pow₀ (by norm_num))
  have hbase : min p.minWait.nanos p.maxWait.nanos ≤ p.exactBase n := by
    rw [min_comm]
    exact min_le_min_left _ hone
  have hshare := mul_nonneg s.2.1 (p.exactBase_nonneg n)
  refine le_min (min_le_right _ _) ?_
  linarith

end CommitRetry

/-! ## A run of waits -/

namespace Retrying

/-- What one wait does: nothing, or one retry more, within the total time. -/
theorem wait_cases (r : Retrying) (elapsed : Duration) (s : Share) (htotal : r.policy.total.nanos < durationMax) :
    r.wait elapsed s = some (none, r) ∨
      ∃ w, r.wait elapsed s = some (some w, { r with retried := r.retried + 1 }) ∧ r.retried < r.policy.retries ∧
        elapsed.nanos + w.nanos ≤ r.policy.total.nanos := by
  unfold wait
  split
  · exact .inl rfl
  next hleft =>
    rw [r.policy.waitFor_eq, Option.bind_eq_bind, Option.bind_some]
    split
    · exact .inl rfl
    next hdue =>
      refine .inr ⟨_, rfl, Nat.lt_of_not_le hleft, ?_⟩
      have hsum : min (elapsed.nanos + (r.policy.waitOf r.retried s).nanos) durationMax ≤ r.policy.total.nanos :=
        Duration.le_iff.1 (not_lt.1 hdue)
      rcases min_le_iff.1 hsum with h | h
      · exact h
      · exact absurd h (not_le.2 htotal)

/-- Waits count retries, and there are no more than the policy has. -/
theorem waits_spec (calls : List (Duration × Share)) (r : Retrying) (htotal : r.policy.total.nanos < durationMax)
    (hretried : r.retried ≤ r.policy.retries) :
    ∃ ws r', r.waits calls = some (ws, r') ∧ r'.retried = r.retried + ws.length ∧ r'.retried ≤ r.policy.retries ∧
      ∀ w ∈ ws, w.1.nanos + w.2.nanos ≤ r.policy.total.nanos := by
  induction calls generalizing r with
  | nil => exact ⟨[], r, rfl, rfl, hretried, by simp⟩
  | cons call calls ih =>
    obtain ⟨elapsed, s⟩ := call
    rcases r.wait_cases elapsed s htotal with hnone | ⟨w, hsome, hleft, hdue⟩
    · obtain ⟨ws, r', hwaits, hcount, hmost, hall⟩ := ih r htotal hretried
      refine ⟨ws, r', ?_, hcount, hmost, hall⟩
      simp only [waits, hnone, Option.bind_eq_bind, Option.bind_some, hwaits]
      rfl
    · obtain ⟨ws, r', hwaits, hcount, hmost, hall⟩ := ih { r with retried := r.retried + 1 } htotal hleft
      refine ⟨(elapsed, w) :: ws, r', ?_, ?_, hmost, ?_⟩
      · simp only [waits, hsome, Option.bind_eq_bind, Option.bind_some, hwaits]
        rfl
      · rw [hcount, List.length_cons]
        dsimp only
        omega
      · intro x hx
        rcases List.mem_cons.1 hx with rfl | hx
        · exact hdue
        · exact hall x hx

end Retrying

/-- Bounded, growing and finite waits of a policy that allows so many retries. -/
structure CommitRetry.WaitsGrow (p : CommitRetry) (retries : Nat) : Prop where
  /-- A wait does not panic, lies between the bounds, grows with the retries made and with its share, and is the doubled
  minimum with its share, up to the maximum. -/
  waits : ∃ wait : Nat → Share → Duration, (∀ (n : Nat) (s : Share), p.waitFor n s = some (wait n s)) ∧
    (∀ n s, min p.minWait p.maxWait ≤ wait n s ∧ wait n s ≤ p.maxWait) ∧
    (∀ m n s t, m ≤ n → s ≤ t → wait m s ≤ wait n t) ∧
    ∀ n s, n < 32 → (wait n s).nanos = min p.maxWait.nanos
      (min p.maxWait.nanos (p.minWait.nanos * 2 ^ n) + s * min p.maxWait.nanos (p.minWait.nanos * 2 ^ n))
  /-- There are no more waits than retries, each over within the total time, and one attempt more than waits. -/
  attempts : ∀ calls, ∃ ws r, p.start.waits calls = some (ws, r) ∧ ws.length ≤ retries ∧
    (∀ w ∈ ws, w.1.nanos + w.2.nanos ≤ p.total.nanos) ∧ r.attempts = ws.length + 1

/-- Waits of a table's policy are bounded, growing and finite. -/
theorem waits_grow (retries : Nat) (minMs maxMs totalMs : UInt64) :
    (CommitRetry.of retries minMs maxMs totalMs).WaitsGrow retries := by
  set p := CommitRetry.of retries minMs maxMs totalMs
  refine ⟨⟨p.waitOf, p.waitFor_eq, fun n s => ⟨?_, p.exactWait_le n s⟩, ?_, fun n s hn => ?_⟩, fun calls => ?_⟩
  · rw [Duration.le_iff, Duration.nanos_min]
    exact p.min_le_exactWait n s
  · exact fun m n s t hmn hst => p.exactWait_mono hmn hst
  · have hmin : min n 31 = n := by omega
    show min p.maxWait.nanos (p.exactBase n + s * p.exactBase n) = _
    rw [CommitRetry.exactBase, hmin]
  · obtain ⟨ws, r, hwaits, hcount, hmost, hall⟩ :=
      p.start.waits_spec calls (Duration.millis_lt_max totalMs) (Nat.zero_le _)
    have hretried : r.retried = ws.length := by rw [hcount, CommitRetry.start, Nat.zero_add]
    refine ⟨ws, r, hwaits, ?_, hall, ?_⟩
    · rw [← hretried]
      exact hmost
    · rw [Retrying.attempts, hretried]

/-- The second wait of Iceberg's default policy, with half its share. -/
theorem waits_grow_default : ∃ w, (CommitRetry.of 4 100 60000 1800000).waitFor 1 (1 / 2) = some w ∧
    w.nanos = min (CommitRetry.of 4 100 60000 1800000).maxWait.nanos 300000000 := by
  obtain ⟨⟨wait, hwait, _, _, hexact⟩, _⟩ := waits_grow 4 100 60000 1800000
  have hhalf : (0 : ℚ) ≤ 1 / 2 ∧ (1 / 2 : ℚ) ≤ 1 := by norm_num
  refine ⟨wait 1 ⟨1 / 2, hhalf⟩, hwait 1 ⟨1 / 2, hhalf⟩, ?_⟩
  rw [hexact 1 ⟨1 / 2, hhalf⟩ (by decide)]
  have hmin : UInt64.toNat 100 = 100 := rfl
  have hmax : UInt64.toNat 60000 = 60000 := rfl
  norm_num [CommitRetry.of, Duration.fromMillis, hmin, hmax]

end Peql
