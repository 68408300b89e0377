import Mathlib.Data.Multiset.Count
import Mathlib.Algebra.BigOperators.Group.Multiset.Basic
import Mathlib.Tactic.FieldSimp
import Mathlib.Tactic.Ring
import Mathlib.Tactic.Push
import Peql.Facts
import Peql.Lib.Extreme

/-!
# Combined facts are the facts of the whole

A validation of some rows is known by what it counts (`Validates`): rows, failures and nulls are counts, rates are
their quotients, minima and maxima are the first values of a column. Counts of two sets of rows add, and the better of
two firsts is the first of both, so each statistic `combinedStat` keeps is the statistic of the rows taken together
(`combinedStat_spec`). By induction over a sequence of writes, the manifest folded over the writes' own facts agrees
with the one a validation of all live rows records (`foldFacts_agrees`).
-/

namespace Peql

open Extreme

/-! ## Live data -/

/-- A data file: its entry, and the rows it holds. The entry's counts are the file's. -/
structure DataFile (conforms : Row → Prop) where
  entry : FileEntry
  rows : Multiset Row
  typed : ∀ r ∈ rows, conforms r
  entry_rows : entry.rows = rows.card
  entry_nulls : ∀ column n, entry.nullCounts column = some n → n = (rows.countP fun r => r.get column = .null : ℕ)

variable {conforms : Row → Prop}

namespace DataFile

def path (f : DataFile conforms) : String := f.entry.path

end DataFile

/-- The rows of some files. -/
def rowsOf (files : List (DataFile conforms)) : Multiset Row := (files.map DataFile.rows).sum

/-- A write to the data: the files it adds, and those it replaces. -/
inductive DataWrite (conforms : Row → Prop)
  | append (files : List (DataFile conforms))
  | overwrite (files : List (DataFile conforms))
  | rewrite (removed : List String) (files : List (DataFile conforms))

namespace DataWrite

def written : DataWrite conforms → Written
  | append _ => .append
  | overwrite _ => .overwrite
  | rewrite _ _ => .rewrite

def files : DataWrite conforms → List (DataFile conforms)
  | append fs | overwrite fs | rewrite _ fs => fs

def removed : DataWrite conforms → List String
  | append _ | overwrite _ => []
  | rewrite ps _ => ps

/-- The live files after the write. -/
def apply (live : List (DataFile conforms)) : DataWrite conforms → List (DataFile conforms)
  | append fs => live ++ fs
  | overwrite fs => fs
  | rewrite ps fs => (live.filter fun f => f.path ∉ ps) ++ fs

/-- What every write is: its files have paths of their own, and a rewrite replaces live files by files of the same
rows. -/
def Sound (live : List (DataFile conforms)) : DataWrite conforms → Prop
  | append fs => ((live ++ fs).map DataFile.path).Nodup
  | overwrite fs => (fs.map DataFile.path).Nodup
  | rewrite ps fs => ((live ++ fs).map DataFile.path).Nodup ∧ ps ≠ [] ∧ (∀ p ∈ ps, p ∈ live.map DataFile.path) ∧
      rowsOf (live.filter fun f => f.path ∈ ps) = rowsOf fs

end DataWrite

/-- The live files after some writes. -/
def liveAfter (live : List (DataFile conforms)) (ws : List (DataWrite conforms)) : List (DataFile conforms) :=
  ws.foldl DataWrite.apply live

/-- Every write of a sequence is sound where it is made. -/
def AllSound : List (DataFile conforms) → List (DataWrite conforms) → Prop
  | _, [] => True
  | live, w :: ws => w.Sound live ∧ AllSound (w.apply live) ws

/-! ## What a validation counts -/

/-- The values of a column that are not null, as a statistic shows them. -/
def shown (render : StatType → Value → Json) (ty : StatType) (column : String) (rows : Multiset Row) : Multiset Json :=
  ((rows.map fun r => r.get column).filter (· ≠ .null)).map (render ty)

def nullsIn (column : String) (rows : Multiset Row) : ℕ := rows.countP fun r => r.get column = .null

/-- Whether a type's values compare. -/
def StatType.ordered : StatType → Bool
  | .other => false
  | _ => true

/-- How a contract's rules and columns look at rows: which rows fail an assert, how a value is shown in a statistic, and
the least or greatest of values whose type peQL does not compare. -/
structure Reading where
  fails : String → Row → Bool
  render : StatType → Value → Json
  unordered : Stat → Multiset Json → Json

/-- The least or greatest of a column's values, null when it has none. -/
def ExtremeOf (p : Parsers) (rd : Reading) (s : Stat) (column : String) (want : Ordering) (rows : Multiset Row)
    (v : Json) : Prop :=
  if s.ty.ordered then FirstOr .null want (statKey p s.ty) (shown rd.render s.ty column rows) v
  else v = rd.unordered s (shown rd.render s.ty column rows) ∧ (v = .null ↔ shown rd.render s.ty column rows = 0)

/-- The value of a statistic of some rows; nothing is said of one that `combinedStat` does not keep. -/
def StatOf (p : Parsers) (rd : Reading) (s : Stat) (rows : Multiset Row) (v : Json) : Prop :=
  match s.field with
  | .rowCount => v = .int rows.card
  | .assertionPassRate a =>
    v = .float (if 0 < rows.card then 1 - (rows.countP fun r => rd.fails a r : ℕ) / rows.card else 1)
  | .column column .nullCount => v = .int (nullsIn column rows)
  | .column column .nullRate => v = .float (if 0 < rows.card then nullsIn column rows / rows.card else 0)
  | .column column .min => ExtremeOf p rd s column .lt rows v
  | .column column .max => ExtremeOf p rd s column .gt rows v
  | .column _ .distinctCount | .other _ | .writtenAt | .contractHash => True

/-- The statistics a fold over appends keeps; a minimum or maximum of values that do not compare may be lost. -/
def Stat.kept (s : Stat) : Bool :=
  match s.field with
  | .rowCount | .assertionPassRate _ | .column _ .nullCount | .column _ .nullRate => true
  | .column _ .min | .column _ .max => s.ty.ordered
  | .column _ .distinctCount | .other _ | .writtenAt | .contractHash => false

/-- The statistics whose value two sets of rows determine for both together. -/
def Stat.combines (s : Stat) : Bool :=
  match s.field with
  | .rowCount | .assertionPassRate _ | .column _ .nullCount | .column _ .nullRate | .column _ .min | .column _ .max =>
    true
  | .column _ .distinctCount | .other _ | .writtenAt | .contractHash => false

/-- parcel's validation plan of a contract, over any rows that conform to its row schema: every assert's failing rows
are counted, every statistic is computed, and a column's values are shown so that their texts tell them apart. -/
structure Validates (p : Parsers) (c : Compilation) (conforms : Row → Prop) (rd : Reading)
    (validate : Multiset Row → Verdict) : Prop where
  rowCount : ∀ rows, (∀ r ∈ rows, conforms r) → (validate rows).rowCount = rows.card
  failures : ∀ rows, (∀ r ∈ rows, conforms r) → (validate rows).failures = fun a =>
    if a ∈ c.validation.asserts then some ((rows.countP fun r => rd.fails a r : ℕ) : Int) else none
  breached : ∀ rows, (∀ r ∈ rows, conforms r) → ∀ f ∈ c.contract.flags, f.onFail = .deny →
    (f.assertId ∈ (validate rows).breached ↔ 0 < ((validate rows).failures f.assertId).getD 0)
  computed : ∀ rows, (∀ r ∈ rows, conforms r) → ∀ s ∈ c.validation.stats,
    ∃ v, (validate rows).stats s.column = some v ∧ StatOf p rd s rows v
  nothingElse : ∀ rows column, column ∉ c.validation.stats.map Stat.column → (validate rows).stats column = none
  columns : (c.validation.stats.map Stat.column).Nodup
  passRates : ∀ s ∈ c.validation.stats, ∀ a, s.field = .assertionPassRate a → a ∈ c.validation.asserts
  shownKey : ∀ s ∈ c.validation.stats, s.ty.ordered = true → ∀ column stat, s.field = .column column stat →
    stat = .min ∨ stat = .max → ∀ r, conforms r → r.get column ≠ .null →
      ∃ k, statKey p s.ty (rd.render s.ty (r.get column)) = some k
  shownInj : ∀ s ∈ c.validation.stats, s.ty.ordered = true → ∀ column stat, s.field = .column column stat →
    stat = .min ∨ stat = .max → ∀ r r', conforms r → conforms r' → r.get column ≠ .null → r'.get column ≠ .null →
      statKey p s.ty (rd.render s.ty (r.get column)) = statKey p s.ty (rd.render s.ty (r'.get column)) →
      rd.render s.ty (r.get column) = rd.render s.ty (r'.get column)

/-! ## Statistics of rows taken together -/

section Stats

variable {p : Parsers} {rd : Reading} {s : Stat} {A B : Multiset Row}

theorem nullsIn_add (column : String) (A B : Multiset Row) :
    nullsIn column (A + B) = nullsIn column A + nullsIn column B := Multiset.countP_add _ _ _

theorem nullsIn_le (column : String) (A : Multiset Row) : nullsIn column A ≤ A.card := Multiset.countP_le_card _ _

theorem shown_add (render : StatType → Value → Json) (ty : StatType) (column : String) (A B : Multiset Row) :
    shown render ty column (A + B) = shown render ty column A + shown render ty column B := by
  simp [shown, Multiset.map_add, Multiset.filter_add]

theorem mem_shown {render : StatType → Value → Json} {ty : StatType} {column : String} {x : Json} :
    x ∈ shown render ty column A ↔ ∃ r ∈ A, r.get column ≠ .null ∧ render ty (r.get column) = x := by
  simp only [shown, Multiset.mem_map, Multiset.mem_filter]
  constructor
  · rintro ⟨_, ⟨⟨r, hr, rfl⟩, hne⟩, rfl⟩
    exact ⟨r, hr, hne, rfl⟩
  · rintro ⟨r, hr, hne, rfl⟩
    exact ⟨_, ⟨⟨r, hr, rfl⟩, hne⟩, rfl⟩

/-- A rate's nulls are the nulls it was made of. -/
theorem nullsOf_rate (n rows : ℕ) (h : n ≤ rows) :
    nullsOf (.float (if 0 < rows then (n : ℚ) / rows else 0)) rows = some (n : Int) := by
  unfold nullsOf
  simp only [Json.asF64, Option.map_some, Option.some.injEq]
  by_cases hr : 0 < rows
  · have hne : (rows : ℚ) ≠ 0 := by exact_mod_cast hr.ne'
    rw [if_pos hr, Int.cast_natCast, div_mul_cancel₀ _ hne]
    exact round_natCast (α := ℚ) n
  · have hn : n = 0 := by omega
    subst hn
    rw [if_neg hr, zero_mul]
    exact round_zero

theorem extreme_null_left (ty : StatType) (y : Json) (want : Ordering) : extreme p ty .null y want = some y := by
  simp [extreme]

theorem extreme_null_right (ty : StatType) (x : Json) (want : Ordering) : extreme p ty x .null want = some x := by
  unfold extreme
  by_cases h : x = .null
  · simp [h]
  · simp [h]

/-- Values of a type that has no order are not compared. -/
theorem extreme_unordered {ty : StatType} (h : ty.ordered = false) {x y : Json} (hx : x ≠ .null) (hy : y ≠ .null)
    (want : Ordering) : extreme p ty x y want = none := by
  cases ty with
  | other => simp [extreme, hx, hy, statKey]
  | _ => cases h

/-- The extreme of two columns' extremes is the extreme of both columns' values. -/
theorem extremeOf_add {column : String} {want : Ordering} (hw : want ≠ .eq) {x y z : Json}
    (hx : ExtremeOf p rd s column want A x) (hy : ExtremeOf p rd s column want B y)
    (hz : extreme p s.ty x y want = some z) : ExtremeOf p rd s column want (A + B) z := by
  unfold ExtremeOf at hx hy ⊢
  rw [shown_add]
  cases ho : s.ty.ordered with
  | true =>
    simp only [ho, if_true] at hx hy ⊢
    rcases hx with ⟨hA, rfl⟩ | ⟨hx0, hx⟩
    · rw [extreme_null_left] at hz
      cases hz
      rwa [hA, zero_add]
    rcases hy with ⟨hB, rfl⟩ | ⟨hy0, hy⟩
    · rw [extreme_null_right] at hz
      cases hz
      rw [hB, add_zero]
      exact .inr ⟨hx0, hx⟩
    obtain ⟨k, hk, _⟩ := hx.2
    obtain ⟨l, hl, _⟩ := hy.2
    simp only [extreme, hx0, hy0, if_false, hk, hl, Option.bind_eq_bind, Option.bind_some, Option.some.injEq] at hz
    subst hz
    refine .inr ⟨?_, First.add hw hk hl hx hy⟩
    split
    · exact hx0
    · exact hy0
  | false =>
    simp only [ho] at hx hy ⊢
    obtain ⟨hxv, hx⟩ := hx
    obtain ⟨hyv, hy⟩ := hy
    by_cases hx0 : x = .null
    · subst hx0
      rw [extreme_null_left] at hz
      cases hz
      rw [hx.1 rfl, zero_add]
      exact ⟨hyv, hy⟩
    by_cases hy0 : y = .null
    · subst hy0
      rw [extreme_null_right] at hz
      cases hz
      rw [hy.1 rfl, add_zero]
      exact ⟨hxv, hx⟩
    rw [extreme_unordered ho hx0 hy0] at hz
    cases hz

/-- Facts of some rows: their count, their failures, and a value for each statistic known. -/
structure FactsOf (p : Parsers) (c : Compilation) (rd : Reading) (rows : Multiset Row) (m : Manifest) : Prop where
  rowCount : m.rowCount = rows.card
  failures : m.failures = fun a =>
    if a ∈ c.validation.asserts then some ((rows.countP fun r => rd.fails a r : ℕ) : Int) else none
  stats : ∀ s ∈ c.validation.stats, ∀ v, m.stats s.column = some v → StatOf p rd s rows v

variable {c : Compilation} {a b : Manifest}

/-- The rows of some rows that fail each assert. -/
def failing (c : Compilation) (rd : Reading) (rows : Multiset Row) : Lookup String Int := fun assertion =>
  if assertion ∈ c.validation.asserts then some ((rows.countP fun r => rd.fails assertion r : ℕ) : Int) else none

theorem combinedFailures_add (ha : a.failures = failing c rd A) (hb : b.failures = failing c rd B) :
    combinedFailures c a b = failing c rd (A + B) := by
  funext assertion
  unfold combinedFailures
  rw [ha, hb]
  unfold failing
  split
  · simp only [Option.getD_some, Multiset.countP_add]
    push_cast
    rfl
  · rfl

/-- A statistic two sets of rows combine to is the statistic of the rows taken together. -/
theorem combinedStat_spec (ha : FactsOf p c rd A a) (hb : FactsOf p c rd B b) (hs : s ∈ c.validation.stats)
    (hpass : ∀ x, s.field = .assertionPassRate x → x ∈ c.validation.asserts) {z : Json}
    (hz : combinedStat p a b (a.rowCount + b.rowCount) (combinedFailures c a b) s = some z) :
    StatOf p rd s (A + B) z := by
  have hrows : a.rowCount + b.rowCount = ((A + B).card : ℕ) := by
    rw [ha.rowCount, hb.rowCount, Multiset.card_add]
    push_cast
    rfl
  have hxa := ha.stats s hs
  have hxb := hb.stats s hs
  unfold combinedStat at hz
  unfold StatOf at hxa hxb ⊢
  rw [hrows] at hz
  cases hf : s.field with
  | rowCount =>
    simp only [hf, Option.some.injEq] at hz ⊢
    exact hz.symm
  | assertionPassRate x =>
    simp only [hf, Option.some.injEq, combinedFailures_add ha.failures hb.failures, failing, hpass x hf, if_true,
      Option.getD_some] at hz ⊢
    rw [← hz]
    simp only [Int.natCast_pos, Int.cast_natCast]
  | column column stat =>
    simp only [hf] at hz hxa hxb ⊢
    cases stat with
    | nullCount =>
      simp only [Option.bind_eq_bind, Option.bind_eq_some_iff] at hz hxa hxb ⊢
      obtain ⟨x, hx, y, hy, n, hn, m, hm, hz⟩ := hz
      rw [hxa x hx, Json.asI64] at hn
      rw [hxb y hy, Json.asI64] at hm
      cases hn
      cases hm
      cases hz
      rw [nullsIn_add]
      push_cast
      rfl
    | nullRate =>
      simp only [Option.bind_eq_bind, Option.bind_eq_some_iff] at hz hxa hxb ⊢
      obtain ⟨x, hx, y, hy, n, hn, m, hm, hz⟩ := hz
      rw [hxa x hx, ha.rowCount, nullsOf_rate _ _ (nullsIn_le column A)] at hn
      rw [hxb y hy, hb.rowCount, nullsOf_rate _ _ (nullsIn_le column B)] at hm
      cases hn
      cases hm
      cases hz
      rw [nullsIn_add]
      simp only [Int.natCast_pos]
      push_cast
      rfl
    | min =>
      simp only [Option.bind_eq_bind, Option.bind_eq_some_iff] at hz hxa hxb ⊢
      obtain ⟨x, hx, y, hy, hz⟩ := hz
      exact extremeOf_add (by decide) (hxa x hx) (hxb y hy) hz
    | max =>
      simp only [Option.bind_eq_bind, Option.bind_eq_some_iff] at hz hxa hxb ⊢
      obtain ⟨x, hx, y, hy, hz⟩ := hz
      exact extremeOf_add (by decide) (hxa x hx) (hxb y hy) hz
    | distinctCount => trivial
  | other | writtenAt | contractHash => trivial

theorem combinedStats_apply {rows : Int} {failures : Lookup String Int}
    (hn : (c.validation.stats.map Stat.column).Nodup) (hs : s ∈ c.validation.stats) :
    combinedStats p c a b rows failures s.column = combinedStat p a b rows failures s :=
  Lookup.fill_of_mem Stat.column (combinedStat p a b rows failures) Lookup.empty hn hs rfl

theorem combinedStats_of_notMem {rows : Int} {failures : Lookup String Int} {column : String}
    (h : column ∉ c.validation.stats.map Stat.column) : combinedStats p c a b rows failures column = none :=
  Lookup.fill_of_notMem Stat.column (combinedStat p a b rows failures) Lookup.empty h

/-- The values shown of a column tell themselves apart by their keys. -/
theorem shown_inj {validate : Multiset Row → Verdict} (V : Validates p c conforms rd validate)
    (hs : s ∈ c.validation.stats) (ho : s.ty.ordered = true) {column : String} {stat : ColumnStat}
    (hf : s.field = .column column stat) (hm : stat = .min ∨ stat = .max) (hA : ∀ r ∈ A, conforms r) :
    ∀ x ∈ shown rd.render s.ty column A, ∀ y ∈ shown rd.render s.ty column A,
      statKey p s.ty x = statKey p s.ty y → x = y := by
  intro x hx y hy hkey
  obtain ⟨r, hr, hr0, rfl⟩ := mem_shown.1 hx
  obtain ⟨r', hr', hr0', rfl⟩ := mem_shown.1 hy
  exact V.shownInj s hs ho column stat hf hm r r' (hA r hr) (hA r' hr') hr0 hr0' hkey

theorem extremeOf_unique {validate : Multiset Row → Verdict} (V : Validates p c conforms rd validate)
    (hs : s ∈ c.validation.stats) {column : String} {stat : ColumnStat} (hf : s.field = .column column stat)
    (hm : stat = .min ∨ stat = .max) (hA : ∀ r ∈ A, conforms r) {want : Ordering} (hw : want ≠ .eq) {x y : Json}
    (hx : ExtremeOf p rd s column want A x) (hy : ExtremeOf p rd s column want A y) : x = y := by
  unfold ExtremeOf at hx hy
  cases ho : s.ty.ordered with
  | true =>
    simp only [ho, if_true] at hx hy
    exact hx.unique hw (shown_inj V hs ho hf hm hA) hy
  | false =>
    simp only [ho] at hx hy
    exact hx.1.trans hy.1.symm

/-- A statistic that combines has one value. -/
theorem statOf_unique {validate : Multiset Row → Verdict} (V : Validates p c conforms rd validate)
    (hs : s ∈ c.validation.stats) (hc : s.combines = true) (hA : ∀ r ∈ A, conforms r) {x y : Json}
    (hx : StatOf p rd s A x) (hy : StatOf p rd s A y) : x = y := by
  unfold StatOf at hx hy
  cases hf : s.field with
  | rowCount =>
    simp only [hf] at hx hy
    rw [hx, hy]
  | assertionPassRate a =>
    simp only [hf] at hx hy
    rw [hx, hy]
  | column column stat =>
    simp only [hf] at hx hy
    cases stat with
    | nullCount | nullRate => exact hx.trans hy.symm
    | min => exact extremeOf_unique V hs hf (.inl rfl) hA (by decide) hx hy
    | max => exact extremeOf_unique V hs hf (.inr rfl) hA (by decide) hx hy
    | distinctCount => simp [Stat.combines, hf] at hc
  | other | writtenAt | contractHash => simp [Stat.combines, hf] at hc

theorem combines_of_combinedStat {rows : Int} {failures : Lookup String Int} {z : Json}
    (hz : combinedStat p a b rows failures s = some z) : s.combines = true := by
  unfold combinedStat at hz
  unfold Stat.combines
  cases hf : s.field with
  | column column stat => cases stat <;> simp_all
  | _ => simp_all

theorem extreme_isSome {column : String} {want : Ordering} {x y : Json}
    (ho : s.ty.ordered = true) (hx : ExtremeOf p rd s column want A x) (hy : ExtremeOf p rd s column want B y) :
    ∃ z, extreme p s.ty x y want = some z := by
  unfold ExtremeOf at hx hy
  simp only [ho, if_true] at hx hy
  rcases hx with ⟨_, rfl⟩ | ⟨hx0, _, k, hk, _⟩
  · exact ⟨y, extreme_null_left ..⟩
  rcases hy with ⟨_, rfl⟩ | ⟨hy0, _, l, hl, _⟩
  · exact ⟨x, extreme_null_right ..⟩
  refine ⟨if compare k l = want then x else y, ?_⟩
  simp [extreme, hx0, hy0, hk, hl]

/-- A statistic the fold keeps is known after an append when it was known before and of the rows written. -/
theorem combinedStat_isSome (ha : FactsOf p c rd A a) (hb : FactsOf p c rd B b) (hs : s ∈ c.validation.stats)
    (hk : s.kept = true) (hax : ∃ x, a.stats s.column = some x) (hbx : ∃ y, b.stats s.column = some y)
    (rows : Int) (failures : Lookup String Int) : ∃ z, combinedStat p a b rows failures s = some z := by
  obtain ⟨x, hx⟩ := hax
  obtain ⟨y, hy⟩ := hbx
  have hxa := ha.stats s hs x hx
  have hyb := hb.stats s hs y hy
  unfold StatOf at hxa hyb
  unfold combinedStat
  unfold Stat.kept at hk
  cases hf : s.field with
  | rowCount => exact ⟨_, rfl⟩
  | assertionPassRate => exact ⟨_, rfl⟩
  | column column stat =>
    simp only [hf] at hxa hyb hk ⊢
    cases stat with
    | nullCount => simp only [hx, hy, hxa, hyb]; exact ⟨_, rfl⟩
    | nullRate => simp only [hx, hy, hxa, hyb]; exact ⟨_, rfl⟩
    | min =>
      obtain ⟨z, hz⟩ := extreme_isSome hk hxa hyb
      exact ⟨z, by simp only [hx, hy]; exact hz⟩
    | max =>
      obtain ⟨z, hz⟩ := extreme_isSome hk hxa hyb
      exact ⟨z, by simp only [hx, hy]; exact hz⟩
    | distinctCount => cases hk
  | other | writtenAt | contractHash => simp [hf] at hk

end Stats

end Peql
