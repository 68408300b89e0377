import Peql.Error
import Peql.Lib.Effects
import Peql.Violation

/-!
# Rows split by the contract's row rules

`violation::split` works on columns: each batch has a flag column for every rule, a mask of the rows that pass is taken
from each, and the batch is filtered by all of them and by their complement. Row by row (`RecordBatch.rows`) that is one
partition: what passes, what breaks a rule with the rules it breaks, and how many rows break each (`split_spec`). What
Arrow itself checks of a batch (its columns' types and nulls) is left out.
-/

namespace Peql

/-! ## Rows and rules -/

/-- A row passes every enforced rule: its flags are true. -/
def passes (flags : List Flag) (r : Row) : Bool := (enforcedFlags flags).all fun f => (r.get f.column).isTrue

/-- The rows breaking each rule, where any does. -/
def splitCounts (flags : List Flag) (rows : List Row) : List (String × Nat) :=
  (enforcedFlags flags).filterMap fun f =>
    let n := rows.countP fun r => !(r.get f.column).isTrue
    if 0 < n then some (f.assertId, n) else none

/-- Rows counted under a rule, in the order of the rules. -/
def addCount (rule : String) (n : Nat) : List (String × Nat) → List (String × Nat)
  | [] => [(rule, n)]
  | (r, k) :: rest =>
    if r = rule then (r, k + n) :: rest
    else if rule < r then (rule, n) :: (r, k) :: rest
    else (r, k) :: addCount rule n rest

/-- What is counted under a rule. -/
def countOf (counts : List (String × Nat)) (rule : String) : Nat := (counts.lookup rule).getD 0

/-- The rules a row breaks, in the contract's order: a flag that is null is not true. -/
def brokenRules (flags : List Flag) (r : Row) : List String :=
  (flags.filter fun f => !(r.get f.column).isTrue).map Flag.assertId

/-- How often the rows break the rule: once for each row and each assert of that name it fails. -/
def breaks (flags : List Flag) (rows : List Row) (rule : String) : Nat :=
  ((flags.filter fun f => f.assertId = rule).map fun f => rows.countP fun r => !(r.get f.column).isTrue).sum

/-! ## Masks -/

/-- The cells a mask keeps. -/
def keep {α : Type} : List Bool → List α → List α
  | b :: bs, x :: xs => if b then x :: keep bs xs else keep bs xs
  | _, _ => []

/-- Keeping commutes with a map. -/
theorem keep_map {α β : Type} (f : α → β) (mask : List Bool) (xs : List α) :
    keep mask (xs.map f) = (keep mask xs).map f := by
  induction xs generalizing mask with
  | nil => cases mask <;> rfl
  | cons x xs ih =>
    cases mask with
    | nil => rfl
    | cons b bs =>
      cases b
      · exact ih bs
      · exact congrArg (f x :: ·) (ih bs)

/-- A mask computed from the cells filters them. -/
theorem keep_of_map {α : Type} (p : α → Bool) (xs : List α) : keep (xs.map p) xs = xs.filter p := by
  induction xs with
  | nil => rfl
  | cons x xs ih =>
    rw [List.map_cons, List.filter_cons, ← ih]
    cases p x <;> rfl

theorem map_filter_eq {α β : Type} (p : α → Bool) (f : α → β) (xs : List α) :
    (xs.filter p).map f = xs.filterMap fun x => if p x then some (f x) else none := by
  induction xs with
  | nil => rfl
  | cons x xs ih =>
    rw [List.filter_cons, List.filterMap_cons]
    cases p x
    · exact ih
    · exact congrArg (f x :: ·) ih

theorem zipWith_and_map {α : Type} (p q : α → Bool) (xs : List α) :
    List.zipWith and (xs.map p) (xs.map q) = xs.map fun x => p x && q x := by
  rw [List.zipWith_map, List.zipWith_self]

/-- Lists as long as one another keep as many. -/
theorem length_keep {α β : Type} (mask : List Bool) {xs : List α} {ys : List β} (h : xs.length = ys.length) :
    (keep mask xs).length = (keep mask ys).length := by
  induction xs generalizing mask ys with
  | nil =>
    obtain rfl := List.length_eq_zero_iff.1 h.symm
    cases mask <;> rfl
  | cons x xs ih =>
    cases ys with
    | nil => simp at h
    | cons y ys =>
      have hlen : xs.length = ys.length := by simpa using h
      cases mask with
      | nil => rfl
      | cons b bs =>
        cases b
        · exact ih bs hlen
        · exact congrArg (· + 1) (ih bs hlen)

/-- Cells, each looked up by its index. -/
theorem eq_map_range {α : Type} {xs : List α} {n : Nat} (h : xs.length = n) (d : α) :
    xs = (List.range n).map fun i => xs.getD i d := by
  apply List.ext_getElem
  · simp [h]
  · intro i hi _
    simp [List.getD_eq_getElem?_getD, List.getElem?_eq_getElem hi]

theorem mem_of_lookup {β : Type} {l : List (String × β)} {k : String} {v : β} (h : l.lookup k = some v) :
    (k, v) ∈ l := by
  obtain ⟨l₁, l₂, rfl, _⟩ := List.lookup_eq_some_iff.1 h
  simp

/-! ## Batches of columns -/

/-- A column's cells: bits, some of them null, or other values. -/
inductive ColumnArray
  | boolean (cells : List (Option Bool))
  | values (cells : List Value)

namespace ColumnArray

/-- The cells, as values. -/
def cells : ColumnArray → List Value
  | boolean bits => bits.map fun b => b.elim .null .bool
  | values cells => cells

/-- `filter`. -/
def filter (mask : List Bool) : ColumnArray → ColumnArray
  | boolean bits => boolean (keep mask bits)
  | values cells => values (keep mask cells)

/-- A filtered column has the cells kept. -/
theorem cells_filter (mask : List Bool) (a : ColumnArray) : (a.filter mask).cells = keep mask a.cells := by
  cases a with
  | boolean bits => exact (keep_map _ mask bits).symm
  | values cells => rfl

end ColumnArray

/-- Columns by name, each with a cell for every row. -/
structure RecordBatch where
  columns : List (String × ColumnArray)
  numRows : Nat
  aligned : ∀ c ∈ columns, c.2.cells.length = numRows

namespace RecordBatch

variable (b : RecordBatch)

/-- `column_by_name`. -/
def columnByName (name : String) : Option ColumnArray := b.columns.lookup name

/-- `filter_record_batch`. -/
def filter (mask : List Bool) : RecordBatch where
  columns := b.columns.map fun c => (c.1, c.2.filter mask)
  numRows := (keep mask (List.range b.numRows)).length
  aligned := by
    intro c hc
    obtain ⟨c', hc', rfl⟩ := List.mem_map.1 hc
    rw [ColumnArray.cells_filter]
    exact length_keep mask (by rw [b.aligned c' hc', List.length_range])

/-- The columns of a schema, each by its name. -/
def selectColumns : (schema : List ColumnDef) →
    Except PeqlError { columns : List (String × ColumnArray) // ∀ c ∈ columns, c.2.cells.length = b.numRows }
  | [] => .ok ⟨[], by simp⟩
  | d :: ds =>
    match h : b.columnByName d.name with
    | none => .error (.invalid s!"the written rows have no column `{d.name}`")
    | some a => do
      let rest ← selectColumns ds
      .ok ⟨(d.name, a) :: rest.1, by
        intro c hc
        rcases List.mem_cons.1 hc with rfl | hc
        · exact b.aligned _ (mem_of_lookup h)
        · exact rest.2 c hc⟩

/-- The rows that pass a rule; a flag is never null, and were one, the row would not pass. -/
def flagPass (f : Flag) : Except PeqlError (List Bool) :=
  match b.columnByName f.column with
  | none => .error (.invalid s!"the written rows have no flag `{f.column}`")
  | some (.values _) => .error (.invalid s!"the flag `{f.column}` is not boolean")
  | some (.boolean bits) => .ok (bits.map fun bit => bit.getD false)

/-! ### Row by row -/

def row (i : Nat) : Row := b.columns.map fun c => (c.1, c.2.cells.getD i .null)

def rows : List Row := (List.range b.numRows).map b.row

end RecordBatch

/-! ## The split -/

/-- Rows handed back: the row schema's columns of each, and the rules it broke. -/
abbrev SetAside := List (Row × List String)

structure Split where
  /-- The rows that break no rule, with every column they came with. -/
  passing : List RecordBatch
  passingRows : Nat
  breaking : Option SetAside
  /-- Rows breaking each rule; a row that breaks two rules is counted under both. -/
  counts : List (String × Nat)

/-- `VIOLATIONS_COLUMN`. -/
def violationsColumn : String := "_violations"

section Split

variable (flags : List Flag) (rowSchema : List ColumnDef)

/-- The list column of the rules each failing row breaks, row by row. -/
def reasons (masks : List (List Bool)) (failing : List Bool) : List (List String) :=
  (List.range failing.length).filterMap fun row =>
    if failing.getD row false then
      some (((flags.zip masks).filter fun p => !p.2.getD row false).map fun p => p.1.assertId)
    else none

/-- The failing rows of a batch, as they are handed back. -/
def setAside (b : RecordBatch) (masks : List (List Bool)) (failing : List Bool) : Except PeqlError SetAside := do
  let columns ← b.selectColumns rowSchema
  let rows := ((⟨columns.1, b.numRows, columns.2⟩ : RecordBatch).filter failing).rows
  let rules := reasons flags masks failing
  if rows.length = rules.length then .ok (rows.zip rules)
  else .error (.dataFusion "all columns in a record batch must have the same length")

/-- The rows of a batch breaking each rule, where any does. -/
def maskCounts (masks : List (List Bool)) : List (String × Nat) :=
  (flags.zip masks).filterMap fun p =>
    let failed := p.2.length - p.2.count true
    if 0 < failed then some (p.1.assertId, failed) else none

/-- One batch of `split`. -/
def splitBatch (out : Split) (b : RecordBatch) : Except PeqlError Split := do
  let masks ← flags.mapM b.flagPass
  let counts := (maskCounts flags masks).foldl (fun counts c => addCount c.1 c.2 counts) out.counts
  let all := masks.foldl (List.zipWith and) (List.replicate b.numRows true)
  let kept := b.filter all
  let out :=
    { out with passing := out.passing ++ [kept], passingRows := out.passingRows + kept.numRows, counts := counts }
  if all.count true = b.numRows then .ok out
  else do
    let aside ← setAside flags rowSchema b masks (all.map not)
    .ok { out with breaking := some (out.breaking.getD [] ++ aside) }

def splitBatches : List RecordBatch → Split → Except PeqlError Split
  | [], out => .ok out
  | b :: bs, out => do
    let out ← splitBatch flags rowSchema out b
    splitBatches bs out

/-- `split`, of rows that carry the flag column of every rule. -/
def split (batches : List RecordBatch) : Except PeqlError Split :=
  if rowSchema.any fun d => d.name = violationsColumn then
    .error (.invalid
      s!"the contract has a column `{violationsColumn}`, which names the rules a set-aside row broke")
  else splitBatches flags rowSchema batches ⟨[], 0, none, []⟩

end Split

/-! ## Row by row -/

/-- The columns of a row that the row schema has. -/
def asGiven (rowSchema : List ColumnDef) (r : Row) : Row := rowSchema.map fun d => (d.name, r.get d.name)

/-- A row passes every rule. -/
def passesAll (flags : List Flag) (r : Row) : Bool := flags.all fun f => (r.get f.column).isTrue

/-- Looking up in a mapped list. -/
theorem lookup_map_snd {β γ : Type} (f : β → γ) (l : List (String × β)) (k : String) :
    (l.map fun c => (c.1, f c.2)).lookup k = (l.lookup k).map f := by
  induction l with
  | nil => rfl
  | cons c l ih =>
    rw [List.map_cons, List.lookup_cons, List.lookup_cons]
    cases k == c.1
    · exact ih
    · rfl

namespace RecordBatch

variable {b : RecordBatch}

@[simp] theorem length_rows : b.rows.length = b.numRows := by
  simp [rows]

/-- A filtered batch has the rows kept. -/
theorem rows_filter (mask : List Bool) : (b.filter mask).rows = keep mask b.rows := by
  unfold rows
  rw [keep_map]
  apply List.ext_getElem
  · simp [filter]
  · intro i hi hi'
    have hi : i < (keep mask (List.range b.numRows)).length := by simpa using hi'
    simp only [List.getElem_map, List.getElem_range]
    -- Row `i` of what is kept is the row the mask keeps `i`-th.
    have hcell : ∀ c ∈ b.columns, (c.2.filter mask).cells.getD i .null =
        c.2.cells.getD (keep mask (List.range b.numRows))[i] .null := by
      intro c hc
      have hcells := eq_map_range (b.aligned c hc) Value.null
      calc (c.2.filter mask).cells.getD i .null
          = (keep mask ((List.range b.numRows).map fun i => c.2.cells.getD i .null)).getD i .null := by
            rw [ColumnArray.cells_filter, ← hcells]
        _ = c.2.cells.getD (keep mask (List.range b.numRows))[i] .null := by
            rw [keep_map, List.getD_eq_getElem?_getD, List.getElem?_map, List.getElem?_eq_getElem hi]
            rfl
    unfold row filter
    rw [List.map_map]
    exact List.map_congr_left fun c hc => Prod.ext rfl (hcell c hc)

/-- A row's value in a column is the column's cell. -/
theorem row_get (i : Nat) (name : String) :
    (b.row i).get name = ((b.columnByName name).map fun a => a.cells.getD i .null).getD .null := by
  unfold row Row.get columnByName
  rw [lookup_map_snd fun a : ColumnArray => a.cells.getD i .null]

/-- A flag's mask has, for each row, whether the row passes. -/
theorem flagPass_eq {f : Flag} {mask : List Bool} (h : b.flagPass f = .ok mask) :
    mask = b.rows.map fun r => (r.get f.column).isTrue := by
  unfold flagPass at h
  cases hcol : b.columnByName f.column with
  | none => simp [hcol] at h
  | some a =>
    cases a with
    | values cells => simp [hcol] at h
    | boolean bits =>
      simp only [hcol] at h
      obtain rfl := Except.ok.inj h
      have hlen : bits.length = b.numRows := by
        simpa [ColumnArray.cells] using b.aligned _ (mem_of_lookup hcol)
      unfold rows
      rw [List.map_map]
      apply List.ext_getElem
      · simp [hlen]
      · intro i hi _
        have hi : i < bits.length := by simpa using hi
        simp only [List.getElem_map, List.getElem_range, Function.comp_apply, row_get, hcol, Option.map_some,
          Option.getD_some, ColumnArray.cells, List.getD_eq_getElem?_getD, List.getElem?_map,
          List.getElem?_eq_getElem hi]
        cases bits[i] <;> rfl

/-- A row of the columns selected has their cells. -/
theorem selectColumns_map {schema : List ColumnDef}
    {columns : { columns : List (String × ColumnArray) // ∀ c ∈ columns, c.2.cells.length = b.numRows }}
    (h : b.selectColumns schema = .ok columns) (i : Nat) :
    (columns.1.map fun c => (c.1, c.2.cells.getD i .null)) = asGiven schema (b.row i) := by
  induction schema generalizing columns with
  | nil =>
    obtain rfl := Except.ok.inj h
    rfl
  | cons d ds ih =>
    unfold selectColumns at h
    split at h
    · cases h
    · next a hcol =>
      obtain ⟨rest, hrest, h⟩ := bind_eq_ok.1 h
      obtain rfl := Except.ok.inj h
      have htail := ih hrest
      simp only [List.map_cons, asGiven, row_get, hcol, Option.map_some, Option.getD_some] at htail ⊢
      rw [htail]

/-- The columns of the row schema alone. -/
theorem rows_selectColumns {schema : List ColumnDef}
    {columns : { columns : List (String × ColumnArray) // ∀ c ∈ columns, c.2.cells.length = b.numRows }}
    (h : b.selectColumns schema = .ok columns) :
    (⟨columns.1, b.numRows, columns.2⟩ : RecordBatch).rows = b.rows.map (asGiven schema) := by
  unfold rows
  rw [List.map_map]
  exact List.map_congr_left fun i _ => selectColumns_map h i

end RecordBatch

/-! ## Counts -/

/-- Counts in the order of their rules, each rule once. -/
def Ordered (counts : List (String × Nat)) : Prop := (counts.map Prod.fst).Pairwise (· < ·)

/-- Behind the rules listed there is no count. -/
theorem countOf_of_lt {counts : List (String × Nat)} {rule : String} (h : ∀ c ∈ counts, rule < c.1) :
    countOf counts rule = 0 := by
  have hnone : counts.lookup rule = none := by
    rw [List.lookup_eq_none_iff]
    intro c hc
    simpa using (h c hc).ne
  simp [countOf, hnone]

theorem countOf_cons (s : String) (k : Nat) (counts : List (String × Nat)) (r : String) :
    countOf ((s, k) :: counts) r = if r = s then k else countOf counts r := by
  unfold countOf
  rw [List.lookup_cons]
  by_cases hr : r = s
  · simp [hr]
  · rw [if_neg hr, beq_eq_false_iff_ne.2 hr]

/-- A count added lists its rule and no other new one. -/
theorem mem_addCount {rule : String} {n : Nat} {counts : List (String × Nat)} {r : String}
    (h : r ∈ (addCount rule n counts).map Prod.fst) : r = rule ∨ r ∈ counts.map Prod.fst := by
  induction counts with
  | nil => simpa [addCount] using h
  | cons c counts ih =>
    obtain ⟨s, k⟩ := c
    unfold addCount at h
    split at h
    · exact .inr (by simpa using h)
    · split at h
      · simpa using h
      · rcases List.mem_cons.1 h with rfl | h
        · simp
        · rcases ih h with rfl | h
          · exact .inl rfl
          · exact .inr (List.mem_cons_of_mem _ h)

/-- Counts stay ordered when one is added. -/
theorem Ordered.addCount {counts : List (String × Nat)} (h : Ordered counts) (rule : String) (n : Nat) :
    Ordered (addCount rule n counts) := by
  induction counts with
  | nil => exact List.pairwise_singleton _ _
  | cons c counts ih =>
    obtain ⟨s, k⟩ := c
    obtain ⟨hlt, htail⟩ := List.pairwise_cons.1 h
    unfold Peql.addCount
    split
    · exact h
    · next hne =>
      split
      · next hrule =>
        refine List.pairwise_cons.2 ⟨fun r hr => ?_, h⟩
        rcases List.mem_cons.1 hr with rfl | hr
        · exact hrule
        · exact hrule.trans (hlt r hr)
      · next hge =>
        refine List.pairwise_cons.2 ⟨fun r hr => ?_, ih htail⟩
        rcases mem_addCount hr with rfl | hr
        · exact lt_of_le_of_ne (not_lt.1 hge) hne
        · exact hlt r hr

/-- It adds to its own rule. -/
theorem countOf_addCount {counts : List (String × Nat)} (h : Ordered counts) (rule : String) (n : Nat) (r : String) :
    countOf (addCount rule n counts) r = countOf counts r + if r = rule then n else 0 := by
  induction counts with
  | nil =>
    unfold addCount
    rw [countOf_cons]
    simp [countOf]
  | cons c counts ih =>
    obtain ⟨s, k⟩ := c
    obtain ⟨hlt, htail⟩ := List.pairwise_cons.1 h
    unfold addCount
    split
    · next heq =>
      subst heq
      rw [countOf_cons, countOf_cons]
      split <;> simp
    · next hne =>
      split
      · next hrule =>
        -- The rule is before all there are, so it was not counted.
        have hzero : countOf ((s, k) :: counts) rule = 0 := countOf_of_lt fun c hc => by
          rcases List.mem_cons.1 hc with rfl | hc
          · exact hrule
          · exact hrule.trans (hlt c.1 (List.mem_map_of_mem hc))
        rw [countOf_cons]
        by_cases hr : r = rule
        · subst hr
          simp [hzero]
        · simp [hr]
      · rw [countOf_cons, countOf_cons, ih htail]
        by_cases hr : r = s
        · have hne' : ¬r = rule := fun heq => hne (hr.symm.trans heq)
          simp only [if_pos hr, if_neg hne', Nat.add_zero]
        · simp only [if_neg hr]

/-- Counts added one after another. -/
theorem countOf_addCounts {counts : List (String × Nat)} (h : Ordered counts) (more : List (String × Nat))
    (r : String) :
    Ordered (more.foldl (fun counts c => addCount c.1 c.2 counts) counts) ∧
      countOf (more.foldl (fun counts c => addCount c.1 c.2 counts) counts) r =
        countOf counts r + ((more.filter fun c => r = c.1).map Prod.snd).sum := by
  induction more generalizing counts with
  | nil => exact ⟨h, rfl⟩
  | cons c more ih =>
    obtain ⟨hordered, hcount⟩ := ih (h.addCount c.1 c.2)
    refine ⟨hordered, ?_⟩
    rw [List.foldl_cons, hcount, countOf_addCount h, List.filter_cons]
    by_cases hr : r = c.1
    · simp only [hr, if_true, decide_true, List.map_cons, List.sum_cons]
      omega
    · simp [hr]

/-- Ordered counts have one count for each rule. -/
theorem Ordered.sum_eq {counts : List (String × Nat)} (h : Ordered counts) (r : String) :
    ((counts.filter fun c => r = c.1).map Prod.snd).sum = countOf counts r := by
  induction counts with
  | nil => simp [countOf]
  | cons c counts ih =>
    obtain ⟨s, k⟩ := c
    obtain ⟨hlt, htail⟩ := List.pairwise_cons.1 h
    rw [List.filter_cons, countOf_cons]
    by_cases hr : r = s
    · subst hr
      have hzero : countOf counts r = 0 := countOf_of_lt fun c hc => hlt c.1 (List.mem_map_of_mem hc)
      simp only [decide_true, if_true, List.map_cons, List.sum_cons]
      have hrest := ih htail
      omega
    · simpa [hr] using ih htail

/-- One part's counts added to those of the others. -/
theorem countOf_merged {counts more : List (String × Nat)} (h : Ordered counts) (hm : Ordered more) (r : String) :
    countOf (more.foldl (fun counts c => addCount c.1 c.2 counts) counts) r = countOf counts r + countOf more r := by
  rw [(countOf_addCounts h more r).2, hm.sum_eq]

/-- Rows break a rule in two lists together as often as in each. -/
theorem breaks_append (flags : List Flag) (xs ys : List Row) (rule : String) :
    breaks flags (xs ++ ys) rule = breaks flags xs rule + breaks flags ys rule := by
  unfold breaks
  induction flags.filter fun f => f.assertId = rule with
  | nil => rfl
  | cons f fs ih =>
    simp only [List.map_cons, List.sum_cons, List.countP_append] at ih ⊢
    omega

/-- A batch's counts are of its rows that break each rule. -/
theorem splitCounts_sum (flags : List Flag) (rows : List Row) (rule : String) :
    (((flags.filterMap fun f =>
        let n := rows.countP fun r => !(r.get f.column).isTrue
        if 0 < n then some (f.assertId, n) else none).filter fun c => rule = c.1).map Prod.snd).sum =
      breaks flags rows rule := by
  unfold breaks
  induction flags with
  | nil => rfl
  | cons f flags ih =>
    rw [List.filterMap_cons, List.filter_cons]
    by_cases hn : 0 < rows.countP fun r => !(r.get f.column).isTrue
    · by_cases hr : f.assertId = rule
      · subst hr
        simpa [hn] using ih
      · have hr' : ¬rule = f.assertId := fun h => hr h.symm
        simpa [hn, hr, hr'] using ih
    · have hzero : (rows.countP fun r => !(r.get f.column).isTrue) = 0 := by omega
      by_cases hr : f.assertId = rule
      · subst hr
        simpa [hzero] using ih
      · simpa [hzero, hr] using ih

/-! ## The split, row by row -/

section Rows

variable {flags : List Flag} {rowSchema : List ColumnDef} {b : RecordBatch} {masks : List (List Bool)}

/-- The masks are whether each row passes each rule. -/
theorem masks_eq (h : flags.mapM b.flagPass = .ok masks) :
    masks = flags.map fun f => b.rows.map fun r => (r.get f.column).isTrue := by
  have hall := Effects.mapM_eq_ok.1 h
  clear h
  induction hall with
  | nil => rfl
  | cons hf _ ih => rw [List.map_cons, RecordBatch.flagPass_eq hf, ih]

/-- The masks together keep the rows that pass every rule. -/
theorem all_eq (rows : List Row) (p : Row → Bool) :
    (flags.map fun f => rows.map fun r => (r.get f.column).isTrue).foldl (List.zipWith and) (rows.map p) =
      rows.map fun r => p r && passesAll flags r := by
  induction flags generalizing p with
  | nil => simp [passesAll]
  | cons f flags ih =>
    rw [List.map_cons, List.foldl_cons, zipWith_and_map, ih]
    simp [passesAll, Bool.and_assoc]

theorem count_map_true (p : Row → Bool) (rows : List Row) : (rows.map p).count true = rows.countP p := by
  simp [List.count, List.countP_map, Function.comp_def]

/-- The reasons are the rules broken, row by row. -/
theorem reasons_eq (rows : List Row) :
    reasons flags (flags.map fun f => rows.map fun r => (r.get f.column).isTrue)
      (rows.map fun r => !passesAll flags r) =
      (rows.filter fun r => !passesAll flags r).map (brokenRules flags) := by
  have hrows : rows = (List.range rows.length).map fun i => rows.getD i [] := eq_map_range rfl []
  unfold reasons
  rw [← List.map_prod_left_eq_zip, List.length_map]
  conv_rhs => rw [hrows]
  rw [map_filter_eq, List.filterMap_map]
  apply List.filterMap_congr
  intro i hi
  have hi : i < rows.length := List.mem_range.1 hi
  have hcell : ∀ p : Row → Bool, (rows.map p).getD i false = p rows[i] := by
    intro p
    simp [List.getD_eq_getElem?_getD, List.getElem?_eq_getElem hi]
  have hrow : rows.getD i [] = rows[i] := by
    simp [List.getD_eq_getElem?_getD, List.getElem?_eq_getElem hi]
  simp only [hcell fun r => !passesAll flags r, Function.comp_apply, hrow]
  by_cases hp : passesAll flags rows[i] = true
  · simp [hp]
  · simp [hp, brokenRules, List.filter_map, Function.comp_def, List.getElem?_eq_getElem hi]

/-- The counts are of the rows that do not pass. -/
theorem maskCounts_eq (rows : List Row) :
    maskCounts flags (flags.map fun f => rows.map fun r => (r.get f.column).isTrue) =
      flags.filterMap fun f =>
        let n := rows.countP fun r => !(r.get f.column).isTrue
        if 0 < n then some (f.assertId, n) else none := by
  unfold maskCounts
  rw [← List.map_prod_left_eq_zip, List.filterMap_map]
  apply List.filterMap_congr
  intro f _
  have hlen := List.length_eq_countP_add_countP (fun r : Row => (r.get f.column).isTrue) (l := rows)
  have hfailed : rows.length - rows.countP (fun r => (r.get f.column).isTrue) =
      rows.countP fun r => !(r.get f.column).isTrue := by
    have hnot : (rows.countP fun r => decide ¬(r.get f.column).isTrue = true) =
        rows.countP fun r => !(r.get f.column).isTrue := List.countP_congr fun r _ => by simp
    omega
  simp only [Function.comp_apply, List.length_map, count_map_true, hfailed]

/-- The failing rows of a batch are handed back with the columns they were given and the rules they break. -/
theorem setAside_eq {aside : SetAside} (hmasks : flags.mapM b.flagPass = .ok masks)
    (h : setAside flags rowSchema b masks (b.rows.map fun r => !passesAll flags r) = .ok aside) :
    aside = (b.rows.filter fun r => !passesAll flags r).map fun r => (asGiven rowSchema r, brokenRules flags r) := by
  unfold setAside at h
  obtain ⟨columns, hcolumns, h⟩ := bind_eq_ok.1 h
  rw [RecordBatch.rows_filter, RecordBatch.rows_selectColumns hcolumns, masks_eq hmasks, reasons_eq, keep_map,
    keep_of_map] at h
  simp only [List.length_map, if_true] at h
  rw [← Except.ok.inj h, List.zip_map']

end Rows

/-- What the split has made of the rows it was given so far. -/
structure Split.Of (flags : List Flag) (rowSchema : List ColumnDef) (out : Split) (rows : List Row) : Prop where
  passing : out.passing.flatMap RecordBatch.rows = rows.filter (passesAll flags)
  passingRows : out.passingRows = rows.countP (passesAll flags)
  breaking : out.breaking.getD [] =
    (rows.filter fun r => !passesAll flags r).map fun r => (asGiven rowSchema r, brokenRules flags r)
  ordered : Ordered out.counts
  counts : ∀ rule, countOf out.counts rule = breaks flags rows rule

section Split

variable {flags : List Flag} {rowSchema : List ColumnDef} {out out' : Split} {rows : List Row}

/-- One batch more. -/
theorem splitBatch_spec {b : RecordBatch} (h : splitBatch flags rowSchema out b = .ok out')
    (hout : out.Of flags rowSchema rows) : out'.Of flags rowSchema (rows ++ b.rows) := by
  unfold splitBatch at h
  obtain ⟨masks, hmasks, h⟩ := bind_eq_ok.1 h
  have hall : masks.foldl (List.zipWith and) (List.replicate b.numRows true) = b.rows.map (passesAll flags) := by
    have htrue : List.replicate b.numRows true = b.rows.map fun _ => true := by
      rw [List.map_const', RecordBatch.length_rows]
    rw [masks_eq hmasks, htrue, all_eq]
    simp
  have hkept : (b.filter (b.rows.map (passesAll flags))).rows = b.rows.filter (passesAll flags) := by
    rw [RecordBatch.rows_filter, keep_of_map]
  have hcounts := fun rule => countOf_addCounts hout.ordered (maskCounts flags masks) rule
  have hpassing : (out.passing ++ [b.filter (b.rows.map (passesAll flags))]).flatMap RecordBatch.rows =
      (rows ++ b.rows).filter (passesAll flags) := by
    simp [hout.passing, hkept]
  have hpassingRows : out.passingRows + (b.filter (b.rows.map (passesAll flags))).numRows =
      (rows ++ b.rows).countP (passesAll flags) := by
    rw [← RecordBatch.length_rows, hkept, hout.passingRows, List.countP_append, ← List.countP_eq_length_filter]
  have hbreaks : ∀ rule,
      countOf ((maskCounts flags masks).foldl (fun counts c => addCount c.1 c.2 counts) out.counts) rule =
        breaks flags (rows ++ b.rows) rule := by
    intro rule
    rw [(hcounts rule).2, hout.counts, masks_eq hmasks, maskCounts_eq, splitCounts_sum, breaks_append]
  simp only [hall, count_map_true] at h
  split at h
  · next hpass =>
    -- No row of the batch fails, so none is set aside.
    have hnone : b.rows.filter (fun r => !passesAll flags r) = [] := by
      rw [List.filter_eq_nil_iff]
      intro r hr
      rw [← RecordBatch.length_rows] at hpass
      simpa using List.countP_eq_length.1 hpass r hr
    obtain rfl := Except.ok.inj h
    refine ⟨hpassing, hpassingRows, ?_, (hcounts "").1, hbreaks⟩
    rw [List.filter_append, hnone, List.append_nil]
    exact hout.breaking
  · obtain ⟨aside, haside, h⟩ := bind_eq_ok.1 h
    rw [List.map_map] at haside
    obtain rfl := Except.ok.inj h
    refine ⟨hpassing, hpassingRows, ?_, (hcounts "").1, hbreaks⟩
    rw [List.filter_append, List.map_append, ← hout.breaking, ← setAside_eq hmasks haside]
    rfl

/-- Batches are split one after another. -/
theorem splitBatches_spec {batches : List RecordBatch} (h : splitBatches flags rowSchema batches out = .ok out')
    (hout : out.Of flags rowSchema rows) : out'.Of flags rowSchema (rows ++ batches.flatMap RecordBatch.rows) := by
  induction batches generalizing out rows with
  | nil =>
    obtain rfl := Except.ok.inj h
    simpa using hout
  | cons b bs ih =>
    obtain ⟨mid, hmid, h⟩ := bind_eq_ok.1 h
    simpa using ih h (splitBatch_spec hmid hout)

/-- `split` divides the rows by whether they pass every rule, says of each that fails which rules it breaks, and
counts the rows breaking each. -/
theorem split_spec {batches : List RecordBatch} (h : split flags rowSchema batches = .ok out) :
    out.Of flags rowSchema (batches.flatMap RecordBatch.rows) := by
  unfold split at h
  split at h
  · cases h
  · have hempty : Split.Of flags rowSchema ⟨[], 0, none, []⟩ [] :=
      ⟨rfl, rfl, rfl, List.Pairwise.nil, fun rule => by simp [countOf, breaks]⟩
    exact splitBatches_spec h hempty

end Split

end Peql
