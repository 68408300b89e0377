import Peql.Facts.Combine
import Peql.Publish.Upload

/-!
# What a file's footer says of its rows

A Parquet file is divided into row groups, and its footer keeps statistics of each column of each group. A file's entry
in a manifest is made from them (`entry_from_footer`). However the rows are divided, the entry counts the file's rows,
and the nulls of each column of which every group counts them; a flag's status is that of the file's rows wherever the
groups have the column's least and greatest value (`entryFromFooter_tells`). So the nulls a manifest adds up from
entries made of footers (`FileEntry.OfFooter`) are those of its files' rows (`tableStats_of_footers`).
-/

namespace Peql

/-- Statistics of a column's values in one row group. -/
inductive ColumnStatistics
  | boolean (min max : Option Bool) (nulls : Option Nat)
  | other (nulls : Option Nat)

def ColumnStatistics.nullCount : ColumnStatistics → Option Nat
  | .boolean _ _ nulls => nulls
  | .other nulls => nulls

/-- A row group: for each leaf of the schema its statistics, if it has any. -/
structure RowGroup where
  statistics : List (Option ColumnStatistics)

def RowGroup.stat (g : RowGroup) (i : Nat) : Option ColumnStatistics := g.statistics[i]?.join

/-- A leaf of the schema, by its path: a column at the top has a path of one part. -/
structure Leaf where
  path : List String

def Leaf.name (l : Leaf) : String := l.path.getLastD ""

/-- A column at the top. -/
def Leaf.top (c : String) : Leaf := ⟨[c]⟩

/-- A file's footer. -/
structure ParquetMetaData where
  columns : List Leaf
  rowGroups : List RowGroup
  numRows : Int
  keyValues : Option (List (String × Option String))

/-- `CONTRACT_HASH_KEY`. -/
def contractHashKey : String := "parcel.contract_hash"

namespace ParquetMetaData

variable (md : ParquetMetaData)

def contractHash : String :=
  (((md.keyValues.bind fun kv => kv.find? fun k => k.1 = contractHashKey).bind fun k => k.2)).getD ""

/-- Whether a group has, or may have, a true value, and a false one. -/
def seen (s : Option ColumnStatistics) : Bool × Bool :=
  match s with
  | some (.boolean min max _) => (max == some true, min == some false)
  | _ => (true, true)

def anySeen (i : Nat) : Bool × Bool :=
  md.rowGroups.foldl (fun any (g : RowGroup) => (any.1 || (seen (g.stat i)).1, any.2 || (seen (g.stat i)).2))
    (false, false)

def flagStatus (i : Nat) : FlagStatus :=
  match md.anySeen i with
  | (true, false) => .allPass
  | (false, true) => .allFail
  | _ => .mixed

/-- The leaf a flag's status is taken of: the first of its name. -/
def leafOf (flag : String) : Option Nat := md.columns.findIdx? fun l => l.name = flag

/-- Nulls of a column over every row group, when every group counts them. -/
def nulls (i : Nat) : Option Nat :=
  (md.rowGroups.mapM fun g : RowGroup => (g.stat i).bind ColumnStatistics.nullCount).map List.sum

def nameAt (i : Nat) : String := (md.columns[i]?.map Leaf.name).getD ""

/-- Whether a leaf is a column at the top. -/
def isTop (i : Nat) : Bool := (md.columns[i]?.map fun l => l.path.length == 1).getD false

def nullCounts : Lookup String Int :=
  Lookup.fill md.nameAt (fun i => if md.isTop i then (md.nulls i).map Int.ofNat else none)
    (List.range md.columns.length) Lookup.empty

/-- What `entry_from_footer` reads of a file. -/
def file (bytes : Nat) (sha256 : String) : ParquetFile where
  rows := md.numRows
  bytes := bytes
  contractHash := md.contractHash
  flags flag := (md.leafOf flag).map md.flagStatus
  nullCounts := md.nullCounts
  sha256 := sha256

end ParquetMetaData

/-! ## Footers that tell the truth -/

/-- The least of the values that are not null, and the greatest. -/
def leastBool (cells : List Value) : Option Bool :=
  if .bool false ∈ cells then some false else if .bool true ∈ cells then some true else none

def greatestBool (cells : List Value) : Option Bool :=
  if .bool true ∈ cells then some true else if .bool false ∈ cells then some false else none

/-- The column `c` at the top is the leaf `i`. -/
def ParquetMetaData.IsColumn (md : ParquetMetaData) (i : Nat) (c : String) : Prop := md.columns[i]? = some (Leaf.top c)

/-- A footer of rows divided into groups: no two columns at the top have one name, and where a group counts a column's
nulls it has as many. Of columns within others nothing is read but their names. -/
structure ParquetMetaData.Describes (md : ParquetMetaData) (groups : List (List Row)) : Prop where
  numRows : md.numRows = groups.flatten.length
  distinct : ∀ i j c, md.IsColumn i c → md.IsColumn j c → i = j
  nulls : List.Forall₂ (fun (g : RowGroup) rows => ∀ i c, md.IsColumn i c →
    ∀ n, (g.stat i).bind ColumnStatistics.nullCount = some n → n = rows.countP fun r => r.get c = .null)
    md.rowGroups groups

/-- Boolean statistics tell of a group's cells: an extreme they have is the cells'. -/
def ColumnStatistics.TellsOf (s : ColumnStatistics) (cells : List Value) : Prop :=
  match s with
  | .boolean min max _ =>
    (∀ b, min = some b → leastBool cells = some b) ∧ ∀ b, max = some b → greatestBool cells = some b
  | .other _ => True

/-- So do those of every group. -/
def ParquetMetaData.TellsExtremes (md : ParquetMetaData) (groups : List (List Row)) : Prop :=
  List.Forall₂ (fun (g : RowGroup) rows => ∀ i c, md.IsColumn i c →
    ∀ s, g.stat i = some s → s.TellsOf (rows.map fun r => r.get c)) md.rowGroups groups

section Groups

variable {md : ParquetMetaData} {groups : List (List Row)} {i : Nat} {c : String}

/-- A value is seen when some group shows it. -/
theorem ParquetMetaData.anySeen_eq (md : ParquetMetaData) (i : Nat) : md.anySeen i =
    (md.rowGroups.any fun g => (ParquetMetaData.seen (g.stat i)).1,
      md.rowGroups.any fun g => (ParquetMetaData.seen (g.stat i)).2) := by
  have hfold : ∀ (gs : List RowGroup) (any : Bool × Bool),
      gs.foldl (fun any g => (any.1 || (ParquetMetaData.seen (g.stat i)).1,
        any.2 || (ParquetMetaData.seen (g.stat i)).2)) any =
      (any.1 || gs.any fun g => (ParquetMetaData.seen (g.stat i)).1,
        any.2 || gs.any fun g => (ParquetMetaData.seen (g.stat i)).2) := by
    intro gs
    induction gs with
    | nil => simp
    | cons g gs ih =>
      intro any
      rw [List.foldl_cons, ih]
      simp [Bool.or_assoc]
  unfold ParquetMetaData.anySeen
  rw [hfold]
  simp

/-- The greatest cell is true when one is. -/
theorem greatest_eq_true {cells : List Value} : greatestBool cells = some true ↔ .bool true ∈ cells := by
  unfold greatestBool
  split
  · simp_all
  · split <;> simp_all

/-- The least is false when one is. -/
theorem least_eq_false {cells : List Value} : leastBool cells = some false ↔ .bool false ∈ cells := by
  unfold leastBool
  split
  · simp_all
  · split <;> simp_all

/-- A group's statistics of a column are Boolean ones. -/
def RowGroup.HasBooleans (g : RowGroup) (i : Nat) : Prop := ∃ min max n, g.stat i = some (.boolean min max n)

/-- They have the greatest value, by which a `true` is seen, or the least, by which a `false` is. -/
def RowGroup.Keeps (g : RowGroup) (i : Nat) : Bool → Prop
  | true => ∃ min b n, g.stat i = some (.boolean min (some b) n)
  | false => ∃ b max n, g.stat i = some (.boolean (some b) max n)

/-- Every group's statistics of a column are Boolean ones. -/
def ParquetMetaData.BooleansThroughout (md : ParquetMetaData) (i : Nat) : Prop := ∀ g ∈ md.rowGroups, g.HasBooleans i

/-- Every group keeps the least and the greatest of a column. -/
def ParquetMetaData.KeptThroughout (md : ParquetMetaData) (i : Nat) : Prop :=
  ∀ g ∈ md.rowGroups, ∃ min max n, g.stat i = some (.boolean (some min) (some max) n)

/-- A row with the value is in a group that keeps the extreme by which it is seen. -/
def ParquetMetaData.Sees (md : ParquetMetaData) (groups : List (List Row)) (i : Nat) (c : String) (b : Bool) : Prop :=
  ∃ p ∈ md.rowGroups.zip groups, p.1.Keeps i b ∧ ∃ r ∈ p.2, r.get c = .bool b

/-- Every group counts the nulls of a column. -/
def ParquetMetaData.CountedThroughout (md : ParquetMetaData) (i : Nat) : Prop :=
  ∀ g ∈ md.rowGroups, (g.stat i).bind ColumnStatistics.nullCount ≠ none

/-- A group without Boolean statistics may have either value. -/
theorem ParquetMetaData.seen_of_not {g : RowGroup} (h : ¬ g.HasBooleans i) :
    ParquetMetaData.seen (g.stat i) = (true, true) := by
  cases hs : g.stat i with
  | none => rfl
  | some s =>
    cases s with
    | boolean min max n => exact absurd ⟨min, max, n, hs⟩ h
    | other n => rfl

/-- Whether a value is seen in a group, of the two. -/
def ParquetMetaData.seenOf (s : Option ColumnStatistics) (b : Bool) : Bool := if b then (seen s).1 else (seen s).2

/-- A value is seen in a group when its statistics are no Boolean ones, or have the extreme and some row has the
value. -/
theorem ParquetMetaData.seenOf_group {g : RowGroup} {rows : List Row}
    (h : ∀ s, g.stat i = some s → s.TellsOf (rows.map fun r => r.get c)) (b : Bool) :
    seenOf (g.stat i) b = true ↔ (g.Keeps i b ∧ ∃ r ∈ rows, r.get c = .bool b) ∨ ¬ g.HasBooleans i := by
  by_cases hk : g.HasBooleans i
  · obtain ⟨min, max, n, hs⟩ := hk
    obtain ⟨hmin, hmax⟩ := h _ hs
    have hkeeps : g.HasBooleans i := ⟨min, max, n, hs⟩
    have hmem : ∀ b, .bool b ∈ rows.map (fun r => r.get c) ↔ ∃ r ∈ rows, r.get c = .bool b := fun b => List.mem_map
    rw [← hmem]
    simp only [hkeeps, not_true, or_false]
    cases b with
    | true =>
      have hseen : seenOf (g.stat i) true = true ↔ max = some true := by simp [seenOf, seen, hs]
      rw [hseen]
      constructor
      · rintro rfl
        exact ⟨⟨min, true, n, hs⟩, greatest_eq_true.1 (hmax true rfl)⟩
      · rintro ⟨⟨min', b, n', hs'⟩, hrow⟩
        obtain ⟨rfl, rfl, rfl⟩ := ColumnStatistics.boolean.inj (Option.some.inj (hs.symm.trans hs'))
        exact (hmax b rfl).symm.trans (greatest_eq_true.2 hrow)
    | false =>
      have hseen : seenOf (g.stat i) false = true ↔ min = some false := by simp [seenOf, seen, hs]
      rw [hseen]
      constructor
      · rintro rfl
        exact ⟨⟨false, max, n, hs⟩, least_eq_false.1 (hmin false rfl)⟩
      · rintro ⟨⟨b, max', n', hs'⟩, hrow⟩
        obtain ⟨rfl, rfl, rfl⟩ := ColumnStatistics.boolean.inj (Option.some.inj (hs.symm.trans hs'))
        exact (hmin b rfl).symm.trans (least_eq_false.2 hrow)
  · unfold seenOf
    rw [seen_of_not hk]
    cases b <;> simp [hk]

/-- Some group has what `f` looks for, by groups. -/
theorem any_groups {gs : List RowGroup} {Q : RowGroup → List Row → Prop} {K : RowGroup → Prop} {f : RowGroup → Bool}
    (h : List.Forall₂ (fun g rows => f g = true ↔ Q g rows ∨ ¬ K g) gs groups) :
    gs.any f = true ↔ (∃ p ∈ gs.zip groups, Q p.1 p.2) ∨ ∃ g ∈ gs, ¬ K g := by
  induction h with
  | nil => simp
  | @cons g rows gs groups hg _ ih =>
    rw [List.any_cons, Bool.or_eq_true, hg, ih, List.zip_cons_cons]
    simp only [List.exists_mem_cons_iff]
    exact or_or_or_comm

namespace ParquetMetaData

variable (h : md.TellsExtremes groups) (hi : md.IsColumn i c)

include h hi

/-- A value is seen when a group that keeps its extreme has it, or a group has no Boolean statistics. -/
theorem anySeen_iff (b : Bool) : (if b then (md.anySeen i).1 else (md.anySeen i).2) = true ↔
    md.Sees groups i c b ∨ ¬ md.BooleansThroughout i := by
  have hany : (if b then (md.anySeen i).1 else (md.anySeen i).2) =
      md.rowGroups.any fun g => seenOf (g.stat i) b := by
    rw [anySeen_eq]
    cases b <;> rfl
  have hgroups : List.Forall₂ (fun (g : RowGroup) rows => seenOf (g.stat i) b = true ↔
      (g.Keeps i b ∧ ∃ r ∈ rows, r.get c = .bool b) ∨ ¬ g.HasBooleans i) md.rowGroups groups :=
    h.imp fun _ _ hg => seenOf_group (hg i c hi) b
  rw [hany, any_groups (f := fun g => seenOf (g.stat i) b) hgroups]
  simp [Sees, BooleansThroughout]

/-- When a flag's status says that all rows pass. -/
theorem flagStatus_allPass : md.flagStatus i = .allPass ↔
    md.BooleansThroughout i ∧ md.Sees groups i c true ∧ ¬ md.Sees groups i c false := by
  have hstatus : md.flagStatus i = .allPass ↔ (md.anySeen i).1 = true ∧ ¬ (md.anySeen i).2 = true := by
    unfold flagStatus
    rcases md.anySeen i with ⟨_ | _, _ | _⟩ <;> simp
  have htrue := anySeen_iff h hi true
  have hfalse := anySeen_iff h hi false
  simp only [if_true, Bool.false_eq_true, if_false] at htrue hfalse
  rw [hstatus, htrue, hfalse]
  tauto

/-- When it says that none does. -/
theorem flagStatus_allFail : md.flagStatus i = .allFail ↔
    md.BooleansThroughout i ∧ md.Sees groups i c false ∧ ¬ md.Sees groups i c true := by
  have hstatus : md.flagStatus i = .allFail ↔ (md.anySeen i).2 = true ∧ ¬ (md.anySeen i).1 = true := by
    unfold flagStatus
    rcases md.anySeen i with ⟨_ | _, _ | _⟩ <;> simp
  have htrue := anySeen_iff h hi true
  have hfalse := anySeen_iff h hi false
  simp only [if_true, Bool.false_eq_true, if_false] at htrue hfalse
  rw [hstatus, htrue, hfalse]
  tauto

omit hi in
/-- Where every group keeps both extremes, every row is seen. -/
theorem sees_iff (hkept : md.KeptThroughout i) (b : Bool) :
    md.Sees groups i c b ↔ ∃ r ∈ groups.flatten, r.get c = .bool b := by
  unfold Sees
  constructor
  · rintro ⟨p, hp, _, r, hr, hb⟩
    exact ⟨r, List.mem_flatten.2 ⟨p.2, (List.of_mem_zip hp).2, hr⟩, hb⟩
  · rintro ⟨r, hr, hb⟩
    obtain ⟨rows, hrows, hr⟩ := List.mem_flatten.1 hr
    obtain ⟨k, hk, rfl⟩ := List.getElem_of_mem hrows
    have hlength := List.Forall₂.length_eq h
    have hkg : k < md.rowGroups.length := hlength ▸ hk
    have hmem : (md.rowGroups[k], groups[k]) ∈ md.rowGroups.zip groups := by
      rw [← List.getElem_zip (h := by simpa using ⟨hkg, hk⟩)]
      exact List.getElem_mem _
    obtain ⟨min, max, n, hs⟩ := hkept _ (List.getElem_mem hkg)
    refine ⟨_, hmem, ?_, r, hr, hb⟩
    cases b with
    | true => exact ⟨some min, max, n, hs⟩
    | false => exact ⟨min, some max, n, hs⟩

/-- There the status of a flag that is true or false in every row is that of the rows. -/
theorem flagStatus_of_rows (hkept : md.KeptThroughout i) (hbool : ∀ r ∈ groups.flatten, ∃ b, r.get c = .bool b)
    (hne : groups.flatten ≠ []) :
    (md.flagStatus i = .allPass ↔ ∀ r ∈ groups.flatten, (r.get c).isTrue = true) ∧
      (md.flagStatus i = .allFail ↔ ∀ r ∈ groups.flatten, (r.get c).isTrue = false) := by
  have hthroughout : md.BooleansThroughout i := by
    intro g hg
    obtain ⟨min, max, n, hs⟩ := hkept g hg
    exact ⟨some min, some max, n, hs⟩
  have htrue : ∀ r ∈ groups.flatten, (r.get c).isTrue = true ↔ r.get c = .bool true := by
    intro r hr
    obtain ⟨b, hb⟩ := hbool r hr
    cases b <;> simp [hb, Value.isTrue]
  have hfalse : ∀ r ∈ groups.flatten, (r.get c).isTrue = false ↔ r.get c = .bool false := by
    intro r hr
    obtain ⟨b, hb⟩ := hbool r hr
    cases b <;> simp [hb, Value.isTrue]
  have hall : ∀ b, (((∃ r ∈ groups.flatten, r.get c = .bool b) ∧
      ¬ ∃ r ∈ groups.flatten, r.get c = .bool !b) ↔ ∀ r ∈ groups.flatten, r.get c = .bool b) := by
    intro b
    constructor
    · rintro ⟨-, hnone⟩ r hr
      obtain ⟨b', hb'⟩ := hbool r hr
      by_cases heq : b' = b
      · rw [hb', heq]
      · exact absurd ⟨r, hr, by rw [hb', Bool.eq_not_of_ne heq]⟩ hnone
    · intro hrows
      obtain ⟨r, hr⟩ := List.exists_mem_of_ne_nil _ hne
      refine ⟨⟨r, hr, hrows r hr⟩, ?_⟩
      rintro ⟨r', hr', hb'⟩
      rw [hrows r' hr'] at hb'
      cases b <;> cases hb'
  constructor
  · rw [flagStatus_allPass h hi, and_iff_right hthroughout, sees_iff h hkept, sees_iff h hkept]
    exact (hall true).trans (forall₂_congr fun r hr => (htrue r hr).symm)
  · rw [flagStatus_allFail h hi, and_iff_right hthroughout, sees_iff h hkept, sees_iff h hkept]
    exact (hall false).trans (forall₂_congr fun r hr => (hfalse r hr).symm)

end ParquetMetaData

/-! ## Nulls -/

/-- Counts of nulls add up over the groups. -/
theorem ParquetMetaData.Describes.nulls_eq (h : md.Describes groups) (hi : md.IsColumn i c) {n : Nat}
    (hn : md.nulls i = some n) : n = groups.flatten.countP fun r => r.get c = .null := by
  obtain ⟨counts, hcounts, rfl⟩ := Option.map_eq_some_iff.1 hn
  clear hn
  have hnulls := h.nulls
  clear h
  generalize md.rowGroups = gs at hnulls hcounts
  induction hnulls generalizing counts with
  | nil =>
    obtain rfl := Option.some.inj hcounts
    rfl
  | @cons g rows gs groups hg _ ih =>
    rw [List.mapM_cons] at hcounts
    obtain ⟨count, hcount, hrest⟩ := Option.bind_eq_some_iff.1 hcounts
    obtain ⟨rest, hmap, heq⟩ := Option.bind_eq_some_iff.1 hrest
    obtain rfl := Option.some.inj heq
    rw [List.sum_cons, List.flatten_cons, List.countP_append, ← ih rest hmap, hg i c hi count hcount]

/-- They are there when every group counts them. -/
theorem ParquetMetaData.nulls_ne_none (h : md.CountedThroughout i) : md.nulls i ≠ none := by
  unfold CountedThroughout at h
  unfold nulls
  generalize md.rowGroups = gs at h
  rw [Ne, Option.map_eq_none_iff]
  induction gs with
  | nil => simp
  | cons g gs ih =>
    obtain ⟨hg, hgs⟩ := List.forall_mem_cons.1 h
    obtain ⟨count, hcount⟩ := Option.ne_none_iff_exists'.1 hg
    obtain ⟨rest, hrest⟩ := Option.ne_none_iff_exists'.1 (ih hgs)
    rw [List.mapM_cons, hcount, hrest]
    exact Option.some_ne_none _

end Groups

/-! ## The entry -/

section Entry

variable {md : ParquetMetaData} {groups : List (List Row)} (path : String) (bytes : Nat) (flagColumns : List String)
  (sha256 : String)

/-- A leaf is at the top when it is a column. -/
theorem isTop_iff {i : Nat} : md.isTop i = true ↔ md.IsColumn i (md.nameAt i) := by
  unfold ParquetMetaData.isTop ParquetMetaData.IsColumn ParquetMetaData.nameAt
  cases hi : md.columns[i]? with
  | none => simp
  | some l =>
    obtain ⟨p⟩ := l
    cases p with
    | nil => simp [Leaf.top]
    | cons a p => cases p <;> simp [Leaf.top, Leaf.name]

theorem ParquetMetaData.IsColumn.nameAt {i : Nat} {c : String} (h : md.IsColumn i c) : md.nameAt i = c := by
  unfold ParquetMetaData.nameAt
  rw [h]
  rfl

/-- A null count is of a column at the top. -/
theorem nullCounts_some {c : String} {n : Int} (h : md.nullCounts c = some n) :
    ∃ i k, md.IsColumn i c ∧ md.nulls i = some k ∧ n = k := by
  rcases Lookup.mem_of_fill h with hempty | ⟨i, -, rfl, hi⟩
  · cases hempty
  · split at hi
    · next htop =>
      obtain ⟨k, hk, rfl⟩ := Option.map_eq_some_iff.1 hi
      exact ⟨i, k, isTop_iff.1 htop, hk, rfl⟩
    · cases hi

/-- A column with a count has it in the entry. -/
theorem nullCounts_ne_none {i : Nat} {c : String} (h : md.IsColumn i c) (hn : md.nulls i ≠ none) :
    md.nullCounts c ≠ none := by
  refine Lookup.fill_ne_none (.inr ⟨i, ?_, h.nameAt, ?_⟩)
  · exact List.mem_range.2 (List.getElem?_eq_some_iff.1 h).1
  · obtain ⟨k, hk⟩ := Option.ne_none_iff_exists'.1 hn
    rw [if_pos (isTop_iff.2 (h.nameAt.symm ▸ h)), hk]
    exact Option.some_ne_none _

/-- A flag has the status taken of its leaf. -/
theorem flags_some {flag : String} {status : FlagStatus}
    (h : (entryFromFooter path (md.file bytes sha256) flagColumns).flags flag = some status) :
    ∃ i, md.leafOf flag = some i ∧ md.flagStatus i = status := by
  unfold entryFromFooter at h
  dsimp only at h
  split at h
  · exact Option.map_eq_some_iff.1 h
  · cases h

/-- **What an entry made of a footer says of the file's rows is so**, however they are divided into groups: it counts
them; what it has of a column's nulls is their count, and it has it when every group has. A flag that is the first leaf
of its name passes throughout, its status says, when every group has Boolean statistics of it, a group that keeps the
greatest value has a row where it is true, and no group that keeps the least has one where it is false; and the other
way round. Where every group keeps both and there is a row, that is when all rows pass, or none does. -/
theorem entryFromFooter_tells (h : md.Describes groups) (htells : md.TellsExtremes groups) :
    (entryFromFooter path (md.file bytes sha256) flagColumns).rows = groups.flatten.length ∧
      (∀ c n, (entryFromFooter path (md.file bytes sha256) flagColumns).nullCounts c = some n →
        n = groups.flatten.countP fun r => r.get c = .null) ∧
      (∀ i c, md.IsColumn i c → md.CountedThroughout i →
        (entryFromFooter path (md.file bytes sha256) flagColumns).nullCounts c ≠ none) ∧
      ∀ i flag status, md.leafOf flag = some i → md.IsColumn i flag →
        (entryFromFooter path (md.file bytes sha256) flagColumns).flags flag = some status →
        (status = .allPass ↔
            md.BooleansThroughout i ∧ md.Sees groups i flag true ∧ ¬ md.Sees groups i flag false) ∧
          (status = .allFail ↔
            md.BooleansThroughout i ∧ md.Sees groups i flag false ∧ ¬ md.Sees groups i flag true) ∧
          (md.KeptThroughout i → groups.flatten ≠ [] → (∀ r ∈ groups.flatten, ∃ b, r.get flag = .bool b) →
            (status = .allPass ↔ ∀ r ∈ groups.flatten, (r.get flag).isTrue = true) ∧
              (status = .allFail ↔ ∀ r ∈ groups.flatten, (r.get flag).isTrue = false)) := by
  refine ⟨h.numRows, fun c n hn => ?_, fun i c hi hcounted => ?_, ?_⟩
  · obtain ⟨i, k, hi, hk, rfl⟩ := nullCounts_some hn
    exact congrArg Int.ofNat (h.nulls_eq hi hk)
  · exact nullCounts_ne_none hi (ParquetMetaData.nulls_ne_none hcounted)
  · intro i flag status hleaf hi hstatus
    obtain ⟨j, hj, rfl⟩ := flags_some path bytes flagColumns sha256 hstatus
    obtain rfl := Option.some.inj (hleaf.symm.trans hj)
    exact ⟨ParquetMetaData.flagStatus_allPass htells hi, ParquetMetaData.flagStatus_allFail htells hi,
      fun hkept hne hbool => ParquetMetaData.flagStatus_of_rows htells hi hkept hbool hne⟩

end Entry

/-- An entry made of the footer of a file with these rows. -/
def FileEntry.OfFooter (e : FileEntry) (rows : List Row) : Prop :=
  ∃ path bytes md flagColumns sha256 groups, ParquetMetaData.Describes md groups ∧ rows = groups.flatten ∧
    e = entryFromFooter path (md.file bytes sha256) flagColumns

/-- The nulls a manifest adds up of a column are those of the rows of its files. -/
theorem tableStats_of_footers {m : Manifest} {rows : List (List Row)}
    (hfiles : List.Forall₂ FileEntry.OfFooter m.files rows) {columns : List String} {c : String} {n : Int}
    (hn : (m.tableStats columns).nullCounts c = some n) : n = rows.flatten.countP fun r => r.get c = .null := by
  have hnulls : Manifest.nulls m.files c = some n := by
    unfold Manifest.tableStats at hn
    dsimp only at hn
    split at hn
    · exact hn
    · cases hn
  unfold Manifest.nulls at hnulls
  obtain ⟨counts, hcounts, rfl⟩ := Option.map_eq_some_iff.1 hnulls
  clear hn hnulls
  generalize m.files = files at hfiles hcounts
  induction hfiles generalizing counts with
  | nil =>
    obtain rfl := Option.some.inj hcounts
    rfl
  | @cons e rs files rows he _ ih =>
    rw [List.mapM_cons] at hcounts
    obtain ⟨count, hcount, hrest⟩ := Option.bind_eq_some_iff.1 hcounts
    obtain ⟨rest, hmap, heq⟩ := Option.bind_eq_some_iff.1 hrest
    obtain rfl := Option.some.inj heq
    obtain ⟨path, bytes, md, flagColumns, sha256, groups, hmd, rfl, rfl⟩ := he
    obtain ⟨i, k, hi, hk, rfl⟩ := nullCounts_some hcount
    rw [List.sum_cons, List.flatten_cons, List.countP_append, ih rest hmap, ← hmd.nulls_eq hi hk, Nat.cast_add]

/-! ## A file of two groups -/

/-- The first group keeps what there is to keep, the second counts no nulls. -/
def splitFooter : ParquetMetaData where
  columns := [.top "amount", ⟨["payee", "amount"]⟩, .top "_peql_positive"]
  rowGroups := [⟨[some (.other (some 1)), none, some (.boolean (some true) (some true) (some 0))]⟩,
    ⟨[some (.other (some 0)), none, some (.boolean (some false) (some false) none)]⟩]
  numRows := 3
  keyValues := some [(contractHashKey, some "h1")]

def splitRows : List (List Row) :=
  [[[("amount", .int 3), ("_peql_positive", .bool true)], [("_peql_positive", .bool true)]],
    [[("amount", .int (-1)), ("_peql_positive", .bool false)]]]

theorem splitFooter_columns {i : Nat} {c : String} (h : splitFooter.IsColumn i c) :
    (i = 0 ∧ c = "amount") ∨ (i = 2 ∧ c = "_peql_positive") := by
  unfold ParquetMetaData.IsColumn splitFooter Leaf.top at h
  rcases i with _ | _ | _ | i <;> simp at h
  · exact .inl ⟨rfl, h.symm⟩
  · exact .inr ⟨rfl, h.symm⟩

/-- The footer is of the rows. -/
theorem splitFooter_describes : splitFooter.Describes splitRows where
  numRows := rfl
  distinct := by
    intro i j c hi hj
    rcases splitFooter_columns hi with ⟨rfl, rfl⟩ | ⟨rfl, rfl⟩ <;>
      rcases splitFooter_columns hj with ⟨rfl, hc⟩ | ⟨rfl, hc⟩
    · rfl
    · simp at hc
    · simp at hc
    · rfl
  nulls := by
    refine .cons ?_ (.cons ?_ .nil)
    · intro i c hi n hn
      rcases splitFooter_columns hi with ⟨rfl, rfl⟩ | ⟨rfl, rfl⟩
      · obtain rfl := Option.some.inj hn
        decide
      · obtain rfl := Option.some.inj hn
        decide
    · intro i c hi n hn
      rcases splitFooter_columns hi with ⟨rfl, rfl⟩ | ⟨rfl, rfl⟩
      · obtain rfl := Option.some.inj hn
        decide
      · cases hn

theorem splitFooter_tells : splitFooter.TellsExtremes splitRows := by
  refine .cons ?_ (.cons ?_ .nil)
  all_goals
    intro i c hi s hs
    rcases splitFooter_columns hi with ⟨rfl, rfl⟩ | ⟨rfl, rfl⟩
    · obtain rfl := Option.some.inj hs
      exact trivial
    · obtain rfl := Option.some.inj hs
      exact ⟨by decide, by decide⟩

/-- One row of three has no amount, and the flag is not one value throughout. -/
theorem entryFromFooter_tells_split :
    (entryFromFooter "a.parquet" (splitFooter.file 512 "00") ["_peql_positive"]).rows = 3 ∧
      (1 : Int) = splitRows.flatten.countP (fun r => r.get "amount" = .null) ∧
      (FlagStatus.mixed = .allPass ↔ ∀ r ∈ splitRows.flatten, (r.get "_peql_positive").isTrue = true) := by
  have hbool : ∀ r ∈ splitRows.flatten, ∃ b, r.get "_peql_positive" = .bool b := by decide
  have hkept : splitFooter.KeptThroughout 2 := by
    intro g hg
    simp only [splitFooter, List.mem_cons, List.not_mem_nil, or_false] at hg
    rcases hg with rfl | rfl
    · exact ⟨_, _, _, rfl⟩
    · exact ⟨_, _, _, rfl⟩
  obtain ⟨hrows, hnulls, -, hflags⟩ :=
    entryFromFooter_tells "a.parquet" 512 ["_peql_positive"] "00" splitFooter_describes splitFooter_tells
  obtain ⟨-, -, hstatus⟩ := hflags 2 "_peql_positive" .mixed rfl rfl rfl
  exact ⟨hrows, hnulls "amount" 1 rfl, (hstatus hkept (by decide) hbool).1⟩

/-- A group whose Boolean statistics have no extremes is passed over, whatever its rows. -/
example : ({ splitFooter with rowGroups := [⟨[none, none, some (.boolean (some true) (some true) none)]⟩,
    ⟨[none, none, some (.boolean none none none)]⟩] }).flagStatus 2 = .allPass := by decide

def splitManifest : Manifest where
  contract := "acme/amounts"
  contractHash := "h1"
  compilationHash := "c1"
  writtenAt := 0
  rowCount := 3
  failures := Lookup.empty
  valid := true
  breached := []
  guarantees := Lookup.empty
  stats := Lookup.empty
  dataHash := "d1"
  rowSchema := []
  files := [entryFromFooter "a.parquet" (splitFooter.file 512 "00") ["_peql_positive"]]
  snapshotId := none

theorem tableStats_of_footers_split : (1 : Int) = splitRows.flatten.countP fun r => r.get "amount" = .null := by
  have hfile : FileEntry.OfFooter (entryFromFooter "a.parquet" (splitFooter.file 512 "00") ["_peql_positive"])
      splitRows.flatten := ⟨_, _, _, _, _, _, splitFooter_describes, rfl, rfl⟩
  have hnulls : (splitManifest.tableStats ["amount"]).nullCounts "amount" = some 1 := rfl
  have hall := tableStats_of_footers (.cons hfile .nil) hnulls
  simpa using hall

end Peql
