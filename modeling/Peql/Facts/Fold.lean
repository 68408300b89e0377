import Mathlib.Data.List.Dedup
import Mathlib.Algebra.BigOperators.Group.List.Basic
import Mathlib.Data.Multiset.Sort
import Peql.Facts.Combine

/-!
# Facts folded over a history of writes

The manifest a contract keeps by folding `afterWrite` over the writes' own facts, and the live files the writes leave.
Each kind of write keeps the two in step (`agrees_first`, `agrees_appended`, `agrees_rewritten`), so after every
sequence of writes the manifest agrees with what a validation of all live rows records (`foldFacts_agrees`), whatever
the order and the grouping of the appends.
-/

namespace Peql

variable {conforms : Row → Prop} {sha256 : String → String} {p : Parsers} {c : Compilation} {rd : Reading}
  {validate : Multiset Row → Verdict}

/-! ## Entries in path order -/

/-- Entries of distinct paths have one order. -/
theorem mergeSort_eq_of_perm {xs ys : List FileEntry} (h : xs.Perm ys) (hn : (xs.map FileEntry.path).Nodup) :
    xs.mergeSort pathLe = ys.mergeSort pathLe := by
  have hperm : (xs.mergeSort pathLe).Perm (ys.mergeSort pathLe) :=
    ((List.mergeSort_perm xs pathLe).trans h).trans (List.mergeSort_perm ys pathLe).symm
  refine List.Perm.eq_of_pairwise (fun a b ha hb hab hba => ?_) (List.pairwise_mergeSort pathLe_trans pathLe_total xs)
    (List.pairwise_mergeSort pathLe_trans pathLe_total ys) hperm
  have hxa : a ∈ xs := List.mem_mergeSort.1 ha
  have hxb : b ∈ xs := h.mem_iff.2 (List.mem_mergeSort.1 hb)
  simp only [pathLe, decide_eq_true_eq] at hab hba
  exact List.inj_on_of_nodup_map hn hxa hxb (le_antisymm hab hba)

/-- The data's hash does not depend on the order its files are listed in. -/
theorem dataHash_eq_of_perm {xs ys : List FileEntry} (h : xs.Perm ys) (hn : (xs.map FileEntry.path).Nodup) :
    dataHash sha256 xs = dataHash sha256 ys := by
  unfold dataHash
  rw [mergeSort_eq_of_perm h hn]

/-- The nulls of a column over some entries, whatever their order. -/
theorem nulls_eq (files : List FileEntry) (column : String) :
    Manifest.nulls files column =
      if files.all (fun f => (f.nullCounts column).isSome) then
        some ((files.map fun f => (f.nullCounts column).getD 0).sum)
      else none := by
  unfold Manifest.nulls
  induction files with
  | nil => rfl
  | cons f files ih =>
    simp only [List.mapM_cons, List.all_cons, List.map_cons, List.sum_cons]
    cases hf : f.nullCounts column with
    | none => simp
    | some n =>
      cases hm : files.mapM (fun f : FileEntry => f.nullCounts column) with
      | none =>
        rw [hm] at ih
        by_cases hall : files.all (fun f => (f.nullCounts column).isSome) = true
        · simp [hall] at ih
        · simp [hall]
      | some ns =>
        rw [hm] at ih
        by_cases hall : files.all (fun f => (f.nullCounts column).isSome) = true
        · simp only [hall, if_true, Option.map_some, Option.some.injEq] at ih
          simp [hall, ih]
        · simp [hall] at ih

/-! ## Rows of files -/

theorem rowsOf_append (xs ys : List (DataFile conforms)) : rowsOf (xs ++ ys) = rowsOf xs + rowsOf ys := by
  simp [rowsOf]

/-- Some files' rows and the others' are all the rows. -/
theorem rowsOf_filter (q : DataFile conforms → Bool) (xs : List (DataFile conforms)) :
    rowsOf xs = rowsOf (xs.filter q) + rowsOf (xs.filter fun f => !q f) := by
  induction xs with
  | nil => rfl
  | cons f xs ih =>
    have hcons : ∀ ys, rowsOf (f :: ys) = f.rows + rowsOf ys := fun ys =>
        rowsOf_append [f] ys |>.trans (by simp [rowsOf])
    rw [hcons, ih, List.filter_cons, List.filter_cons]
    cases q f with
    | true => simp only [if_true, Bool.not_true, Bool.false_eq_true, if_false, hcons]; rw [add_assoc]
    | false =>
      simp only [Bool.false_eq_true, if_false, Bool.not_false, if_true, hcons]
      rw [← add_assoc, add_comm f.rows, add_assoc]

/-- A row of the data is a file's. -/
theorem mem_rowsOf {xs : List (DataFile conforms)} {r : Row} : r ∈ rowsOf xs ↔ ∃ f ∈ xs, r ∈ f.rows := by
  induction xs with
  | nil => simp [rowsOf]
  | cons f xs ih =>
    have hcons : rowsOf (f :: xs) = f.rows + rowsOf xs := by simp [rowsOf]
    rw [hcons, Multiset.mem_add, ih]
    simp

/-- The rows of the data conform. -/
theorem conforms_rowsOf (xs : List (DataFile conforms)) : ∀ r ∈ rowsOf xs, conforms r := by
  intro r hr
  obtain ⟨f, _, hrf⟩ := mem_rowsOf.1 hr
  exact f.typed r hrf

/-- The rows the entries count are the rows the files hold. -/
theorem sum_entry_rows (xs : List (DataFile conforms)) :
    ((xs.map DataFile.entry).map FileEntry.rows).sum = ((rowsOf xs).card : ℕ) := by
  induction xs with
  | nil => rfl
  | cons f xs ih =>
    have hcons : rowsOf (f :: xs) = f.rows + rowsOf xs := by simp [rowsOf]
    rw [List.map_cons, List.map_cons, List.sum_cons, ih, f.entry_rows, hcons, Multiset.card_add]
    push_cast
    rfl

/-- The nulls the entries count are the nulls of the rows the files hold. -/
theorem sum_entry_nulls (column : String) (xs : List (DataFile conforms))
    (h : ∀ f ∈ xs, (f.entry.nullCounts column).isSome = true) :
    (xs.map fun f => (f.entry.nullCounts column).getD 0).sum = (nullsIn column (rowsOf xs) : ℕ) := by
  induction xs with
  | nil => rfl
  | cons f xs ih =>
    have hcons : rowsOf (f :: xs) = f.rows + rowsOf xs := by simp [rowsOf]
    obtain ⟨n, hn⟩ := Option.isSome_iff_exists.1 (h f (List.mem_cons_self ..))
    rw [List.map_cons, List.sum_cons, ih fun g hg => h g (List.mem_cons_of_mem _ hg), hn, hcons, nullsIn_add,
      Option.getD_some, f.entry_nulls column n hn]
    push_cast
    rfl

/-! ## The fold -/

/-- A write that was made, with its time and, for a table with snapshots, the snapshot it committed. -/
structure Made (conforms : Row → Prop) where
  write : DataWrite conforms
  writtenAt : Int
  snapshotId : Option Int

/-- The facts a write computes of its own rows. -/
def Made.facts (sha256 : String → String) (c : Compilation) (validate : Multiset Row → Verdict)
    (w : Made conforms) : WriteFacts where
  written := w.write.written
  facts := writeManifest sha256 c (validate (rowsOf w.write.files)) (w.write.files.map DataFile.entry) w.writtenAt
  removed := w.write.removed

/-- `after_write` folded over the facts of some writes. -/
def foldFacts (sha256 : String → String) (p : Parsers) (c : Compilation) (validate : Multiset Row → Verdict) :
    Option Manifest → List (Made conforms) → Except PeqlError (Option Manifest)
  | known, [] => .ok known
  | known, w :: ws => do
    let after ← afterWrite sha256 p c known (w.facts sha256 c validate) w.writtenAt w.snapshotId
    foldFacts sha256 p c validate after ws

/-- The manifest says of the live files what a validation of their rows finds; a statistic it does not know is none of
those it keeps. -/
structure Agrees (sha256 : String → String) (c : Compilation) (validate : Multiset Row → Verdict)
    (live : List (DataFile conforms)) (m : Manifest) : Prop where
  compilation : m.compilationHash = c.contract.compilationHash
  rowCount : m.rowCount = (rowsOf live).card
  failures : m.failures = (validate (rowsOf live)).failures
  files : m.files = (live.map DataFile.entry).mergeSort pathLe
  dataHash : m.dataHash = Peql.dataHash sha256 (live.map DataFile.entry)
  breached : m.breached = failedAsserts c m.failures
  guarantees : m.guarantees = Lookup.empty
  stats : ∀ column, m.stats column = none ∨ m.stats column = (validate (rowsOf live)).stats column
  kept : ∀ s ∈ c.validation.stats, s.kept = true → m.stats s.column = (validate (rowsOf live)).stats s.column

/-- What is known of the data: nothing of data with no files, and else a manifest that agrees with them. -/
def Known (sha256 : String → String) (c : Compilation) (validate : Multiset Row → Verdict)
    (live : List (DataFile conforms)) : Option Manifest → Prop
  | none => live = []
  | some m => Agrees sha256 c validate live m

/-- Without statistics, what is breached is what fails. -/
theorem breached_empty (c : Compilation) (failures : Lookup String Int) :
    breached c failures Lookup.empty = failedAsserts c failures := by
  simp [breached]

/-- Sorting twice sorts once. -/
theorem sort_sort (xs : List FileEntry) : (xs.mergeSort pathLe).mergeSort pathLe = xs.mergeSort pathLe :=
  List.mergeSort_of_pairwise (List.pairwise_mergeSort pathLe_trans pathLe_total xs)

/-- The hash is of the sorted files. -/
theorem dataHash_sort (xs : List FileEntry) : dataHash sha256 (xs.mergeSort pathLe) = dataHash sha256 xs := by
  unfold dataHash
  rw [sort_sort]

theorem map_entry_path (xs : List (DataFile conforms)) :
    (xs.map DataFile.entry).map FileEntry.path = xs.map DataFile.path := by
  rw [List.map_map]
  rfl

variable (sha256) in
/-- The facts of a write whose files are all there is. -/
theorem agrees_first (V : Validates p c conforms rd validate) (w : Made conforms) :
    Agrees sha256 c validate w.write.files (settled sha256 c w.snapshotId
      { (w.facts sha256 c validate).facts with writtenAt := w.writtenAt, guarantees := Lookup.empty }) where
  compilation := rfl
  rowCount := V.rowCount _ (conforms_rowsOf _)
  failures := rfl
  files := rfl
  dataHash := dataHash_sort _
  breached := breached_empty _ _
  guarantees := rfl
  stats _ := .inr rfl
  kept _ _ _ := rfl

/-- What a manifest that agrees says of the rows, statistic by statistic. -/
theorem Agrees.factsOf (V : Validates p c conforms rd validate) {live : List (DataFile conforms)} {m : Manifest}
    (h : Agrees sha256 c validate live m) : FactsOf p c rd (rowsOf live) m where
  rowCount := h.rowCount
  failures := h.failures.trans (V.failures _ (conforms_rowsOf live))
  stats s hs v hv := by
    obtain ⟨v', hv', hstat⟩ := V.computed _ (conforms_rowsOf live) s hs
    rcases h.stats s.column with hnone | heq
    · rw [hnone] at hv
      cases hv
    · rw [heq, hv'] at hv
      cases hv
      exact hstat

variable (sha256) in
/-- A write's facts are those of its rows. -/
theorem factsOf_write (V : Validates p c conforms rd validate) (w : Made conforms) :
    FactsOf p c rd (rowsOf w.write.files) (w.facts sha256 c validate).facts where
  rowCount := V.rowCount _ (conforms_rowsOf _)
  failures := V.failures _ (conforms_rowsOf _)
  stats s hs v hv := by
    obtain ⟨v', hv', hstat⟩ := V.computed _ (conforms_rowsOf w.write.files) s hs
    obtain rfl : v' = v := Option.some.inj (hv'.symm.trans hv)
    exact hstat

/-- A combined statistic is the one a validation of all rows finds. -/
theorem combinedStat_eq (V : Validates p c conforms rd validate) {A B : Multiset Row} {a b : Manifest}
    (hA : ∀ r ∈ A, conforms r) (hB : ∀ r ∈ B, conforms r) (ha : FactsOf p c rd A a) (hb : FactsOf p c rd B b)
    {s : Stat} (hs : s ∈ c.validation.stats) {z : Json}
    (hz : combinedStat p a b (a.rowCount + b.rowCount) (combinedFailures c a b) s = some z) :
    (validate (A + B)).stats s.column = some z := by
  have hAB : ∀ r ∈ A + B, conforms r := fun r hr => (Multiset.mem_add.1 hr).elim (hA r) (hB r)
  obtain ⟨v, hv, hstat⟩ := V.computed (A + B) hAB s hs
  have hspec := combinedStat_spec ha hb hs (V.passRates s hs) hz
  rw [hv, statOf_unique V hs (combines_of_combinedStat hz) hAB hstat hspec]

/-- An append to data that is known. -/
theorem agrees_appended (V : Validates p c conforms rd validate) {live files : List (DataFile conforms)}
    {m : Manifest} (h : Agrees sha256 c validate live m) (w : Made conforms) (hw : w.write = .append files)
    (hn : ((live ++ files).map DataFile.path).Nodup) :
    Agrees sha256 c validate (live ++ files)
      (settled sha256 c w.snapshotId (appended p c m (w.facts sha256 c validate).facts w.writtenAt)) := by
  have hfiles : w.write.files = files := by rw [hw]; rfl
  have hm := h.factsOf V
  have hwf := factsOf_write sha256 V w
  rw [hfiles] at hwf
  have hrows : rowsOf (live ++ files) = rowsOf live + rowsOf files := rowsOf_append live files
  have hcount : m.rowCount + (w.facts sha256 c validate).facts.rowCount = ((rowsOf (live ++ files)).card : ℕ) := by
    rw [hm.rowCount, hwf.rowCount, hrows, Multiset.card_add]
    push_cast
    rfl
  have hsort : (m.files ++ files.map DataFile.entry).mergeSort pathLe =
      ((live ++ files).map DataFile.entry).mergeSort pathLe := by
    have hperm : (m.files ++ files.map DataFile.entry).Perm ((live ++ files).map DataFile.entry) := by
      rw [List.map_append, h.files]
      exact (List.mergeSort_perm _ _).append_right _
    refine mergeSort_eq_of_perm hperm ?_
    refine ((hperm.map FileEntry.path).nodup_iff).2 ?_
    rw [map_entry_path]
    exact hn
  have hstat : ∀ s ∈ c.validation.stats, (combinedStats p c m (w.facts sha256 c validate).facts
      (m.rowCount + (w.facts sha256 c validate).facts.rowCount)
      (combinedFailures c m (w.facts sha256 c validate).facts)) s.column =
      combinedStat p m (w.facts sha256 c validate).facts (m.rowCount + (w.facts sha256 c validate).facts.rowCount)
        (combinedFailures c m (w.facts sha256 c validate).facts) s :=
    fun s hs => combinedStats_apply V.columns hs
  have hfilesEq : (w.facts sha256 c validate).facts.files = files.map DataFile.entry := by
    rw [← hfiles]
    rfl
  constructor
  · rfl
  · exact hcount
  · change combinedFailures c m (w.facts sha256 c validate).facts = _
    rw [combinedFailures_add hm.failures hwf.failures, hrows,
      V.failures _ fun r hr => (Multiset.mem_add.1 hr).elim (conforms_rowsOf live r) (conforms_rowsOf files r)]
    rfl
  · change (m.files ++ (w.facts sha256 c validate).facts.files).mergeSort pathLe = _
    rw [hfilesEq, hsort]
  · change dataHash sha256 ((m.files ++ (w.facts sha256 c validate).facts.files).mergeSort pathLe) = _
    rw [hfilesEq, hsort, dataHash_sort]
  · change breached c _ m.guarantees = _
    rw [h.guarantees]
    exact breached_empty _ _
  · exact h.guarantees
  · intro column
    by_cases hcol : column ∈ c.validation.stats.map Stat.column
    · obtain ⟨s, hs, rfl⟩ := List.mem_map.1 hcol
      change combinedStats p c m _ _ _ s.column = none ∨ combinedStats p c m _ _ _ s.column = _
      rw [hstat s hs]
      cases hz : combinedStat p m (w.facts sha256 c validate).facts
          (m.rowCount + (w.facts sha256 c validate).facts.rowCount)
          (combinedFailures c m (w.facts sha256 c validate).facts) s with
      | none => exact .inl rfl
      | some z => exact .inr (by
          rw [hrows, combinedStat_eq V (conforms_rowsOf live) (conforms_rowsOf files) hm hwf hs hz])
    · exact .inl (combinedStats_of_notMem hcol)
  · intro s hs hk
    have hknown : ∃ x, m.stats s.column = some x := by
      obtain ⟨v, hv, _⟩ := V.computed _ (conforms_rowsOf live) s hs
      exact ⟨v, (h.kept s hs hk).trans hv⟩
    have hwritten : ∃ y, (w.facts sha256 c validate).facts.stats s.column = some y := by
      obtain ⟨v, hv, _⟩ := V.computed _ (conforms_rowsOf w.write.files) s hs
      exact ⟨v, hv⟩
    obtain ⟨z, hz⟩ := combinedStat_isSome hm hwf hs hk hknown hwritten
      (m.rowCount + (w.facts sha256 c validate).facts.rowCount) (combinedFailures c m (w.facts sha256 c validate).facts)
    change combinedStats p c m _ _ _ s.column = _
    rw [hstat s hs, hz, hrows, combinedStat_eq V (conforms_rowsOf live) (conforms_rowsOf files) hm hwf hs hz]

/-- A rewrite of data that is known finds the files it replaces, of as many rows as it wrote. -/
theorem rewritten_ok {live files : List (DataFile conforms)} {removed : List String} {m w : Manifest}
    (hfiles : m.files = (live.map DataFile.entry).mergeSort pathLe) (hn : (live.map DataFile.path).Nodup)
    (hlive : ∀ q ∈ removed, q ∈ live.map DataFile.path)
    (hrows : rowsOf (live.filter fun f => f.path ∈ removed) = rowsOf files)
    (hw : w.rowCount = (rowsOf files).card) :
    rewritten c.contract m w removed =
      .ok { m with files := (m.files.filter fun f => f.path ∉ removed) ++ w.files } := by
  have hgone : (m.files.filter fun f => f.path ∈ removed).Perm
      ((live.filter fun f => f.path ∈ removed).map DataFile.entry) := by
    rw [hfiles]
    refine ((List.mergeSort_perm _ _).filter _).trans (List.Perm.of_eq ?_)
    rw [List.filter_map]
    rfl
  have hlen : (m.files.filter fun f => f.path ∈ removed).length = removed.dedup.length := by
    have hpaths : ((live.filter fun f => f.path ∈ removed).map DataFile.path).Perm removed.dedup := by
      refine (List.perm_ext_iff_of_nodup ((List.filter_sublist.map DataFile.path).nodup hn)
        (List.nodup_dedup removed)).2 fun q => ?_
      rw [List.mem_dedup, List.mem_map]
      constructor
      · rintro ⟨f, hf, rfl⟩
        simpa using (List.mem_filter.1 hf).2
      · intro hq
        obtain ⟨f, hf, rfl⟩ := List.mem_map.1 (hlive q hq)
        exact ⟨f, List.mem_filter.2 ⟨hf, by simpa using hq⟩, rfl⟩
    rw [hgone.length_eq, List.length_map, ← List.length_map DataFile.path, hpaths.length_eq]
  have hsum : ((m.files.filter fun f => f.path ∈ removed).map FileEntry.rows).sum = w.rowCount := by
    rw [(hgone.map FileEntry.rows).sum_eq, sum_entry_rows, hrows, hw]
  unfold rewritten
  simp only [hlen, hsum, ne_eq, not_true_eq_false, if_false]

/-- A rewrite of data that is known: other files, the same rows. -/
theorem agrees_rewritten (V : Validates p c conforms rd validate) {live files : List (DataFile conforms)}
    {removed : List String} {m : Manifest} (h : Agrees sha256 c validate live m) (w : Made conforms)
    (hw : w.write = .rewrite removed files) (hs : w.write.Sound live) :
    ∃ m', rewritten c.contract m (w.facts sha256 c validate).facts removed = .ok m' ∧
      Agrees sha256 c validate (w.write.apply live) (settled sha256 c w.snapshotId m') := by
  rw [hw] at hs ⊢
  obtain ⟨hn, _, hlive, hrows⟩ := hs
  have hfiles : w.write.files = files := by rw [hw]; rfl
  have hentries : (w.facts sha256 c validate).facts.files = files.map DataFile.entry := by
    rw [← hfiles]
    rfl
  have hwrows : (w.facts sha256 c validate).facts.rowCount = (rowsOf files).card := by
    rw [← hfiles]
    exact V.rowCount _ (conforms_rowsOf _)
  have hnlive : (live.map DataFile.path).Nodup := by
    rw [List.map_append] at hn
    exact (List.nodup_append.1 hn).1
  refine ⟨_, rewritten_ok h.files hnlive hlive hrows hwrows, ?_⟩
  have hsame : rowsOf ((live.filter fun f => f.path ∉ removed) ++ files) = rowsOf live := by
    rw [rowsOf_append, ← hrows, rowsOf_filter (fun f => decide (f.path ∈ removed)) live, add_comm]
    simp
  have hperm : ((m.files.filter fun f => f.path ∉ removed) ++ files.map DataFile.entry).Perm
      (((live.filter fun f => f.path ∉ removed) ++ files).map DataFile.entry) := by
    rw [List.map_append, h.files]
    refine List.Perm.append_right _ (((List.mergeSort_perm _ _).filter _).trans (List.Perm.of_eq ?_))
    rw [List.filter_map]
    rfl
  have hsort : ((m.files.filter fun f => f.path ∉ removed) ++ files.map DataFile.entry).mergeSort pathLe =
      (((live.filter fun f => f.path ∉ removed) ++ files).map DataFile.entry).mergeSort pathLe := by
    refine mergeSort_eq_of_perm hperm ?_
    refine ((hperm.map FileEntry.path).nodup_iff).2 ?_
    rw [map_entry_path]
    refine List.Sublist.nodup (List.Sublist.map DataFile.path ?_) hn
    exact List.filter_sublist.append_right files
  have hgone :
      ((m.files.filter fun f => f.path ∉ removed) ++ (w.facts sha256 c validate).facts.files).mergeSort pathLe =
      (((live.filter fun f => f.path ∉ removed) ++ files).map DataFile.entry).mergeSort pathLe := by
    rw [hentries, hsort]
  constructor
  · exact h.compilation
  · change m.rowCount = (rowsOf ((live.filter fun f => f.path ∉ removed) ++ files)).card
    rw [hsame]
    exact h.rowCount
  · change m.failures = (validate (rowsOf ((live.filter fun f => f.path ∉ removed) ++ files))).failures
    rw [hsame]
    exact h.failures
  · exact hgone
  · change dataHash sha256 (List.mergeSort _ pathLe) = _
    rw [hgone, dataHash_sort]
    rfl
  · change breached c m.failures m.guarantees = _
    rw [h.guarantees]
    exact breached_empty _ _
  · exact h.guarantees
  · change ∀ column, m.stats column = none ∨ m.stats column =
      (validate (rowsOf ((live.filter fun f => f.path ∉ removed) ++ files))).stats column
    rw [hsame]
    exact h.stats
  · change ∀ s ∈ c.validation.stats, s.kept = true → m.stats s.column =
      (validate (rowsOf ((live.filter fun f => f.path ∉ removed) ++ files))).stats s.column
    rw [hsame]
    exact h.kept

/-- A rewrite replaces something. -/
theorem mem_of_sound_rewrite {live files : List (DataFile conforms)} {removed : List String}
    (h : (DataWrite.rewrite removed files).Sound live) : live ≠ [] := by
  obtain ⟨_, hne, hlive, _⟩ := h
  rintro rfl
  obtain ⟨q, hq⟩ := List.exists_mem_of_ne_nil _ hne
  exact absurd (hlive q hq) (by simp)

/-- One write: what was known of the data before is combined with the write's facts to what is known after. -/
theorem afterWrite_known (V : Validates p c conforms rd validate) {live : List (DataFile conforms)}
    {known : Option Manifest} (hk : Known sha256 c validate live known) (w : Made conforms) (hs : w.write.Sound live) :
    ∃ m, afterWrite sha256 p c known (w.facts sha256 c validate) w.writtenAt w.snapshotId = .ok (some m) ∧
      Agrees sha256 c validate (w.write.apply live) m := by
  have hcomp : ¬ (w.facts sha256 c validate).facts.compilationHash ≠ c.contract.compilationHash := fun h => h rfl
  unfold afterWrite
  simp only [if_neg hcomp]
  cases hw : w.write with
  | overwrite files =>
    have hfirst := agrees_first sha256 V w
    have hwritten : (w.facts sha256 c validate).written = .overwrite := by simp [Made.facts, hw, DataWrite.written]
    rw [hwritten]
    refine ⟨_, rfl, ?_⟩
    rw [hw] at hfirst
    exact hfirst
  | append files =>
    have hwritten : (w.facts sha256 c validate).written = .append := by simp [Made.facts, hw, DataWrite.written]
    rw [hwritten]
    cases known with
    | none =>
      have hfirst := agrees_first sha256 V w
      obtain rfl : live = [] := hk
      refine ⟨_, rfl, ?_⟩
      rw [hw] at hfirst
      exact hfirst
    | some m =>
      have hagree : Agrees sha256 c validate live m := hk
      rw [hw] at hs
      simp only [hagree.compilation, ne_eq, not_true_eq_false, if_false]
      exact ⟨_, rfl, agrees_appended V hagree w hw hs⟩
  | rewrite removed files =>
    have hwritten : (w.facts sha256 c validate).written = .rewrite := by simp [Made.facts, hw, DataWrite.written]
    have hremoved : (w.facts sha256 c validate).removed = removed := by simp [Made.facts, hw, DataWrite.removed]
    rw [hwritten]
    cases known with
    | none =>
      rw [hw] at hs
      exact absurd hk (mem_of_sound_rewrite hs)
    | some m =>
      have hagree : Agrees sha256 c validate live m := hk
      simp only [hagree.compilation, ne_eq, not_true_eq_false, if_false]
      obtain ⟨m', hok, hm'⟩ := agrees_rewritten V hagree w hw hs
      rw [hremoved, hok]
      rw [hw] at hm'
      exact ⟨_, rfl, hm'⟩

variable (sha256) in
/-- A whole history: the folded manifest agrees with the live files. -/
theorem foldFacts_known (V : Validates p c conforms rd validate) (ws : List (Made conforms))
    (live : List (DataFile conforms)) (known : Option Manifest) (hk : Known sha256 c validate live known)
    (hs : AllSound live (ws.map Made.write)) :
    ∃ after, foldFacts sha256 p c validate known ws = .ok after ∧
      Known sha256 c validate (liveAfter live (ws.map Made.write)) after ∧ (ws ≠ [] → after ≠ none) := by
  induction ws generalizing live known with
  | nil => exact ⟨known, rfl, hk, fun h => absurd rfl h⟩
  | cons w ws ih =>
    obtain ⟨hsw, hsrest⟩ := hs
    obtain ⟨m, hm, hagree⟩ := afterWrite_known V hk w hsw
    obtain ⟨after, hok, hknown, hne⟩ := ih _ (some m) hagree hsrest
    refine ⟨after, ?_, hknown, fun _ => ?_⟩
    · rw [foldFacts, hm]
      exact hok
    · cases ws with
      | nil =>
        rw [foldFacts] at hok
        cases hok
        exact Option.some_ne_none m
      | cons w' ws => exact hne (List.cons_ne_nil _ _)

/-! ## The whole and the fold -/

/-- The files after a sound write have paths of their own. -/
theorem nodup_apply {live : List (DataFile conforms)} {w : DataWrite conforms} (h : w.Sound live) :
    ((w.apply live).map DataFile.path).Nodup := by
  cases w with
  | append files => exact h
  | overwrite files => exact h
  | rewrite removed files =>
    refine List.Sublist.nodup (List.Sublist.map DataFile.path ?_) h.1
    exact List.filter_sublist.append_right files

/-- Live files have paths of their own. -/
theorem nodup_liveAfter (ws : List (DataWrite conforms)) (live : List (DataFile conforms))
    (hn : (live.map DataFile.path).Nodup) (hs : AllSound live ws) : ((liveAfter live ws).map DataFile.path).Nodup := by
  induction ws generalizing live with
  | nil => exact hn
  | cons w ws ih => exact ih _ (nodup_apply hs.1) hs.2

/-- The row count and the nulls per column of the live files. -/
def liveStats (live : List (DataFile conforms)) (columns : List String) : TableStats where
  rowCount := (rowsOf live).card
  nullCounts column :=
    if column ∈ columns ∧ ∀ f ∈ live, (f.entry.nullCounts column).isSome = true then
      some (nullsIn column (rowsOf live) : ℕ)
    else none

/-- The statistics of a manifest that agrees are the data's. -/
theorem tableStats_eq {live : List (DataFile conforms)} {m : Manifest} (h : Agrees sha256 c validate live m)
    (columns : List String) : m.tableStats columns = liveStats live columns := by
  have hnulls : ∀ column, Manifest.nulls m.files column =
      if ∀ f ∈ live, (f.entry.nullCounts column).isSome = true then some (nullsIn column (rowsOf live) : Int)
      else none := by
    intro column
    have hperm : m.files.Perm (live.map DataFile.entry) := by
      rw [h.files]
      exact List.mergeSort_perm _ _
    rw [nulls_eq, (hperm.map fun f => (f.nullCounts column).getD 0).sum_eq]
    by_cases hall : ∀ f ∈ live, (f.entry.nullCounts column).isSome = true
    · have hfiles : m.files.all (fun f => (f.nullCounts column).isSome) = true := by
        rw [List.all_eq_true]
        intro e he
        obtain ⟨f, hf, rfl⟩ := List.mem_map.1 (hperm.mem_iff.1 he)
        exact hall f hf
      rw [if_pos hfiles, if_pos hall, List.map_map]
      exact congrArg some (sum_entry_nulls column live hall)
    · have hfiles : ¬ m.files.all (fun f => (f.nullCounts column).isSome) = true := by
        rw [List.all_eq_true]
        exact fun hf => hall fun f hfl => hf f.entry (hperm.mem_iff.2 (List.mem_map_of_mem hfl))
      rw [if_neg hfiles, if_neg hall]
  unfold Manifest.tableStats liveStats
  simp only [h.rowCount, TableStats.mk.injEq, true_and]
  funext column
  rw [hnulls column]
  by_cases hcol : column ∈ columns <;> simp [hcol]

/-- A manifest says what a whole validation's says: rows, failures, files and their hash, the deny-level asserts that
fail, and every statistic it knows, those that combine among them. -/
structure SaysWhole (c : Compilation) (m whole : Manifest) : Prop where
  rowCount : m.rowCount = whole.rowCount
  failures : m.failures = whole.failures
  files : m.files.Perm whole.files
  dataHash : m.dataHash = whole.dataHash
  breached : ∀ f ∈ c.contract.flags, f.onFail = .deny → (f.assertId ∈ m.breached ↔ f.assertId ∈ whole.breached)
  stats : ∀ column, m.stats column = none ∨ m.stats column = whole.stats column
  kept : ∀ s ∈ c.validation.stats, s.kept = true → m.stats s.column = whole.stats s.column

/-- A denied assert fails when a row fails it. -/
theorem mem_failedAsserts {failures : Lookup String Int} {f : Flag} (hf : f ∈ c.contract.flags)
    (hd : f.onFail = .deny) : f.assertId ∈ failedAsserts c failures ↔ 0 < (failures f.assertId).getD 0 := by
  unfold failedAsserts
  rw [List.mem_map]
  constructor
  · rintro ⟨g, hg, heq⟩
    rw [← heq]
    simpa using (List.mem_filter.1 hg).2
  · intro hpos
    exact ⟨f, List.mem_filter.2 ⟨List.mem_filter.2 ⟨hf, by simpa using hd⟩, by simpa using hpos⟩, rfl⟩

/-- What agrees with the live files says what a validation of them records. -/
theorem Agrees.saysWhole (V : Validates p c conforms rd validate) {live : List (DataFile conforms)} {m : Manifest}
    (h : Agrees sha256 c validate live m) (hn : (live.map DataFile.path).Nodup) {listed : List FileEntry}
    (hl : listed.Perm (live.map DataFile.entry)) (writtenAt decidedAt : Int) (snapshotId : Option Int) :
    SaysWhole c m (wholeManifest sha256 c (validate (rowsOf live)) listed writtenAt decidedAt snapshotId) where
  rowCount := h.rowCount.trans (V.rowCount _ (conforms_rowsOf live)).symm
  failures := h.failures
  files := by
    rw [h.files]
    exact (List.mergeSort_perm _ _).trans hl.symm
  dataHash := by
    rw [h.dataHash]
    refine dataHash_eq_of_perm hl.symm ?_
    rw [map_entry_path]
    exact hn
  breached f hf hd := by
    rw [h.breached, mem_failedAsserts hf hd, h.failures]
    exact (V.breached _ (conforms_rowsOf live) f hf hd).symm
  stats := h.stats
  kept := h.kept

/-- Two histories with the same rows live are known alike: in what order and in how many appends the rows came makes no
difference, and with the same files live the files and their hash are the same too. -/
structure SameHistory (c : Compilation) (live live' : List (DataFile conforms)) (m m' : Manifest) : Prop where
  rowCount : m'.rowCount = m.rowCount
  failures : m'.failures = m.failures
  breached : m'.breached = m.breached
  kept : ∀ s ∈ c.validation.stats, s.kept = true → m'.stats s.column = m.stats s.column
  files : (live'.map DataFile.entry).Perm (live.map DataFile.entry) → m'.files = m.files ∧ m'.dataHash = m.dataHash

/-- Two histories of one data agree on what they record of it. -/
theorem Agrees.sameHistory {live live' : List (DataFile conforms)} {m m' : Manifest}
    (h : Agrees sha256 c validate live m) (h' : Agrees sha256 c validate live' m')
    (hn : (live'.map DataFile.path).Nodup) (hrows : rowsOf live' = rowsOf live) : SameHistory c live live' m m' where
  rowCount := by rw [h.rowCount, h'.rowCount, hrows]
  failures := by rw [h.failures, h'.failures, hrows]
  breached := by rw [h.breached, h'.breached, h.failures, h'.failures, hrows]
  kept s hs hk := by rw [h.kept s hs hk, h'.kept s hs hk, hrows]
  files hperm := by
    rw [← map_entry_path] at hn
    rw [h.files, h'.files, h.dataHash, h'.dataHash]
    exact ⟨mergeSort_eq_of_perm hperm hn, dataHash_eq_of_perm hperm hn⟩

/-- Combined facts equal a whole validation: after every sequence of sound writes to data with no rows, the folded
manifest says what a validation of all live rows records, its table statistics are the live files', and every other
history with the same rows live is known alike. -/
theorem foldFacts_agrees (sha256 : String → String) (V : Validates p c conforms rd validate)
    (ws : List (Made conforms)) (hne : ws ≠ []) (hs : AllSound [] (ws.map Made.write)) :
    ∃ m, foldFacts sha256 p c validate none ws = .ok (some m) ∧
      (∀ listed writtenAt decidedAt snapshotId,
        listed.Perm ((liveAfter [] (ws.map Made.write)).map DataFile.entry) →
        SaysWhole c m (wholeManifest sha256 c (validate (rowsOf (liveAfter [] (ws.map Made.write)))) listed writtenAt
          decidedAt snapshotId)) ∧
      (∀ columns, m.tableStats columns = liveStats (liveAfter [] (ws.map Made.write)) columns) ∧
      ∀ ws' m', AllSound [] (ws'.map Made.write) → foldFacts sha256 p c validate none ws' = .ok (some m') →
        rowsOf (liveAfter [] (ws'.map Made.write)) = rowsOf (liveAfter [] (ws.map Made.write)) →
        SameHistory c (liveAfter [] (ws.map Made.write)) (liveAfter [] (ws'.map Made.write)) m m' := by
  have hnodup : ∀ ws : List (Made conforms), AllSound [] (ws.map Made.write) →
      ((liveAfter [] (ws.map Made.write)).map DataFile.path).Nodup :=
    fun ws hs => nodup_liveAfter _ _ List.nodup_nil hs
  obtain ⟨after, hok, hknown, hsome⟩ := foldFacts_known sha256 V ws [] none rfl hs
  obtain ⟨m, rfl⟩ := Option.ne_none_iff_exists'.1 (hsome hne)
  have hagree : Agrees sha256 c validate (liveAfter [] (ws.map Made.write)) m := hknown
  refine ⟨m, hok, fun listed at' decidedAt snapshotId hl => ?_, tableStats_eq hagree, fun ws' m' hs' hok' hrows => ?_⟩
  · exact hagree.saysWhole V (hnodup ws hs) hl at' decidedAt snapshotId
  · obtain ⟨after', hok'', hknown', _⟩ := foldFacts_known sha256 V ws' [] none rfl hs'
    obtain rfl : after' = some m' := Except.ok.inj (hok''.symm.trans hok')
    exact hagree.sameHistory hknown' (hnodup ws' hs') hrows

/-! ## A contract of one column

Its assert counts the values that are not positive, its statistics are the rows, the pass rate, the nulls and the least
value. -/

def amountContract : Compilation where
  contract :=
    { name := "acme/amounts", version := 1, owner := none, source := .parquet "amounts", contractHash := "c1",
      compilationHash := "h1", functions := [], decisions := [], rowSchema := [⟨"amount", "Int64", true⟩],
      enrich := [], admits := [], admitsStored := [],
      projection := [("amount", .column "amount")], projectionStored := [("amount", .column "amount")],
      flags := [⟨"positive", "_flag_positive", .deny, .op (.binary .gt) [.column "amount", .literal (.int 0)]⟩],
      derived := [], guarantees := [], exposedSchema := [⟨"amount", "Int64", true⟩] }
  write := ⟨[], []⟩
  validation :=
    { asserts := ["positive"]
      stats := [⟨"rows", .rowCount, .int⟩, ⟨"passed", .assertionPassRate "positive", .double⟩,
        ⟨"nulls", .column "amount" .nullCount, .int⟩, ⟨"null_rate", .column "amount" .nullRate, .double⟩,
        ⟨"least", .column "amount" .min, .int⟩]
      dataGuarantees := [] }

def amountParsers : Parsers := ⟨fun _ _ => none, fun _ => none⟩

def amountReading : Reading where
  fails _ r := match r.get "amount" with
    | .int n => n ≤ 0
    | _ => true
  render _ v := match v with
    | .int n => .int n
    | _ => .null
  unordered _ _ := .null

def AmountRow (r : Row) : Prop := r.get "amount" = .null ∨ ∃ n, r.get "amount" = .int n

def amountsOf (rows : Multiset Row) : Multiset Int :=
  rows.filterMap fun r => match r.get "amount" with
    | .int n => some n
    | _ => none

def sortedAmounts (rows : Multiset Row) : List Int := (amountsOf rows).sort

def validateAmounts (rows : Multiset Row) : Verdict :=
  let failed : ℕ := rows.countP fun r => amountReading.fails "positive" r
  { rowCount := rows.card
    failures := fun a =>
      if a ∈ ["positive"] then some ((rows.countP fun r => amountReading.fails a r : ℕ) : Int) else none
    valid := failed = 0
    breached := if 0 < failed then ["positive"] else []
    guarantees := Lookup.empty
    stats := Lookup.ofList [("rows", .int rows.card),
      ("passed", .float (if 0 < rows.card then 1 - (failed : ℚ) / rows.card else 1)),
      ("nulls", .int (nullsIn "amount" rows)),
      ("null_rate", .float (if 0 < rows.card then nullsIn "amount" rows / rows.card else 0)),
      ("least", match sortedAmounts rows with
        | [] => .null
        | n :: _ => .int n)] }

theorem mem_amountsOf {rows : Multiset Row} {n : Int} :
    n ∈ amountsOf rows ↔ ∃ r ∈ rows, r.get "amount" = .int n := by
  unfold amountsOf
  rw [Multiset.mem_filterMap]
  refine exists_congr fun r => and_congr_right fun _ => ?_
  cases r.get "amount" <;> simp

theorem mem_sortedAmounts {rows : Multiset Row} {n : Int} : n ∈ sortedAmounts rows ↔ n ∈ amountsOf rows :=
  Multiset.mem_sort _

/-- The amounts are in order. -/
theorem sortedAmounts_pairwise (rows : Multiset Row) : (sortedAmounts rows).Pairwise (· ≤ ·) :=
  Multiset.pairwise_sort _ _

/-- The head of the sorted amounts is the least shown, and none is shown when there is no head. -/
theorem least_amount {rows : Multiset Row} (hrows : ∀ r ∈ rows, AmountRow r) :
    Extreme.FirstOr .null .lt (statKey amountParsers .int) (shown amountReading.render .int "amount" rows)
      (match sortedAmounts rows with
        | [] => .null
        | n :: _ => .int n) := by
  have hshown : ∀ x ∈ shown amountReading.render .int "amount" rows, ∃ n ∈ amountsOf rows, x = .int n := by
    intro x hx
    obtain ⟨r, hr, hne, rfl⟩ := mem_shown.1 hx
    rcases hrows r hr with hnull | ⟨n, hn⟩
    · exact absurd hnull hne
    · exact ⟨n, mem_amountsOf.2 ⟨r, hr, hn⟩, by simp [amountReading, hn]⟩
  cases hsort : sortedAmounts rows with
  | nil =>
    refine .inl ⟨Multiset.eq_zero_of_forall_notMem fun x hx => ?_, rfl⟩
    obtain ⟨n, hn, _⟩ := hshown x hx
    have hmem := mem_sortedAmounts.2 hn
    rw [hsort] at hmem
    cases hmem
  | cons n ns =>
    have hmem : n ∈ amountsOf rows := mem_sortedAmounts.1 (hsort ▸ List.mem_cons_self ..)
    have hle : ∀ m ∈ amountsOf rows, n ≤ m := by
      intro m hm
      have hpair := sortedAmounts_pairwise rows
      have hmem := mem_sortedAmounts.2 hm
      rw [hsort] at hpair hmem
      rcases List.mem_cons.1 hmem with rfl | hmem
      · exact le_refl m
      · exact List.rel_of_pairwise_cons hpair hmem
    obtain ⟨r, hr, hn⟩ := mem_amountsOf.1 hmem
    refine .inr ⟨by simp, mem_shown.2 ⟨r, hr, by simp [hn], by simp [amountReading, hn]⟩, n, rfl, fun x hx => ?_⟩
    obtain ⟨m, hm, rfl⟩ := hshown x hx
    exact ⟨m, rfl, Extreme.ahead_lt.2 (hle m hm)⟩

/-- A validation of amounts counts as parcel's does. -/
theorem validates_amounts : Validates amountParsers amountContract AmountRow amountReading validateAmounts where
  rowCount _ _ := rfl
  failures _ _ := rfl
  breached rows _ f hf _ := by
    obtain rfl := List.mem_singleton.1 hf
    by_cases hpos : 0 < rows.countP fun r => amountReading.fails "positive" r <;>
      simp [validateAmounts, hpos]
  computed rows hrows s hs := by
    simp only [amountContract, List.mem_cons, List.not_mem_nil, or_false] at hs
    rcases hs with rfl | rfl | rfl | rfl | rfl
    · exact ⟨_, rfl, rfl⟩
    · exact ⟨_, rfl, rfl⟩
    · exact ⟨_, rfl, rfl⟩
    · exact ⟨_, rfl, rfl⟩
    · exact ⟨_, rfl, least_amount hrows⟩
  nothingElse rows column h := Lookup.ofList_eq_none h
  columns := by decide
  passRates s hs a hf := by
    simp only [amountContract, List.mem_cons, List.not_mem_nil, or_false] at hs
    rcases hs with rfl | rfl | rfl | rfl | rfl
    all_goals cases hf
    exact List.mem_singleton.2 rfl
  shownKey s hs ho column stat hf hm r hr hne := by
    simp only [amountContract, List.mem_cons, List.not_mem_nil, or_false] at hs
    rcases hs with rfl | rfl | rfl | rfl | rfl <;> cases hf
    · rcases hm with h | h <;> cases h
    · rcases hm with h | h <;> cases h
    · obtain ⟨n, hn⟩ := hr.resolve_left hne
      rw [hn]
      exact ⟨n, rfl⟩
  shownInj s hs ho column stat hf hm r r' hr hr' hne hne' hkey := by
    simp only [amountContract, List.mem_cons, List.not_mem_nil, or_false] at hs
    rcases hs with rfl | rfl | rfl | rfl | rfl <;> cases hf
    · rcases hm with h | h <;> cases h
    · rcases hm with h | h <;> cases h
    · obtain ⟨n, hn⟩ := hr.resolve_left hne
      obtain ⟨n', hn'⟩ := hr'.resolve_left hne'
      rw [hn, hn'] at hkey ⊢
      exact congrArg Json.int (Option.some.inj hkey)

/-- A file of one row. -/
def amountFile (path : String) (n : Int) : DataFile AmountRow where
  entry :=
    { path := path, rows := 1, bytes := 100, contractHash := "c1", flags := Lookup.empty,
      nullCounts := Lookup.ofList [("amount", 0)], sha256 := "s" ++ path }
  rows := {[("amount", .int n)]}
  typed r hr := by
    rw [Multiset.mem_singleton.1 hr]
    exact .inr ⟨n, rfl⟩
  entry_rows := rfl
  entry_nulls column k hk := by
    have hmem := Lookup.mem_of_ofList hk
    obtain ⟨rfl, rfl⟩ := Prod.mk.inj (List.mem_singleton.1 hmem)
    rfl

/-- Two appends, one of them of a row that fails the assert. -/
def amountWrites : List (Made AmountRow) :=
  [⟨.append [amountFile "a" 1], 10, none⟩, ⟨.append [amountFile "b" (-2)], 20, none⟩]

theorem foldFacts_agrees_amounts :
    ∃ m, foldFacts (fun s => s) amountParsers amountContract validateAmounts none amountWrites = .ok (some m) ∧
      m.rowCount = 2 := by
  obtain ⟨m, hok, hwhole, _⟩ := foldFacts_agrees (fun s => s) validates_amounts amountWrites (by decide)
    ⟨by change List.Nodup ["a"]; decide, by change List.Nodup ["a", "b"]; decide, trivial⟩
  exact ⟨m, hok, (hwhole _ 0 0 none (List.Perm.refl _)).rowCount⟩

end Peql
