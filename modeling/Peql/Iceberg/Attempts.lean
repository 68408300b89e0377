import Peql.Iceberg.Carried

/-!
# The attempts of a rewrite

A rewrite makes its attempts while other writers commit to the table. Every attempt that succeeds sums what it carries,
no manifest is read twice in all of them, and what is committed over a base made of one, or over an overwrite's, counts
its live data right again (`carried_sums`).
-/

namespace Peql

open Runs

/-! ## Attempts, and what other writers commit between them -/

/-- What an attempt gave, and the table it was made over. -/
structure CarryAttempt where
  table : Metadata
  now : Int
  kept : List ManifestFile
  totals : Totals

/-- A table while one of its snapshots is rewritten. -/
structure Carrying where
  table : Metadata
  reader : Reader
  /-- An attempt failed, and the rewrite with it. -/
  failed : Bool
  attempts : List CarryAttempt
  /-- The bases made of attempts and for overwrites. -/
  bases : List Metadata
  /-- The snapshots committed over these bases. -/
  committed : List Snapshot

inductive CarryAction
  | lands | carries | fails | forges | overwrites | commits

/-- A commit of another writer (an append among them), whose snapshot counts right; a call of `carried`; a base made of
what one gave, or for an overwrite; and a commit over a base, while the catalog takes it. -/
inductive CarryStep : Carrying → CarryAction → Carrying → Prop
  | lands {s : Carrying} {snap : Snapshot} (hs : OtherSnapshot s.table snap) (hc : snap.Counted) :
      CarryStep s .lands { s with table := s.table.push snap }
  | carries {s : Carrying} {now : Int} {kept : List ManifestFile} {totals : Totals} {reader : Reader}
      (going : s.failed = false)
      (hnow : currentWhileRewriting s.table s.reader.rewritten.snapshot = .ok now)
      (gives : Reader.carried s.table now s.reader = .ok (kept, totals) reader) :
      CarryStep s .carries { s with reader := reader, attempts := ⟨s.table, now, kept, totals⟩ :: s.attempts }
  | fails {s : Carrying} {now : Int} {e : PeqlError} {reader : Reader} (going : s.failed = false)
      (hnow : currentWhileRewriting s.table s.reader.rewritten.snapshot = .ok now)
      (gives : Reader.carried s.table now s.reader = .error e reader) :
      CarryStep s .fails { s with reader := reader, failed := true }
  | forges {s : Carrying} {a : CarryAttempt} {base : Metadata} (ha : a ∈ s.attempts)
      (hb : listing a.table a.now a.kept a.totals = .ok base) :
      CarryStep s .forges { s with bases := base :: s.bases }
  | overwrites {s : Carrying} {began : Option Int} {base : Metadata} (hb : overwriteBase began s.table = .ok base) :
      CarryStep s .overwrites { s with bases := base :: s.bases }
  | commits {s : Carrying} {base table : Metadata} {id : Int} {path : String} {files : List TableFile}
      {summary : Summary} (hb : base ∈ s.bases) (freshId : ∀ t ∈ s.table.snapshots, t.id ≠ id)
      (freshPath : ∀ t ∈ s.table.snapshots, ∀ m ∈ t.manifests, m.path ≠ path)
      (taken : updateTable s.table base (fastAppend base id path files summary) = some table) :
      CarryStep s .commits
        { s with table := table, committed := fastAppend base id path files summary :: s.committed }

namespace Carrying

/-- A rewrite that has opened its snapshot. -/
def start (table : Metadata) (r : Rewritten) : Carrying := ⟨table, ⟨r, []⟩, false, [], [], []⟩

/-- What an attempt gave is what its table lists and the rewritten snapshot does not, summed. -/
structure Sums (of : Snapshot) (a : CarryAttempt) : Prop where
  current : a.table.current = some a.now
  kept : a.kept = a.table.currentManifests.filter fun m => m.path ∉ of.manifests.map ManifestFile.path
  data : ∀ m ∈ a.kept, m.content = .data
  counted : ∀ m ∈ a.kept, m.Counted
  totals : a.totals = liveTotals a.kept

/-- A base a snapshot may be committed over: it lists some of the manifests of a copy of the table, and counts them. -/
structure Based (table base : Metadata) : Prop where
  copy : ∃ copy, Held copy table ∧ base.current = copy.current ∧
    base.currentManifests.Sublist copy.currentManifests
  counted : CountedBase base

structure Inv (of : Snapshot) (s : Carrying) : Prop where
  wellFormed : WellFormed s.table
  counted : Counted s.table
  mem : of ∈ s.table.snapshots
  once : s.reader.reads.Nodup
  ready : s.failed = false → s.reader.Ready s.table of
  sums : ∀ a ∈ s.attempts, Held a.table s.table ∧ Sums of a
  bases : ∀ b ∈ s.bases, Based s.table b
  committed : ∀ t ∈ s.committed, t.totals = some (liveTotals t.manifests)

variable {of : Snapshot} {s t : Carrying}

theorem Based.push {table base : Metadata} (h : Based table base) {snap : Snapshot}
    (hid : ∀ t ∈ table.snapshots, t.id ≠ snap.id) : Based (table.push snap) base := by
  obtain ⟨copy, hheld, hrest⟩ := h.copy
  exact ⟨⟨copy, hheld.push hid, hrest⟩, h.counted⟩

/-- The table takes one more snapshot, of a fresh id, that counts right. -/
theorem Inv.push (h : s.Inv of) {snap : Snapshot} (hwf : WellFormed (s.table.push snap))
    (hid : ∀ t ∈ s.table.snapshots, t.id ≠ snap.id) (hc : snap.Counted) :
    Inv of { s with table := s.table.push snap } where
  wellFormed := hwf
  counted := h.counted.push hc
  mem := List.mem_append_left _ h.mem
  once := h.once
  ready := fun hgo => (h.ready hgo).push snap
  sums := fun a ha => ⟨(h.sums a ha).1.push hid, (h.sums a ha).2⟩
  bases := fun b hb => (h.bases b hb).push hid
  committed := h.committed

theorem current_of_rewriting {table : Metadata} {i now : Int} (h : currentWhileRewriting table i = .ok now) :
    table.current = some now := by
  unfold currentWhileRewriting at h
  split at h
  case h_1 heq => rw [heq, Except.ok.inj h]
  case h_2 => exact absurd h (by simp)

/-- An attempt that succeeds sums what it carries, and keeps what it has read. -/
theorem Inv.carries (h : s.Inv of) (going : s.failed = false) {now : Int} {kept : List ManifestFile} {totals : Totals}
    {reader : Reader} (hnow : currentWhileRewriting s.table s.reader.rewritten.snapshot = .ok now)
    (gives : Reader.carried s.table now s.reader = .ok (kept, totals) reader) :
    Sums of ⟨s.table, now, kept, totals⟩ ∧ reader.Ready s.table of := by
  have hspec := Reader.carried_spec h.wellFormed h.counted h.mem now s.reader (h.ready going)
  rw [gives] at hspec
  obtain ⟨⟨u, hu, rfl, hkept⟩, hdata, htotals, hready⟩ := hspec
  have hcur := current_of_rewriting hnow
  refine ⟨⟨hcur, ?_, hdata, ?_, htotals⟩, hready⟩
  · rw [Metadata.currentManifests_of_mem h.wellFormed hu hcur]
    exact hkept
  · intro m hm
    have hm : m ∈ kept := hm
    rw [show kept = _ from hkept] at hm
    exact (h.counted u hu).list m (List.mem_filter.1 hm).1

/-- What an attempt carried is a base to commit over. -/
theorem Inv.forges (h : s.Inv of) {a : CarryAttempt} (ha : a ∈ s.attempts) {base : Metadata}
    (hb : listing a.table a.now a.kept a.totals = .ok base) : Based s.table base := by
  obtain ⟨hheld, hsums⟩ := h.sums a ha
  obtain ⟨hcur, hm, ht⟩ := listing_spec hb hsums.current
  refine ⟨⟨a.table, hheld, hcur, ?_⟩, ?_, ?_, ?_⟩
  · rw [hm, hsums.kept]
    exact List.filter_sublist
  · rw [hm]
    exact hsums.data
  · rw [hm]
    exact hsums.counted
  · rw [ht, hm]
    exact hsums.totals

theorem Inv.overwrites (h : s.Inv of) {began : Option Int} {base : Metadata}
    (hb : overwriteBase began s.table = .ok base) : Based s.table base := by
  obtain ⟨hcur, _, hm, ht⟩ := overwriteBase_spec hb
  refine ⟨⟨s.table, .refl h.wellFormed, hcur, ?_⟩, ?_, ?_, ?_⟩
  · rw [hm]
    exact List.nil_sublist _
  · simp [hm]
  · simp [hm]
  · rw [ht, hm]
    rfl

/-- Each step keeps all of it. -/
theorem Inv.step {a : CarryAction} (h : s.Inv of) (hs : CarryStep s a t) : t.Inv of := by
  cases hs with
  | lands hs hc => exact h.push (h.wellFormed.push hs.freshId hs.pathsNodup hs.manifests hs.deletes) hs.freshId hc
  | carries going hnow gives =>
    obtain ⟨hsums, hready⟩ := h.carries going hnow gives
    refine { h with once := hready.once, ready := fun _ => hready, sums := fun a ha => ?_ }
    rcases List.mem_cons.1 ha with rfl | ha
    · exact ⟨.refl h.wellFormed, hsums⟩
    · exact h.sums a ha
  | @fails now e reader going hnow gives =>
    have hspec := Reader.carried_spec h.wellFormed h.counted h.mem now s.reader (h.ready going)
    rw [gives] at hspec
    exact { h with once := hspec, ready := fun hgo => absurd hgo (by simp) }
  | forges ha hb =>
    refine { h with bases := fun b hb' => ?_ }
    rcases List.mem_cons.1 hb' with rfl | hb'
    · exact h.forges ha hb
    · exact h.bases b hb'
  | overwrites hb =>
    refine { h with bases := fun b hb' => ?_ }
    rcases List.mem_cons.1 hb' with rfl | hb'
    · exact h.overwrites hb
    · exact h.bases b hb'
  | @commits base table id path files summary hb freshId freshPath taken =>
    obtain ⟨hcur, rfl⟩ := updateTable_eq taken
    obtain ⟨⟨copy, hheld, hcopy, hsub⟩, hbase⟩ := h.bases base hb
    -- The catalog takes it only at the copy's snapshot, whose manifests are the table's.
    rw [hheld.currentManifests_eq (hcopy.symm.trans hcur.symm)] at hsub
    obtain ⟨htotals, hcounted⟩ := hbase.fastAppend id path files summary
    have hdel : deletedRows base.currentManifests ≤ dataRows base.currentManifests := by
      rw [deletedRows_of_data hbase.data]
      exact Multiset.zero_le _
    have hpush := h.push (h.wellFormed.fastAppend hsub hdel freshId freshPath files summary) freshId hcounted
    refine { hpush with committed := fun t ht => ?_ }
    rcases List.mem_cons.1 ht with rfl | ht
    · exact htotals
    · exact h.committed t ht

theorem start_inv {table : Metadata} (h : WellFormed table) (hc : Counted table) {i : Int} {r : Rewritten}
    (hr : rewriteBegin table i = .ok r) :
    ∃ of ∈ table.snapshots, table.snapshotById i = some of ∧ (start table r).Inv of := by
  unfold rewriteBegin at hr
  split at hr
  case isTrue => exact absurd hr (by simp)
  case isFalse =>
    unfold Rewritten.of at hr
    split at hr
    case h_1 => exact absurd hr (by simp)
    case h_2 of hof =>
      obtain rfl := Except.ok.inj hr
      obtain ⟨hmem, rfl⟩ := Metadata.snapshotById_mem hof
      refine ⟨of, hmem, hof, h, hc, hmem, List.nodup_nil, fun _ => ?_, by simp [start], by simp [start],
        by simp [start]⟩
      exact ⟨rfl, rfl, fun p t ht => absurd ht (by simp [start]), fun p hp => absurd hp (by simp [start]),
        List.nodup_nil⟩

/-- A snapshot is rewritten while other writers commit: each attempt that succeeds carries the manifests the current
snapshot lists and the rewritten one does not, with the totals of their live data files; no manifest is read twice in
all the attempts; and the snapshots committed count their live data, and right. -/
theorem carried_sums {table : Metadata} (h : WellFormed table) (hc : Counted table) {i : Int} {r : Rewritten}
    (hr : rewriteBegin table i = .ok r) {as : List CarryAction} {s : Carrying}
    (hrun : Run CarryStep (start table r) as s) :
    ∃ of, table.snapshotById i = some of ∧
      (∀ a ∈ s.attempts,
        a.kept = (a.table.currentManifests.filter fun m => m.path ∉ of.manifests.map ManifestFile.path) ∧
          a.totals = liveTotals a.kept) ∧
      s.reader.reads.Nodup ∧
      (∀ t ∈ s.committed, t.totals = some (liveTotals t.manifests)) ∧ Counted s.table := by
  obtain ⟨of, _, hof, hstart⟩ := start_inv h hc hr
  have hinv := hrun.inv (fun _ _ _ hi hs => hi.step hs) hstart
  exact ⟨of, hof, fun a ha => ⟨(hinv.sums a ha).2.kept, (hinv.sums a ha).2.totals⟩, hinv.once,
    hinv.committed, hinv.counted⟩

end Carrying

/-! ## One append, read for want of counts -/

/-- A file of ten rows. -/
def tenRows (path : String) : TableFile := ⟨path, 10, 100, 0⟩

/-- A table of one snapshot, of one file. -/
def tenRowTable : Metadata :=
  ⟨"sales.orders", "u1", 2, [], [⟨1, none, [addedManifest "m1" 1 [tenRows "f1"]], none, "append", none, []⟩], some 1⟩

/-- A snapshot of another writer, which appends a file and counts nothing. -/
def uncounted : Snapshot :=
  ⟨2, some 1,
    [addedManifest "m1" 1 [tenRows "f1"], ⟨"m2", .data, 2, none, none, none, none, [⟨true, .data, tenRows "f2"⟩]⟩],
    none, "append", none, []⟩

theorem tenRowTable_wellFormed : WellFormed tenRowTable where
  ids := List.nodup_singleton _
  current := fun id h => ⟨_, List.mem_singleton_self _, Option.some.inj h⟩
  paths := by simp [tenRowTable]
  immutable := by simp [tenRowTable]
  deletes := by
    intro s hs
    rw [List.mem_singleton.1 hs, deletedRows_of_data (by simp [addedManifest])]
    exact Multiset.zero_le _

theorem tenRowTable_counted : Counted tenRowTable := by
  intro s hs
  rw [List.mem_singleton.1 hs]
  exact ⟨fun m hm => List.mem_singleton.1 hm ▸ addedManifest_counted _ _ _, fun _ h => nomatch h⟩

theorem uncounted_other : OtherSnapshot tenRowTable uncounted where
  parent := rfl
  freshId := by simp [tenRowTable, uncounted]
  pathsNodup := by simp [uncounted, addedManifest]
  manifests := by
    intro m hm
    rcases List.mem_cons.1 hm with rfl | hm
    · exact Or.inl (List.mem_singleton_self _)
    · rw [List.mem_singleton.1 hm]
      exact Or.inr (by simp [tenRowTable, addedManifest])
  deletes := by
    rw [deletedRows_of_data (by simp [uncounted, addedManifest])]
    exact Multiset.zero_le _

theorem uncounted_counted : uncounted.Counted where
  list := by
    intro m hm
    rcases List.mem_cons.1 hm with rfl | hm
    · exact addedManifest_counted _ _ _
    · rw [List.mem_singleton.1 hm]
      exact fun _ t ht => nomatch ht
  summary := fun _ h => nomatch h

/-- The append lands, the attempt reads its manifest, and the rewrite commits over both. -/
theorem uncounted_carried :
    ∃ s, Run CarryStep (Carrying.start tenRowTable ⟨1, ["m1"], Lookup.empty⟩) [.lands, .carries, .forges, .commits] s ∧
      s.reader.reads = ["m2"] ∧ s.committed.map Snapshot.totals = [some ⟨20, 2, 200⟩] ∧
      ∃ of, tenRowTable.snapshotById 1 = some of ∧
        (∀ a ∈ s.attempts,
          a.kept = (a.table.currentManifests.filter fun m => m.path ∉ of.manifests.map ManifestFile.path) ∧
            a.totals = liveTotals a.kept) ∧
        s.reader.reads.Nodup ∧
        (∀ t ∈ s.committed, t.totals = some (liveTotals t.manifests)) ∧ Counted s.table := by
  have hrun : ∃ s, Run CarryStep (Carrying.start tenRowTable ⟨1, ["m1"], Lookup.empty⟩)
      [.lands, .carries, .forges, .commits] s ∧
      s.reader.reads = ["m2"] ∧ s.committed.map Snapshot.totals = [some ⟨20, 2, 200⟩] :=
    ⟨_, .cons (.lands uncounted_other uncounted_counted) (.cons (.carries rfl rfl rfl)
      (.cons (.forges (List.mem_singleton_self _) rfl)
        (.cons (@CarryStep.commits _ _ _ 3 "m3" [tenRows "f3"] ⟨"orders", "h1", "c1", "w", .rewrite⟩
          (List.mem_singleton_self _) (by simp [Carrying.start, tenRowTable, uncounted, Metadata.push])
          (by simp [Carrying.start, tenRowTable, uncounted, Metadata.push, addedManifest]) rfl) (.nil _)))), rfl, rfl⟩
  obtain ⟨s, hs, hreads, htotals⟩ := hrun
  exact ⟨s, hs, hreads, htotals,
    Carrying.carried_sums tenRowTable_wellFormed tenRowTable_counted rfl hs⟩

end Peql
