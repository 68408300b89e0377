import Peql.Iceberg.Writers
import Mathlib.Data.List.Perm.Basic

/-!
# No row is lost or duplicated

What a commit adds is computed over a copy of the table that may be old by then. A copy is `Held` while the table has
only grown since, and is at the copy's snapshot only if it has not grown; a base a write has made `Produces` the rows
the write should leave from the rows of the copy it was made of. The catalog takes a commit only at the copy's
snapshot, so each commit does to the table's rows what its write should (`commit_effect`), and the rows are the fold of
the log (`rows_fold`).
-/

namespace Peql

/-! ## Tables -/

/-- What the metadata of a table keeps: manifests are immutable and named once. -/
structure WellFormed (table : Metadata) : Prop where
  ids : (table.snapshots.map Snapshot.id).Nodup
  current : ∀ id, table.current = some id → ∃ s ∈ table.snapshots, s.id = id
  paths : ∀ s ∈ table.snapshots, (s.manifests.map ManifestFile.path).Nodup
  immutable : ∀ s ∈ table.snapshots, ∀ t ∈ table.snapshots, ∀ m ∈ s.manifests, ∀ m' ∈ t.manifests,
    m.path = m'.path → m = m'
  deletes : ∀ s ∈ table.snapshots, deletedRows s.manifests ≤ dataRows s.manifests

namespace Metadata

/-- A snapshot found is one of the table's. -/
theorem snapshotById_mem {table : Metadata} {id : Int} {s : Snapshot} (h : table.snapshotById id = some s) :
    s ∈ table.snapshots ∧ s.id = id := by
  refine ⟨List.mem_of_find?_eq_some h, ?_⟩
  simpa using List.find?_some h

/-- In a well-formed table, one of the table's is found. -/
theorem snapshotById_of_mem {table : Metadata} (h : WellFormed table) {s : Snapshot} (hs : s ∈ table.snapshots) :
    table.snapshotById s.id = some s := by
  cases hf : table.snapshotById s.id with
  | none =>
    have := List.find?_eq_none.1 hf s hs
    simp at this
  | some t =>
    obtain ⟨ht, hid⟩ := snapshotById_mem hf
    rw [List.inj_on_of_nodup_map h.ids ht hs hid]

/-- The current manifests are the current snapshot's. -/
theorem currentManifests_of_mem {table : Metadata} (h : WellFormed table) {s : Snapshot} (hs : s ∈ table.snapshots)
    (hc : table.current = some s.id) : table.currentManifests = s.manifests := by
  simp [currentManifests, currentSnapshot, hc, snapshotById_of_mem h hs]

theorem currentManifests_of_none {table : Metadata} (hc : table.current = none) : table.currentManifests = [] := by
  simp [currentManifests, currentSnapshot, hc]

/-- The current manifests are those of a snapshot of the table, when there are any. -/
theorem currentManifests_cases {table : Metadata} (h : WellFormed table) :
    (table.current = none ∧ table.currentManifests = []) ∨
      ∃ s ∈ table.snapshots, table.current = some s.id ∧ table.currentManifests = s.manifests := by
  cases hc : table.current with
  | none => exact Or.inl ⟨rfl, currentManifests_of_none hc⟩
  | some id =>
    obtain ⟨s, hs, rfl⟩ := h.current id hc
    exact Or.inr ⟨s, hs, rfl, currentManifests_of_mem h hs hc⟩

theorem push_snapshots (table : Metadata) (s : Snapshot) : (table.push s).snapshots = table.snapshots ++ [s] := rfl

theorem push_current (table : Metadata) (s : Snapshot) : (table.push s).current = some s.id := rfl

end Metadata

/-- A commit taken adds its snapshot to the table it was made over. -/
theorem updateTable_eq {table base table' : Metadata} {s : Snapshot} (h : updateTable table base s = some table') :
    table.current = base.current ∧ table' = table.push s := by
  unfold updateTable at h
  split at h
  case isTrue hc => exact ⟨hc.2, (Option.some.inj h).symm⟩
  case isFalse => exact absurd h (by simp)

namespace WellFormed

variable {table : Metadata}

/-- No more is deleted than there is. -/
theorem deletes_current (h : WellFormed table) :
    deletedRows table.currentManifests ≤ dataRows table.currentManifests := by
  rcases Metadata.currentManifests_cases h with ⟨_, hm⟩ | ⟨s, hs, _, hm⟩
  · simp [hm, deletedRows, dataRows]
  · rw [hm]
    exact h.deletes s hs

/-- A manifest of the current snapshot is a manifest of a snapshot. -/
theorem mem_current (h : WellFormed table) {m : ManifestFile} (hm : m ∈ table.currentManifests) :
    ∃ s ∈ table.snapshots, m ∈ s.manifests := by
  rcases Metadata.currentManifests_cases h with ⟨_, hnil⟩ | ⟨s, hs, _, heq⟩
  · rw [hnil] at hm
    exact absurd hm (by simp)
  · exact ⟨s, hs, heq ▸ hm⟩

/-- A snapshot of a fresh id, whose manifests are those of the current one or new, may be the next. -/
theorem push (h : WellFormed table) {s : Snapshot} (hid : ∀ t ∈ table.snapshots, t.id ≠ s.id)
    (hpaths : (s.manifests.map ManifestFile.path).Nodup)
    (hnew : ∀ m ∈ s.manifests, m ∈ table.currentManifests ∨ ∀ t ∈ table.snapshots, ∀ m' ∈ t.manifests, m'.path ≠ m.path)
    (hdel : deletedRows s.manifests ≤ dataRows s.manifests) : WellFormed (table.push s) := by
  -- A manifest of the new snapshot and one of an old snapshot, of one path, are one.
  have hold : ∀ t ∈ table.snapshots, ∀ m ∈ s.manifests, ∀ m' ∈ t.manifests, m.path = m'.path → m = m' := by
    intro t ht m hm m' hm' heq
    rcases hnew m hm with hcur | hfresh
    · obtain ⟨u, hu, hmu⟩ := h.mem_current hcur
      exact h.immutable u hu t ht m hmu m' hm' heq
    · exact absurd heq.symm (hfresh t ht m' hm')
  constructor
  · rw [Metadata.push_snapshots, List.map_append, List.nodup_append]
    refine ⟨h.ids, by simp, ?_⟩
    rintro i hi j hj rfl
    obtain ⟨t, ht, rfl⟩ := List.mem_map.1 hi
    exact hid t ht (by simpa using hj)
  · intro id hc
    exact ⟨s, by simp [Metadata.push_snapshots], by simpa [Metadata.push_current] using hc⟩
  · intro t ht
    rcases List.mem_append.1 ht with ht | ht
    · exact h.paths t ht
    · rw [List.mem_singleton.1 ht]
      exact hpaths
  · intro t ht u hu m hm m' hm' heq
    rcases List.mem_append.1 ht with ht | ht <;> rcases List.mem_append.1 hu with hu | hu
    · exact h.immutable t ht u hu m hm m' hm' heq
    · rw [List.mem_singleton.1 hu] at hm'
      exact (hold t ht m' hm' m hm heq.symm).symm
    · rw [List.mem_singleton.1 ht] at hm
      exact hold u hu m hm m' hm' heq
    · rw [List.mem_singleton.1 ht] at hm
      rw [List.mem_singleton.1 hu] at hm'
      exact List.inj_on_of_nodup_map hpaths hm hm' heq
  · intro t ht
    rcases List.mem_append.1 ht with ht | ht
    · exact h.deletes t ht
    · rw [List.mem_singleton.1 ht]
      exact hdel

end WellFormed

/-! ## Copies a write holds -/

/-- A copy of the table: the table has only grown since, and is at the copy's snapshot only if it has not grown. -/
structure Held (copy table : Metadata) : Prop where
  wellFormed : WellFormed copy
  grown : copy.snapshots <+: table.snapshots
  same : copy.current = table.current → copy.snapshots = table.snapshots

namespace Held

variable {copy table : Metadata}

theorem refl (h : WellFormed table) : Held table table := ⟨h, List.prefix_rfl, fun _ => rfl⟩

/-- The table takes another snapshot: its id is new, so it is not the copy's. -/
theorem push (h : Held copy table) {s : Snapshot} (hid : ∀ t ∈ table.snapshots, t.id ≠ s.id) :
    Held copy (table.push s) := by
  refine ⟨h.wellFormed, h.grown.trans (List.prefix_append _ _), ?_⟩
  intro hc
  obtain ⟨t, ht, heq⟩ := h.wellFormed.current s.id hc
  exact absurd heq (hid t (h.grown.subset ht))

/-- A copy that is current has the current manifests. -/
theorem currentManifests_eq (h : Held copy table) (hc : copy.current = table.current) :
    copy.currentManifests = table.currentManifests := by
  unfold Metadata.currentManifests Metadata.currentSnapshot Metadata.snapshotById
  rw [hc, h.same hc]

/-- It has the current rows. -/
theorem rows_eq (h : Held copy table) (hc : copy.current = table.current) : copy.rows = table.rows := by
  simp [Metadata.rows, h.currentManifests_eq hc]

end Held

/-! ## Bases -/

/-- The relisted snapshot is found, with its new manifests. -/
theorem find_relist (base : Int) (manifests : List ManifestFile) (totals : Totals) (ss : List Snapshot)
    (h : ss.any (fun s => s.id = base)) :
    ∃ s, (relist base manifests totals ss).find? (fun s => s.id = base) = some s ∧ s.manifests = manifests ∧
      s.totals = some totals := by
  induction ss with
  | nil => exact absurd h (by simp)
  | cons s ss ih =>
    unfold relist
    by_cases hid : s.id = base
    · exact ⟨{ s with manifests := manifests, totals := some totals }, by simp [hid], rfl, rfl⟩
    · obtain ⟨t, ht, hm⟩ := ih (by simpa [hid] using h)
      exact ⟨t, by simp [hid, ht], hm⟩

/-- The copy is at the table's snapshot, and its current manifests and their totals are those asked for. -/
theorem listing_spec {table b : Metadata} {base : Int} {manifests : List ManifestFile} {totals : Totals}
    (h : listing table base manifests totals = .ok b) (hc : table.current = some base) :
    b.current = table.current ∧ b.currentManifests = manifests ∧
      b.currentSnapshot.bind Snapshot.totals = some totals := by
  unfold listing at h
  split at h
  case isTrue hany =>
    obtain rfl := Except.ok.inj h
    obtain ⟨s, hs, hm, ht⟩ := find_relist base manifests totals table.snapshots hany
    refine ⟨rfl, ?_, ?_⟩
    · simp [Metadata.currentManifests, Metadata.currentSnapshot, Metadata.snapshotById, hc, hs, hm]
    · simp [Metadata.currentSnapshot, Metadata.snapshotById, hc, hs, ht]
  case isFalse => exact absurd h (by simp)

/-- What an overwrite appends over: a copy at the table's snapshot that lists nothing, with totals to match. -/
theorem overwriteBase_spec {table b : Metadata} {base : Option Int} (h : overwriteBase base table = .ok b) :
    b.current = table.current ∧ table.current = base ∧ b.currentManifests = [] ∧
      (b.currentSnapshot.bind Snapshot.totals).getD .zero = .zero := by
  unfold overwriteBase at h
  split at h
  case isTrue => exact absurd h (by simp)
  case isFalse hc =>
    have hc : table.current = base := not_not.1 hc
    split at h
    case h_1 =>
      obtain rfl := Except.ok.inj h
      refine ⟨rfl, hc, Metadata.currentManifests_of_none hc, ?_⟩
      simp [Metadata.currentSnapshot, hc]
    case h_2 base =>
      split at h
      case isTrue => exact absurd h (by simp)
      case isFalse =>
        obtain ⟨hcur, hm, ht⟩ := listing_spec h hc
        exact ⟨hcur, hc, hm, by rw [ht]; rfl⟩

/-- The manifests `base` lists of those of `copy`: all of them under an append, none under an overwrite, and under a
rewrite those its snapshot does not have, while every one it has is still listed. -/
def IcebergWrite.Lists (w : IcebergWrite) (copy base : Metadata) : Prop :=
  match w.kind with
  | .append => base.currentManifests = copy.currentManifests
  | .overwrite => base.currentManifests = []
  | .rewrite of => ∃ s ∈ copy.snapshots, s.id = of ∧
      (∀ p ∈ s.manifests.map ManifestFile.path, p ∈ copy.currentManifests.map ManifestFile.path) ∧
      base.currentManifests =
        copy.currentManifests.filter fun m => m.path ∉ s.manifests.map ManifestFile.path

/-- Over `base`, made of `copy`, the crate's append does to the rows of `copy` what the write should. -/
structure Produces (w : IcebergWrite) (copy base : Metadata) : Prop where
  current : base.current = copy.current
  overwrites : w.kind = .overwrite → base.current = w.base
  kept : base.currentManifests.Sublist copy.currentManifests
  lists : w.Lists copy base
  deletes : deletedRows base.currentManifests ≤ dataRows base.currentManifests
  rows : base.rows + fileRows w.files = w.effect copy.rows

/-- An append adds its rows. -/
theorem produces_append {w : IcebergWrite} {table : Metadata} (h : WellFormed table) (hk : w.kind = .append) :
    Produces w table table where
  current := rfl
  overwrites := by simp [hk]
  kept := List.Sublist.refl _
  lists := by simp [IcebergWrite.Lists, hk]
  deletes := h.deletes_current
  rows := by simp [IcebergWrite.effect, hk]

/-- An overwrite leaves its rows alone. -/
theorem produces_overwrite {w : IcebergWrite} {table b : Metadata} (hk : w.kind = .overwrite)
    (hb : overwriteBase w.base table = .ok b) : Produces w table b := by
  obtain ⟨hcur, hbase, hm, _⟩ := overwriteBase_spec hb
  constructor
  · exact hcur
  · intro _
    exact hcur.trans hbase
  · rw [hm]
    exact List.nil_sublist _
  · simp [IcebergWrite.Lists, hk, hm]
  · simp [hm, deletedRows, dataRows]
  · simp [Metadata.rows, listedRows, hm, deletedRows, dataRows, IcebergWrite.effect, hk]

/-! ## What a rewrite keeps -/

namespace Rewritten

/-- Two views of one snapshot, whatever was read. -/
def SameSnapshot (r r' : Rewritten) : Prop := r'.snapshot = r.snapshot ∧ r'.manifests = r.manifests

theorem SameSnapshot.refl (r : Rewritten) : SameSnapshot r r := ⟨rfl, rfl⟩

theorem SameSnapshot.trans {a b c : Rewritten} (h : SameSnapshot a b) (h' : SameSnapshot b c) : SameSnapshot a c :=
  ⟨h'.1.trans h.1, h'.2.trans h.2⟩

/-- Reading a manifest changes nothing else of what is known. -/
theorem scan_same {r r' : Rewritten} {m : ManifestFile} {t : Totals} (h : r.scan m = .ok (r', t)) :
    SameSnapshot r r' := by
  unfold scan at h
  split at h
  case h_1 =>
    obtain ⟨rfl, _⟩ := Prod.mk.inj (Except.ok.inj h)
    exact .refl r
  case h_2 =>
    split at h
    case h_1 => exact absurd h (by simp)
    case h_2 =>
      obtain ⟨rfl, _⟩ := Prod.mk.inj (Except.ok.inj h)
      exact ⟨rfl, rfl⟩

theorem scanBytes_same {ms : List ManifestFile} : ∀ {r r' : Rewritten} {n : Nat}, r.scanBytes ms = .ok (r', n) →
    SameSnapshot r r' := by
  induction ms with
  | nil =>
    intro r r' n h
    obtain ⟨rfl, _⟩ := Prod.mk.inj (Except.ok.inj h)
    exact .refl r
  | cons m ms ih =>
    intro r r' n h
    obtain ⟨⟨r₁, seen⟩, hs, h⟩ := bind_eq_ok.1 h
    obtain ⟨⟨r₂, bytes⟩, hb, h⟩ := bind_eq_ok.1 h
    obtain ⟨rfl, _⟩ := Prod.mk.inj (Except.ok.inj h)
    exact (scan_same hs).trans (ih hb)

/-- What is counted is all data files, and counting changes neither the snapshot nor its manifests. -/
theorem countCarried_spec {refused : String → PeqlError} {ms : List ManifestFile} :
    ∀ {r r' : Rewritten} {totals : Totals} {counted : List ManifestFile},
      r.countCarried refused ms = .ok (r', totals, counted) → (∀ m ∈ ms, m.content = .data) ∧ SameSnapshot r r' := by
  induction ms with
  | nil =>
    intro r r' totals counted h
    obtain ⟨rfl, _⟩ := Prod.mk.inj (Except.ok.inj h)
    exact ⟨by simp, .refl r⟩
  | cons m ms ih =>
    intro r r' totals counted h
    -- Each branch that returns goes on with the rest from a view of the same snapshot.
    have hrest : m.content = .data ∧
        ∃ r₁ t c, SameSnapshot r r₁ ∧ r₁.countCarried refused ms = .ok (r', t, c) := by
      unfold countCarried at h
      split at h
      case isTrue => exact absurd h (by simp)
      case isFalse hdata =>
        refine ⟨not_not.1 hdata, ?_⟩
        split at h
        case h_1 =>
          obtain ⟨⟨r₂, t, c⟩, hc, h⟩ := bind_eq_ok.1 h
          obtain ⟨rfl, _⟩ := Prod.mk.inj (Except.ok.inj h)
          exact ⟨r, t, c, .refl r, hc⟩
        case h_2 =>
          split at h
          case h_1 =>
            obtain ⟨⟨r₂, t, c⟩, hc, h⟩ := bind_eq_ok.1 h
            obtain ⟨rfl, _⟩ := Prod.mk.inj (Except.ok.inj h)
            exact ⟨r, t, c, .refl r, hc⟩
          case h_2 =>
            split at h
            case h_1 => exact absurd h (by simp)
            case h_2 => exact absurd h (by simp)
            case h_3 r₁ seen hs =>
              obtain ⟨⟨r₂, t, c⟩, hc, h⟩ := bind_eq_ok.1 h
              obtain ⟨rfl, _⟩ := Prod.mk.inj (Except.ok.inj h)
              exact ⟨r₁, t, c, scan_same hs, hc⟩
    obtain ⟨hdata, r₁, t, c, hsame, hq⟩ := hrest
    obtain ⟨hms, hsame'⟩ := ih hq
    refine ⟨?_, hsame.trans hsame'⟩
    intro m' hm'
    rcases List.mem_cons.1 hm' with rfl | hm'
    · exact hdata
    · exact hms m' hm'

/-- What a rewrite keeps of snapshot `now`: every manifest that is not the rewritten snapshot's, all of them data, with
every manifest of the rewritten snapshot still listed. -/
theorem carried_spec {r r' : Rewritten} {table : Metadata} {now : Int} {kept : List ManifestFile} {totals : Totals}
    (h : r.carried table now = .ok (r', kept, totals)) :
    SameSnapshot r r' ∧ ∃ s, table.snapshotById now = some s ∧
      (∀ p ∈ r.manifests, p ∈ s.manifests.map ManifestFile.path) ∧
      kept = s.manifests.filter (fun m => m.path ∉ r.manifests) ∧ ∀ m ∈ kept, m.content = .data := by
  unfold carried at h
  split at h
  case h_1 => exact absurd h (by simp)
  case h_2 since _ =>
    split at h
    case h_1 => exact absurd h (by simp)
    case h_2 s hs =>
      split at h
      case h_1 => exact absurd h (by simp)
      case h_2 hgone =>
        have hlisted : ∀ p ∈ r.manifests, p ∈ s.manifests.map ManifestFile.path := by
          intro p hp
          have := List.find?_eq_none.1 hgone p hp
          simpa using this
        obtain ⟨⟨r₁, t, counted⟩, hc, h⟩ := bind_eq_ok.1 h
        obtain ⟨hdata, hsame⟩ := countCarried_spec hc
        -- Only the bytes are left to find.
        have hread : SameSnapshot r₁ r' ∧ kept = s.manifests.filter (fun m => m.path ∉ r.manifests) := by
          have hbytes : ∀ {t : Totals}, (do
              let read ← r₁.scanBytes counted
              .ok (read.1, s.manifests.filter (fun m => m.path ∉ r.manifests), { t with bytes := t.bytes + read.2 }) :
                Except PeqlError _) = .ok (r', kept, totals) →
              SameSnapshot r₁ r' ∧ kept = s.manifests.filter (fun m => m.path ∉ r.manifests) := by
            intro t h
            obtain ⟨⟨r₂, bytes⟩, hb, h⟩ := bind_eq_ok.1 h
            obtain ⟨rfl, hk⟩ := Prod.mk.inj (Except.ok.inj h)
            exact ⟨scanBytes_same hb, (Prod.mk.inj hk).1.symm⟩
          dsimp only at h
          split at h
          case h_1 =>
            split at h
            case isTrue =>
              obtain ⟨rfl, hk⟩ := Prod.mk.inj (Except.ok.inj h)
              exact ⟨.refl _, (Prod.mk.inj hk).1.symm⟩
            case isFalse => exact hbytes h
          case h_2 => exact hbytes h
        obtain ⟨hsame', rfl⟩ := hread
        exact ⟨hsame.trans hsame', s, hs, hlisted, rfl, hdata⟩

end Rewritten

/-- The rows do not depend on the manifests' order. -/
theorem dataRows_perm {a b : List ManifestFile} (h : a.Perm b) : dataRows a = dataRows b :=
  ((h.filter _).map _).sum_eq

/-- Nor do those deleted. -/
theorem deletedRows_perm {a b : List ManifestFile} (h : a.Perm b) : deletedRows a = deletedRows b :=
  ((h.filter _).map _).sum_eq

/-- While every manifest of `s` is still listed by `t`, `t` lists those of `s` and the ones not named as one of them. -/
theorem manifests_split {table : Metadata} (h : WellFormed table) {s t : Snapshot} (hs : s ∈ table.snapshots)
    (ht : t ∈ table.snapshots)
    (hlisted : ∀ p ∈ s.manifests.map ManifestFile.path, p ∈ t.manifests.map ManifestFile.path) :
    t.manifests.Perm
      (s.manifests ++ t.manifests.filter fun m => m.path ∉ s.manifests.map ManifestFile.path) := by
  have hof : (t.manifests.filter fun m => m.path ∈ s.manifests.map ManifestFile.path).Perm s.manifests := by
    rw [List.perm_ext_iff_of_nodup ((h.paths t ht).of_map.filter _) (h.paths s hs).of_map]
    intro m
    rw [List.mem_filter, decide_eq_true_iff]
    constructor
    · rintro ⟨hm, hp⟩
      obtain ⟨m', hm', heq⟩ := List.mem_map.1 hp
      rw [← h.immutable s hs t ht m' hm' m hm heq]
      exact hm'
    · intro hm
      obtain ⟨m', hm', heq⟩ := List.mem_map.1 (hlisted m.path (List.mem_map_of_mem hm))
      refine ⟨?_, List.mem_map_of_mem hm⟩
      rw [← h.immutable t ht s hs m' hm' m hm heq]
      exact hm'
  have hsplit :=
      List.filter_append_perm (fun m : ManifestFile => m.path ∈ s.manifests.map ManifestFile.path) t.manifests
  simp only [decide_not]
  exact hsplit.symm.trans (hof.append_right _)

/-- A rewrite's copy of its snapshot, and the files it wrote of it. -/
structure Copies (w : IcebergWrite) (r : Rewritten) (table : Metadata) (s : Snapshot) : Prop where
  kind : w.kind = .rewrite s.id
  mem : s ∈ table.snapshots
  rows : fileRows w.files = s.rows
  manifests : r.manifests = s.manifests.map ManifestFile.path

/-- The base a rewrite makes of a table that still lists the manifests of its snapshot. -/
theorem produces_rewrite {w : IcebergWrite} {table b : Metadata} {r r' : Rewritten} {s : Snapshot}
    (h : WellFormed table) (hs : Copies w r table s)
    (hb : rewriteBase r table = .ok (r', b)) : Produces w table b ∧ Copies w r' table s := by
  unfold rewriteBase at hb
  obtain ⟨now, hnow, hb⟩ := bind_eq_ok.1 hb
  obtain ⟨⟨r₁, kept, totals⟩, hcarried, hb⟩ := bind_eq_ok.1 hb
  obtain ⟨b', hlist, hb⟩ := bind_eq_ok.1 hb
  obtain ⟨rfl, rfl⟩ := Prod.mk.inj (Except.ok.inj hb)
  have hcur : table.current = some now := by
    unfold currentWhileRewriting at hnow
    split at hnow
    case h_1 heq => rw [heq, Except.ok.inj hnow]
    case h_2 => exact absurd hnow (by simp)
  obtain ⟨hsame, t, ht, hlisted, rfl, hdata⟩ := Rewritten.carried_spec hcarried
  obtain ⟨htm, rfl⟩ := Metadata.snapshotById_mem ht
  obtain ⟨hbcur, hbm, _⟩ := listing_spec hlist hcur
  rw [hs.manifests] at hlisted hbm hdata
  have hperm := manifests_split h hs.mem htm hlisted
  have hcurm := Metadata.currentManifests_of_mem h htm hcur
  constructor
  · constructor
    · exact hbcur
    · simp [hs.kind]
    · rw [hbm, hcurm]
      exact List.filter_sublist
    · unfold IcebergWrite.Lists
      rw [hs.kind, hbm, hcurm]
      exact ⟨s, hs.mem, rfl, hlisted, rfl⟩
    · rw [hbm, deletedRows_of_data hdata]
      exact Multiset.zero_le _
    · -- The rows there are: those of the rewritten snapshot and those added since.
      have hrows : table.rows = s.rows + dataRows b'.currentManifests := by
        unfold Metadata.rows Snapshot.rows
        rw [hcurm, hbm]
        unfold listedRows
        rw [dataRows_perm hperm, deletedRows_perm hperm]
        exact listedRows_append_data (h.deletes s hs.mem) hdata
      have hkept : b'.rows = dataRows b'.currentManifests := by
        unfold Metadata.rows listedRows
        rw [hbm, deletedRows_of_data hdata, tsub_zero]
      simp only [IcebergWrite.effect, hs.kind]
      rw [hrows, hkept, hs.rows, add_comm]
  · exact ⟨hs.kind, hs.mem, hs.rows, hsame.2.trans hs.manifests⟩

/-! ## Commits -/

/-- An append over a base that lists some of the current manifests, under an id and a path of its own, may be the next
snapshot. -/
theorem WellFormed.fastAppend {table base : Metadata} (h : WellFormed table)
    (hsub : base.currentManifests.Sublist table.currentManifests)
    (hdel : deletedRows base.currentManifests ≤ dataRows base.currentManifests) {id : Int} {path : String}
    (hid : ∀ t ∈ table.snapshots, t.id ≠ id) (hpath : ∀ t ∈ table.snapshots, ∀ m ∈ t.manifests, m.path ≠ path)
    (files : List TableFile) (summary : Summary) :
    WellFormed (table.push (Peql.fastAppend base id path files summary)) := by
  have hdata : ∀ m ∈ [addedManifest path id files], m.content = .data := by
    intro m hm
    rw [List.mem_singleton.1 hm]
    rfl
  apply h.push hid
  · show ((base.currentManifests ++ [addedManifest path id files]).map ManifestFile.path).Nodup
    rw [List.map_append, List.nodup_append]
    have hcurPaths : (table.currentManifests.map ManifestFile.path).Nodup := by
      rcases Metadata.currentManifests_cases h with ⟨_, hm⟩ | ⟨s, hs, _, hm⟩
      · simp [hm]
      · rw [hm]
        exact h.paths s hs
    refine ⟨hcurPaths.sublist (hsub.map _), by simp, ?_⟩
    rintro p hp' q hq rfl
    obtain ⟨m, hm, rfl⟩ := List.mem_map.1 hp'
    obtain ⟨t, ht, hmt⟩ := h.mem_current (hsub.subset hm)
    exact hpath t ht m hmt (by simpa [addedManifest] using hq)
  · intro m hm
    rcases List.mem_append.1 hm with hm | hm
    · exact Or.inl (hsub.subset hm)
    · right
      intro t ht m' hm'
      rw [List.mem_singleton.1 hm]
      exact hpath t ht m' hm'
  · show deletedRows (base.currentManifests ++ [addedManifest path id files]) ≤
      dataRows (base.currentManifests ++ [addedManifest path id files])
    rw [deletedRows_append, dataRows_append, deletedRows_of_data hdata, add_zero]
    exact hdel.trans (Multiset.le_add_right _ _)

/-- A commit the catalog takes does to the rows of the table what its write should. -/
theorem commit_effect {w : IcebergWrite} {table copy base table' : Metadata} {id : Int} {path : String}
    (h : WellFormed table) (hheld : Held copy table) (hp : Produces w copy base)
    (hid : ∀ t ∈ table.snapshots, t.id ≠ id)
    (hpath : ∀ t ∈ table.snapshots, ∀ m ∈ t.manifests, m.path ≠ path)
    (htaken : updateTable table base (fastAppend base id path w.files w.summary) = some table') :
    base.current = table.current ∧ table' = table.push (fastAppend base id path w.files w.summary) ∧
      WellFormed table' ∧ table'.rows = w.effect table.rows := by
  obtain ⟨hcur, rfl⟩ := updateTable_eq htaken
  have hcopy : copy.current = table.current := hp.current.symm.trans hcur.symm
  have hsub : base.currentManifests.Sublist table.currentManifests := by
    rw [← hheld.currentManifests_eq hcopy]
    exact hp.kept
  have hdata : ∀ m ∈ [addedManifest path id w.files], m.content = .data := by
    intro m hm
    rw [List.mem_singleton.1 hm]
    rfl
  have hwf := h.fastAppend hsub hp.deletes hid hpath w.files w.summary
  refine ⟨hcur.symm, rfl, hwf, ?_⟩
  calc (table.push (fastAppend base id path w.files w.summary)).rows
      = listedRows (base.currentManifests ++ [addedManifest path id w.files]) := by
        unfold Metadata.rows
        rw [Metadata.currentManifests_of_mem hwf (by simp [Metadata.push_snapshots]) (Metadata.push_current _ _)]
        rfl
    _ = base.rows + fileRows w.files := by
        rw [listedRows_append_data hp.deletes hdata, addedManifest_rows]
        rfl
    _ = w.effect table.rows := by rw [hp.rows, hheld.rows_eq hcopy]

/-! ## Steps -/

/-- What a write holds of the table, by its phase. -/
def Phase.Ready (w : IcebergWrite) (table : Metadata) : Phase → Prop
  | .written => ∀ of, w.kind = .rewrite of → ∃ s ∈ table.snapshots, s.id = of ∧ fileRows w.files = s.rows
  | .opened r | .attempt r => ∃ s, Copies w r table s
  | .forged base r | .producing base r =>
    (∃ copy, Held copy table ∧ Produces w copy base) ∧
      ∀ r', r = some r' → ∃ s, Copies w r' table s
  | .committed _ | .failed _ => True

/-- A table that has grown leaves a write what it holds. -/
theorem Phase.Ready.grown {w : IcebergWrite} {table table' : Metadata} {p : Phase}
    (hheld : ∀ copy, Held copy table → Held copy table') (hsub : table.snapshots ⊆ table'.snapshots)
    (h : p.Ready w table) : p.Ready w table' := by
  have hcopies : ∀ {r : Rewritten}, (∃ s, Copies w r table s) → ∃ s, Copies w r table' s := by
    rintro r ⟨s, hs⟩
    exact ⟨s, hs.kind, hsub hs.mem, hs.rows, hs.manifests⟩
  cases p with
  | written =>
    intro of hk
    obtain ⟨s, hs, hrest⟩ := h of hk
    exact ⟨s, hsub hs, hrest⟩
  | opened r => exact hcopies h
  | attempt r => exact hcopies h
  | forged base r =>
    obtain ⟨⟨copy, hcopy, hp⟩, hr⟩ := h
    exact ⟨⟨copy, hheld copy hcopy, hp⟩, fun r' hr' => hcopies (hr r' hr')⟩
  | producing base r =>
    obtain ⟨⟨copy, hcopy, hp⟩, hr⟩ := h
    exact ⟨⟨copy, hheld copy hcopy, hp⟩, fun r' hr' => hcopies (hr r' hr')⟩
  | committed id => exact trivial
  | failed e => exact trivial

/-- A pinned table is its base. -/
theorem pinned_ok {write : String} {base table b : Metadata} (h : pinned write base table = .ok b) : b = base := by
  unfold pinned at h
  split at h
  case isTrue => exact absurd h (by simp)
  case isFalse =>
    split at h
    case isTrue => exact absurd h (by simp)
    case isFalse => exact (Except.ok.inj h).symm

/-- A rewrite knows the manifests of its snapshot. -/
theorem rewriteBegin_spec {table : Metadata} {of : Int} {r : Rewritten} (h : rewriteBegin table of = .ok r) :
    ∃ s ∈ table.snapshots, s.id = of ∧ r.manifests = s.manifests.map ManifestFile.path := by
  unfold rewriteBegin Rewritten.of at h
  split at h
  case isTrue => exact absurd h (by simp)
  case isFalse =>
    split at h
    case h_1 => exact absurd h (by simp)
    case h_2 s hs =>
      obtain rfl := Except.ok.inj h
      obtain ⟨hmem, hid⟩ := Metadata.snapshotById_mem hs
      exact ⟨s, hmem, hid, rfl⟩

/-- Reading what was appended since changes no more than what is known of it. -/
theorem rewriteRead_same {r r' : Rewritten} {table : Metadata} (h : rewriteRead r table = .ok r') :
    r.SameSnapshot r' := by
  unfold rewriteRead at h
  obtain ⟨now, _, h⟩ := bind_eq_ok.1 h
  obtain ⟨⟨r₁, kept, totals⟩, hc, h⟩ := bind_eq_ok.1 h
  obtain rfl := Except.ok.inj h
  exact (Rewritten.carried_spec hc).1

/-- A load of the table leaves the write holding what its next phase needs. -/
theorem load_ready {w : IcebergWrite} {table : Metadata} {p p' : Phase} (hwf : WellFormed table)
    (h : p.Ready w table) (hload : load w table p = some p') : p'.Ready w table ∧ ∀ id, p' ≠ .committed id := by
  have hsettle : ∀ {α : Type} {next : α → Phase} {x : Except PeqlError α}, some (settle next x) = some p' →
      (∀ a, x = .ok a → (next a).Ready w table ∧ ∀ id, next a ≠ .committed id) →
      p'.Ready w table ∧ ∀ id, p' ≠ .committed id := by
    intro α next x hx hnext
    obtain rfl := Option.some.inj hx
    cases x with
    | ok a => exact hnext a rfl
    | error e => exact ⟨trivial, by simp [settle]⟩
  cases p with
  | written =>
    cases hk : w.kind with
    | append =>
      simp only [load, hk] at hload
      obtain rfl := Option.some.inj hload
      exact ⟨⟨⟨table, .refl hwf, produces_append hwf hk⟩, by simp⟩, by simp⟩
    | overwrite =>
      simp only [load, hk] at hload
      refine hsettle hload fun base hb => ⟨⟨⟨table, .refl hwf, produces_overwrite hk hb⟩, by simp⟩, by simp⟩
    | rewrite of =>
      simp only [load, hk] at hload
      refine hsettle hload fun r hr => ⟨?_, by simp⟩
      obtain ⟨s, hs, hid, hm⟩ := rewriteBegin_spec hr
      obtain ⟨s', hs', hid', hrows⟩ := h of hk
      obtain rfl := List.inj_on_of_nodup_map hwf.ids hs hs' (hid.trans hid'.symm)
      exact ⟨s, hid ▸ hk, hs, hrows, hm⟩
  | opened r =>
    obtain ⟨s, hs⟩ := h
    refine hsettle hload fun r' hr' => ⟨⟨s, hs.kind, hs.mem, hs.rows, ?_⟩, by simp⟩
    exact (rewriteRead_same hr').2.trans hs.manifests
  | attempt r =>
    obtain ⟨s, hs⟩ := h
    refine hsettle hload fun q hq => ?_
    obtain ⟨r', base⟩ := q
    obtain ⟨hp, hs'⟩ := produces_rewrite hwf hs hq
    refine ⟨⟨⟨table, .refl hwf, hp⟩, ?_⟩, by simp⟩
    intro r₁ hr₁
    obtain rfl := Option.some.inj hr₁
    exact ⟨s, hs'⟩
  | forged base r =>
    cases r with
    | none =>
      simp only [load] at hload
      split at hload
      case h_1 b hb =>
        obtain rfl := Option.some.inj hload
        rw [pinned_ok hb]
        exact ⟨h, by simp⟩
      case h_2 =>
        obtain rfl := Option.some.inj hload
        exact ⟨trivial, by simp⟩
    | some r =>
      simp only [load] at hload
      split at hload
      case h_1 b hb =>
        obtain rfl := Option.some.inj hload
        rw [pinned_ok hb]
        exact ⟨h, by simp⟩
      case h_2 =>
        obtain rfl := Option.some.inj hload
        exact ⟨h.2 r rfl, by simp⟩
  | producing base r => exact absurd hload (by simp [load])
  | committed id => exact absurd hload (by simp [load])
  | failed e => exact absurd hload (by simp [load])

/-- A commit the catalog refuses leaves the write what its next attempt needs. -/
theorem afterConflict_ready {w : IcebergWrite} {table base : Metadata} {r : Option Rewritten} (why : String)
    (h : (Phase.producing base r).Ready w table) :
    (afterConflict w base r why).Ready w table ∧ ∀ id, afterConflict w base r why ≠ .committed id := by
  unfold afterConflict
  split
  case h_1 hk => exact ⟨by simp [Phase.Ready, hk], by simp⟩
  case h_2 r _ => exact ⟨h.2 r rfl, by simp⟩
  case h_3 => exact ⟨trivial, by simp⟩

/-! ## Runs -/

/-- What holds of a table, the writes on it and the log, since the table was `start`. -/
structure Inv (start : Metadata) (s : World) : Prop where
  wellFormed : WellFormed s.table
  ready : ∀ n w p, s.writers n = some ⟨w, p⟩ → p.Ready w s.table
  rows : s.table.rows = s.log.foldl Commit.effect start.rows
  history : s.table.snapshots.map Snapshot.id = start.snapshots.map Snapshot.id ++ s.log.map Commit.snapshot
  logged : ∀ n w id, s.writers n = some ⟨w, .committed id⟩ ↔ Commit.peql n w id ∈ s.log
  once : (s.log.filterMap Commit.writer).Nodup
  bases : (s.log.filterMap Commit.overwrote).Nodup
  passed : ∀ b ∈ s.log.filterMap Commit.overwrote, b ≠ s.table.current ∧
    ∀ id, b = some id → ∃ t ∈ s.table.snapshots, t.id = id

namespace Inv

variable {start : Metadata} {s : World}

/-- A write that had not committed moves to a phase it is ready for, other than committed. -/
theorem setWriter (h : Inv start s) {n : Nat} {w : IcebergWrite} {p : Phase}
    (hold : ∀ w id, s.writers n ≠ some ⟨w, .committed id⟩) (hp : p.Ready w s.table) (hnew : ∀ id, p ≠ .committed id) :
    Inv start (s.put n w p) where
  wellFormed := h.wellFormed
  ready := by
    intro n' w' p' hn'
    by_cases hn : n' = n
    · subst hn
      rw [World.put_self] at hn'
      obtain ⟨rfl, rfl⟩ := Writer.mk.inj (Option.some.inj hn')
      exact hp
    · rw [World.put_of_ne _ _ _ hn] at hn'
      exact h.ready n' w' p' hn'
  rows := h.rows
  history := h.history
  logged := by
    intro n' w' id
    show _ ↔ Commit.peql n' w' id ∈ s.log
    rw [← h.logged]
    by_cases hn : n' = n
    · subst hn
      rw [World.put_self]
      constructor
      · intro heq
        exact absurd (Writer.mk.inj (Option.some.inj heq)).2 (hnew id)
      · intro heq
        exact absurd heq (hold w' id)
    · rw [World.put_of_ne _ _ _ hn]
  once := h.once
  bases := h.bases
  passed := h.passed

/-- The table takes a snapshot of a new id, and the log its commit. -/
theorem push (h : Inv start s) {snap : Snapshot} {c : Commit} {writers : Lookup Nat Writer}
    (hid : ∀ t ∈ s.table.snapshots, t.id ≠ snap.id) (hc : c.snapshot = snap.id)
    (hwf : WellFormed (s.table.push snap)) (hrows : (s.table.push snap).rows = c.effect s.table.rows)
    (hover : ∀ b, c.overwrote = some b → b = s.table.current)
    (hwriter : ∀ n, c.writer = some n → ∀ w id, s.writers n ≠ some ⟨w, .committed id⟩)
    (hready : ∀ n w p, writers n = some ⟨w, p⟩ → p.Ready w (s.table.push snap))
    (hlogged : ∀ n w id, writers n = some ⟨w, .committed id⟩ ↔
      s.writers n = some ⟨w, .committed id⟩ ∨ c = .peql n w id) :
    Inv start ⟨s.table.push snap, writers, s.log ++ [c]⟩ where
  wellFormed := hwf
  ready := hready
  rows := by
    show (s.table.push snap).rows = (s.log ++ [c]).foldl Commit.effect start.rows
    rw [hrows, List.foldl_append, ← h.rows]
    rfl
  history := by
    show (s.table.snapshots ++ [snap]).map Snapshot.id = _
    rw [List.map_append, h.history, List.map_append, List.append_assoc, List.map_singleton, List.map_singleton, hc]
  logged := by
    intro n w id
    rw [hlogged, h.logged, List.mem_append, List.mem_singleton]
    exact or_congr_right eq_comm
  once := by
    show ((s.log ++ [c]).filterMap Commit.writer).Nodup
    rw [List.filterMap_append, List.nodup_append]
    refine ⟨h.once, by cases hw : c.writer <;> simp [hw], ?_⟩
    rintro n hn m hm rfl
    have hcw : c.writer = some n := by simpa using hm
    obtain ⟨c', hc', hcn⟩ := List.mem_filterMap.1 hn
    cases c' with
    | peql n' w id =>
      obtain rfl := Option.some.inj hcn
      exact hwriter n' hcw w id ((h.logged n' w id).2 hc')
    | other rows id => exact absurd hcn (by simp [Commit.writer])
  bases := by
    show ((s.log ++ [c]).filterMap Commit.overwrote).Nodup
    rw [List.filterMap_append, List.nodup_append]
    refine ⟨h.bases, by cases hw : c.overwrote <;> simp [hw], ?_⟩
    rintro b hb b' hb' rfl
    have hcb : c.overwrote = some b := by simpa using hb'
    exact (h.passed b hb).1 (hover b hcb)
  passed := by
    intro b hb
    have hold : ∀ id, b = some id → ∃ t ∈ s.table.snapshots, t.id = id := by
      have hb' : b ∈ s.log.filterMap Commit.overwrote ∨ c.overwrote = some b := by
        simpa [List.filterMap_append] using hb
      rcases hb' with hb' | hb'
      · exact (h.passed b hb').2
      · intro id hid'
        exact h.wellFormed.current id ((hover b hb').symm.trans hid')
    constructor
    · rintro rfl
      obtain ⟨t, ht, heq⟩ := hold snap.id rfl
      exact hid t ht heq
    · intro id hb'
      obtain ⟨t, ht, heq⟩ := hold id hb'
      exact ⟨t, List.mem_append_left _ ht, heq⟩

/-- Each step keeps it. -/
theorem step {a : Action} {t : World} (h : Inv start s) (hstep : Step s a t) : Inv start t := by
  have hgrow : ∀ {snap : Snapshot}, (∀ t ∈ s.table.snapshots, t.id ≠ snap.id) → ∀ {w : IcebergWrite} {p : Phase},
      p.Ready w s.table → p.Ready w (s.table.push snap) := by
    intro snap hid w p hp
    exact hp.grown (fun copy hc => hc.push hid) (List.subset_append_left _ _)
  cases hstep with
  | @begins n w fresh hw =>
    apply h.setWriter
    · simp [fresh]
    · exact hw.copies
    · simp
  | @loads n w p p' holds hp =>
    obtain ⟨hready, hnew⟩ := load_ready h.wellFormed (h.ready n w p holds) hp
    apply h.setWriter _ hready hnew
    intro w' id heq
    obtain ⟨_, rfl⟩ := Writer.mk.inj (Option.some.inj (holds.symm.trans heq))
    exact absurd hp (by simp [load])
  | @commits n w base table r id path holds freshId freshPath taken =>
    obtain ⟨⟨copy, hcopy, hp⟩, _⟩ := h.ready n w _ holds
    obtain ⟨hcur, rfl, hwf, hrows⟩ := commit_effect h.wellFormed hcopy hp freshId freshPath taken
    apply h.push (c := .peql n w id) freshId rfl hwf hrows
    · intro b hb
      by_cases hk : w.kind = .overwrite
      · have hb : some w.base = some b := by simpa [Commit.overwrote, hk] using hb
        rw [← Option.some.inj hb, ← hp.overwrites hk, hcur]
      · simp [Commit.overwrote, hk] at hb
    · intro m hm w' id' heq
      obtain rfl := Option.some.inj hm
      exact absurd (holds.symm.trans heq) (by simp)
    · intro m w' p hm
      by_cases hn : m = n
      · subst hn
        have hm := (s.put_self m w (.committed id)).symm.trans hm
        obtain ⟨rfl, rfl⟩ := Writer.mk.inj (Option.some.inj hm)
        exact trivial
      · exact hgrow freshId (h.ready m w' p ((s.put_of_ne w (.committed id) hn).symm.trans hm))
    · intro m w' id'
      by_cases hn : m = n
      · subst hn
        rw [World.put_self, holds]
        simp
      · rw [World.put_of_ne _ _ _ hn]
        simp [Ne.symm hn]
  | @conflicts n w base r id path why holds refused =>
    obtain ⟨hready, hnew⟩ := afterConflict_ready why (h.ready n w _ holds)
    apply h.setWriter _ hready hnew
    intro w' id' heq
    exact absurd (holds.symm.trans heq) (by simp)
  | @fails n w p e holds going =>
    apply h.setWriter (p := .failed e) _ trivial (by simp)
    intro w' id heq
    obtain ⟨_, rfl⟩ := Writer.mk.inj (Option.some.inj (holds.symm.trans heq))
    exact absurd going (by simp [Phase.done])
  | evolves schema =>
    -- Nothing here reads the schema.
    have hgrown : ∀ {w : IcebergWrite} {p : Phase}, p.Ready w s.table →
        p.Ready w { s.table with schema := schema } := by
      intro w p hp
      have hheld : ∀ copy, Held copy s.table → Held copy { s.table with schema := schema } := by
        intro copy hc
        exact ⟨hc.wellFormed, hc.grown, hc.same⟩
      exact hp.grown hheld (List.Subset.refl _)
    exact ⟨⟨h.wellFormed.ids, h.wellFormed.current, h.wellFormed.paths, h.wellFormed.immutable, h.wellFormed.deletes⟩,
      fun n w p hn => hgrown (h.ready n w p hn), h.rows, h.history, h.logged, h.once, h.bases, h.passed⟩
  | @others snap hs =>
    have hwf : WellFormed (s.table.push snap) := h.wellFormed.push hs.freshId hs.pathsNodup hs.manifests hs.deletes
    refine h.push (c := .other snap.rows snap.id) hs.freshId rfl hwf ?_ ?_ ?_ ?_ ?_
    · unfold Metadata.rows
      rw [Metadata.currentManifests_of_mem hwf (by simp [Metadata.push_snapshots]) (Metadata.push_current _ _)]
      rfl
    · simp [Commit.overwrote]
    · simp [Commit.writer]
    · intro n w p hn
      exact hgrow hs.freshId (h.ready n w p hn)
    · simp

end Inv

/-- A table no write has begun on. -/
structure Starts (s : World) : Prop where
  wellFormed : WellFormed s.table
  idle : ∀ n, s.writers n = none
  log : s.log = []

/-- The invariant holds at first. -/
theorem Starts.inv {s : World} (h : Starts s) : Inv s.table s where
  wellFormed := h.wellFormed
  ready := by simp [h.idle]
  rows := by simp [h.log]
  history := by simp [h.log]
  logged := by simp [h.idle, h.log]
  once := by simp [h.log]
  bases := by simp [h.log]
  passed := by simp [h.log]

/-- **No row is lost or duplicated**: after any steps of any writers of a table, its rows are the fold of what was
committed; the snapshots since are one for each commit, in order; a write has committed exactly when it is in the log,
and is there once; and of the overwrites begun from one snapshot at most one has committed. -/
theorem rows_fold {start s : World} {as : List Action} (h : Starts start) (hrun : Runs.Run Step start as s) :
    s.table.rows = s.log.foldl Commit.effect start.table.rows ∧
      s.table.snapshots.map Snapshot.id = start.table.snapshots.map Snapshot.id ++ s.log.map Commit.snapshot ∧
      (∀ n w id, s.writers n = some ⟨w, .committed id⟩ ↔ Commit.peql n w id ∈ s.log) ∧
      (s.log.filterMap Commit.writer).Nodup ∧
      (s.log.filterMap Commit.overwrote).Nodup := by
  have hinv : Inv start.table s := hrun.inv (fun _ _ _ hi hs => hi.step hs) h.inv
  exact ⟨hinv.rows, hinv.history, hinv.logged, hinv.once, hinv.bases⟩

/-- A table of no snapshot, and no write. -/
def newTable : World := ⟨⟨"db.readings", "4f1c", 2, [], [], none⟩, Lookup.empty, []⟩

/-- An append to it of one file of one row. -/
def appendOne (id : String) (value : Int) : IcebergWrite :=
  ⟨id, .append, none, "readings", "c0", "k0", [⟨"data/" ++ id ++ "/0.parquet", 1, 100, {[("n", .int value)]}⟩]⟩

theorem newTable_starts : Starts newTable where
  wellFormed := ⟨by simp [newTable], by simp [newTable], by simp [newTable], by simp [newTable], by simp [newTable]⟩
  idle := fun _ => rfl
  log := rfl

/-- Two appends over one base: the second is refused, loads the first's snapshot and commits over it. -/
theorem rows_fold_two_appends :
    ∃ s, Runs.Run Step newTable
        [.begins 0, .begins 1, .loads 0, .loads 1, .commits 0, .conflicts 1, .loads 1, .commits 1] s ∧
      s.table.rows = {[("n", .int 1)], [("n", .int 2)]} ∧ s.table.snapshots.map Snapshot.id = [7, 8] := by
  let a := appendOne "a" 1
  let b := appendOne "b" 2
  let s₁ := (newTable.put 0 a .written).put 1 b .written
  let s₂ := (s₁.put 0 a (.producing newTable.table none)).put 1 b (.producing newTable.table none)
  let t₁ := newTable.table.push (fastAppend newTable.table 7 "m7" a.files a.summary)
  let s₃ := (s₂.commit 0 a 7 t₁).put 1 b .written
  let s₄ := s₃.put 1 b (.producing t₁ none)
  let t₂ := t₁.push (fastAppend t₁ 8 "m8" b.files b.summary)
  have hrun : Runs.Run Step newTable
      [.begins 0, .begins 1, .loads 0, .loads 1, .commits 0, .conflicts 1, .loads 1, .commits 1]
      (s₄.commit 1 b 8 t₂) := by
    refine .cons (@Step.begins _ 0 a rfl ⟨rfl, by simp [a, appendOne]⟩) ?_
    refine .cons (@Step.begins _ 1 b rfl ⟨rfl, by simp [b, appendOne]⟩) ?_
    refine .cons (@Step.loads _ 0 a .written _ rfl rfl) ?_
    refine .cons (@Step.loads _ 1 b .written _ rfl rfl) ?_
    refine .cons (@Step.commits s₂ 0 a newTable.table t₁ none 7 "m7" rfl nofun nofun rfl) ?_
    refine .cons (@Step.conflicts _ 1 b newTable.table none 8 "m8" "" rfl rfl) ?_
    refine .cons (@Step.loads _ 1 b .written _ rfl rfl) ?_
    refine .cons (@Step.commits s₄ 1 b t₁ t₂ none 8 "m8" rfl ?_ ?_ rfl) (.nil _)
    · intro t ht
      rw [List.mem_singleton.1 ht]
      decide
    · intro t ht m hm
      rw [List.mem_singleton.1 ht] at hm
      rw [List.mem_singleton.1 hm]
      decide
  obtain ⟨hrows, hids, _⟩ := rows_fold newTable_starts hrun
  refine ⟨_, hrun, hrows, hids⟩

end Peql
