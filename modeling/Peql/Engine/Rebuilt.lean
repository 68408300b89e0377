import Peql.Engine.Decisions

/-!
# Facts that are rebuilt

A snapshot's facts are those of the nearest snapshot back that has them recorded, combined with the facts of each write
since. Over snapshots made by writes of one compilation (`Chain`) they are one manifest, which depends on the writes
alone (`Rebuilds`): however many of them are recorded, and wherever the walk back stops, the walk forward arrives at it
and records each on the way (`rebuilt_facts`).
-/

namespace Peql

open Effects Runs

/-! ## What the writes of a table come to -/

/-- A rewrite replaced files there were, of as many rows as it wrote. -/
def Replaces (live : List FileEntry) (f : WriteFacts) : Prop :=
  (live.filter fun e => e.path ∈ f.removed).length = f.removed.dedup.length ∧
    ((live.filter fun e => e.path ∈ f.removed).map FileEntry.rows).sum = f.facts.rowCount

/-- The files there are after a write. -/
def entriesAfter (live : List FileEntry) (f : WriteFacts) : List FileEntry :=
  match f.written with
  | .append => live ++ f.facts.files
  | .overwrite => f.facts.files
  | .rewrite => (live.filter fun e => e.path ∉ f.removed) ++ f.facts.files

theorem Replaces.perm {live live' : List FileEntry} {f : WriteFacts} (h : Replaces live f) (hp : live.Perm live') :
    Replaces live' f :=
  ⟨(hp.filter _).length_eq ▸ h.1, ((hp.filter _).map FileEntry.rows).sum_eq ▸ h.2⟩

theorem entriesAfter_perm {live live' : List FileEntry} (f : WriteFacts) (hp : live.Perm live') :
    (entriesAfter live f).Perm (entriesAfter live' f) := by
  unfold entriesAfter
  cases f.written with
  | append => exact hp.append_right _
  | overwrite => exact .refl _
  | rewrite => exact (hp.filter _).append_right _

section Writes

variable (R : Runtime) (t : TableMetadata) (c : Compilation) (W : String → Recorded WriteFacts)

/-- Snapshot `s` was made by a write that recorded facts `f` under the contract, of its compilation. -/
structure MadeBy (s : Int) (snapshot : TableSnapshot) (time : Int) (f : WriteFacts) : Prop where
  found : t.snapshotById s = some snapshot
  time : snapshot.time = some time
  recorded : ∃ w, snapshot.writeId = some w ∧ W w = .facts f
  contract : f.facts.contract = c.contract.name
  compilation : f.facts.compilationHash = c.contract.compilationHash

/-- A snapshot, the snapshots from it back to an overwrite or to the table's first write, and the files of its data. -/
inductive Chain : Int → List Int → List FileEntry → Prop
  | overwrite {s : Int} {snapshot : TableSnapshot} {time : Int} {f : WriteFacts} (h : MadeBy t c W s snapshot time f)
      (hw : f.written = .overwrite) : Chain s [s] f.facts.files
  | first {s : Int} {snapshot : TableSnapshot} {time : Int} {f : WriteFacts} (h : MadeBy t c W s snapshot time f)
      (hw : f.written = .append) (hp : snapshot.parent = none) : Chain s [s] f.facts.files
  | next {s p : Int} {snapshot : TableSnapshot} {time : Int} {f : WriteFacts} {ids : List Int} {live : List FileEntry}
      (h : MadeBy t c W s snapshot time f) (hw : f.written ≠ .overwrite) (hp : snapshot.parent = some p)
      (hc : Chain p ids live) (hr : f.written = .rewrite → Replaces live f) :
      Chain s (s :: ids) (entriesAfter live f)

/-- The facts of a snapshot, from the writes of its chain alone. -/
inductive Rebuilds : Int → Manifest → Prop
  | overwrite {s : Int} {snapshot : TableSnapshot} {time : Int} {f : WriteFacts} {m : Manifest}
      (h : MadeBy t c W s snapshot time f) (hw : f.written = .overwrite)
      (hm : afterWrite R.sha256 R.parsers c none f time (some s) = .ok (some m)) : Rebuilds s m
  | first {s : Int} {snapshot : TableSnapshot} {time : Int} {f : WriteFacts} {m : Manifest}
      (h : MadeBy t c W s snapshot time f) (hw : f.written ≠ .overwrite) (hp : snapshot.parent = none)
      (hm : afterWrite R.sha256 R.parsers c none f time (some s) = .ok (some m)) : Rebuilds s m
  | next {s p : Int} {snapshot : TableSnapshot} {time : Int} {f : WriteFacts} {b m : Manifest}
      (h : MadeBy t c W s snapshot time f) (hw : f.written ≠ .overwrite) (hp : snapshot.parent = some p)
      (hb : Rebuilds p b) (hm : afterWrite R.sha256 R.parsers c (some b) f time (some s) = .ok (some m)) : Rebuilds s m

end Writes

section Writes

variable {R : Runtime} {t : TableMetadata} {c : Compilation} {W : String → Recorded WriteFacts}

/-- A snapshot is written once. -/
theorem MadeBy.unique {s : Int} {snapshot snapshot' : TableSnapshot} {time time' : Int} {f f' : WriteFacts}
    (h : MadeBy t c W s snapshot time f) (h' : MadeBy t c W s snapshot' time' f') :
    snapshot' = snapshot ∧ time' = time ∧ f' = f := by
  obtain rfl := Option.some.inj (h.found.symm.trans h'.found)
  obtain rfl := Option.some.inj (h.time.symm.trans h'.time)
  obtain ⟨w, hw, hf⟩ := h.recorded
  obtain ⟨w', hw', hf'⟩ := h'.recorded
  obtain rfl := Option.some.inj (hw.symm.trans hw')
  rw [hf] at hf'
  cases hf'
  exact ⟨rfl, rfl, rfl⟩

/-- A snapshot has one chain. -/
theorem Chain.unique {s : Int} {ids ids' : List Int} {live live' : List FileEntry} (h : Chain t c W s ids live)
    (h' : Chain t c W s ids' live') : ids' = ids := by
  induction h generalizing ids' live' with
  | overwrite h hw =>
    cases h' with
    | overwrite _ _ => rfl
    | first _ _ _ => rfl
    | next h' hw' =>
      obtain ⟨_, _, rfl⟩ := h.unique h'
      exact absurd hw hw'
  | first h hw hp =>
    cases h' with
    | overwrite _ _ => rfl
    | first _ _ _ => rfl
    | next h' _ hp' =>
      obtain ⟨rfl, _, _⟩ := h.unique h'
      rw [hp] at hp'
      cases hp'
  | next h hw hp _ _ ih =>
    cases h' with
    | overwrite h' hw' =>
      obtain ⟨_, _, rfl⟩ := h.unique h'
      exact absurd hw' hw
    | first h' _ hp' =>
      obtain ⟨rfl, _, _⟩ := h.unique h'
      rw [hp] at hp'
      cases hp'
    | next h' _ hp' hc' =>
      obtain ⟨rfl, _, _⟩ := h.unique h'
      obtain rfl := Option.some.inj (hp.symm.trans hp')
      rw [ih hc']

/-- Every snapshot of a chain has its own chain, no longer. -/
theorem Chain.sub {s u : Int} {ids : List Int} {live : List FileEntry} (h : Chain t c W s ids live) (hu : u ∈ ids) :
    ∃ ids' live', Chain t c W u ids' live' ∧ ids'.length ≤ ids.length := by
  induction h with
  | overwrite h hw =>
    obtain rfl := List.mem_singleton.1 hu
    exact ⟨_, _, .overwrite h hw, Nat.le_refl _⟩
  | first h hw hp =>
    obtain rfl := List.mem_singleton.1 hu
    exact ⟨_, _, .first h hw hp, Nat.le_refl _⟩
  | next h hw hp hc hr ih =>
    rcases List.mem_cons.1 hu with rfl | hu
    · exact ⟨_, _, .next h hw hp hc hr, Nat.le_refl _⟩
    · obtain ⟨ids', live', hu', hle⟩ := ih hu
      exact ⟨ids', live', hu', Nat.le_succ_of_le hle⟩

/-- No snapshot is twice in it. -/
theorem Chain.nodup {s : Int} {ids : List Int} {live : List FileEntry} (h : Chain t c W s ids live) : ids.Nodup := by
  induction h with
  | overwrite => exact List.nodup_singleton _
  | first => exact List.nodup_singleton _
  | next h hw hp hc hr ih =>
    refine List.nodup_cons.2 ⟨fun hs => ?_, ih⟩
    -- A snapshot among its own ancestors would have two chains.
    obtain ⟨ids', live', hs', hle⟩ := hc.sub hs
    have hlen := congrArg List.length (hs'.unique (.next h hw hp hc hr))
    rw [List.length_cons] at hlen
    omega

/-- Its snapshots are the table's. -/
theorem Chain.found {s u : Int} {ids : List Int} {live : List FileEntry} (h : Chain t c W s ids live) (hu : u ∈ ids) :
    u ∈ t.snapshots.map TableSnapshot.id := by
  have hone : ∀ {s : Int} {snapshot : TableSnapshot} {time : Int} {f : WriteFacts}, MadeBy t c W s snapshot time f →
      s ∈ t.snapshots.map TableSnapshot.id := by
    intro s snapshot time f h
    have hid : snapshot.id = s := by simpa using List.find?_some h.found
    exact hid ▸ List.mem_map_of_mem (List.mem_of_find?_eq_some h.found)
  induction h with
  | overwrite h hw => exact List.mem_singleton.1 hu ▸ hone h
  | first h hw hp => exact List.mem_singleton.1 hu ▸ hone h
  | next h hw hp hc hr ih =>
    rcases List.mem_cons.1 hu with rfl | hu
    · exact hone h
    · exact ih hu

/-- A chain is no longer than the table has snapshots. -/
theorem Chain.length_le {s : Int} {ids : List Int} {live : List FileEntry} (h : Chain t c W s ids live) :
    ids.length ≤ t.snapshots.length := by
  rw [← @List.length_map _ _ t.snapshots TableSnapshot.id]
  exact (h.nodup.subperm fun u hu => h.found hu).length_le

/-- Facts of a snapshot whose chain stops at it are those of its write. -/
theorem Rebuilds.stops {s time : Int} {snapshot : TableSnapshot} {f : WriteFacts} {m : Manifest}
    (hm : Rebuilds R t c W s m) (h : MadeBy t c W s snapshot time f)
    (hstops : f.written ≠ .overwrite → snapshot.parent = none) :
    afterWrite R.sha256 R.parsers c none f time (some s) = .ok (some m) := by
  cases hm with
  | overwrite h' _ hm' | first h' _ _ hm' =>
    obtain ⟨_, rfl, rfl⟩ := h.unique h'
    exact hm'
  | next h' hw' hp' =>
    obtain ⟨rfl, _, rfl⟩ := h.unique h'
    rw [hstops hw'] at hp'
    cases hp'

/-- Facts of another snapshot are those of its parent combined with its write's. -/
theorem Rebuilds.goes_on {s p time : Int} {snapshot : TableSnapshot} {f : WriteFacts} {m : Manifest}
    (hm : Rebuilds R t c W s m) (h : MadeBy t c W s snapshot time f) (hw : f.written ≠ .overwrite)
    (hp : snapshot.parent = some p) :
    ∃ b, Rebuilds R t c W p b ∧ afterWrite R.sha256 R.parsers c (some b) f time (some s) = .ok (some m) := by
  cases hm with
  | overwrite h' hw' =>
    obtain ⟨_, _, rfl⟩ := h.unique h'
    exact absurd hw' hw
  | first h' _ hp' =>
    obtain ⟨rfl, _, _⟩ := h.unique h'
    rw [hp] at hp'
    cases hp'
  | next h' _ hp' hb' hm' =>
    obtain ⟨rfl, rfl, rfl⟩ := h.unique h'
    obtain rfl := Option.some.inj (hp.symm.trans hp')
    exact ⟨_, hb', hm'⟩

/-- The writes of a snapshot rebuild one manifest. -/
theorem Rebuilds.unique {s : Int} {m m' : Manifest} (h : Rebuilds R t c W s m) (h' : Rebuilds R t c W s m') :
    m' = m := by
  induction h generalizing m' with
  | overwrite h hw hm =>
    have hm' := h'.stops h (absurd hw)
    rw [hm] at hm'
    cases hm'
    rfl
  | first h hw hp hm =>
    have hm' := h'.stops h fun _ => hp
    rw [hm] at hm'
    cases hm'
    rfl
  | next h hw hp _ hm ih =>
    obtain ⟨b, hb, hm'⟩ := h'.goes_on h hw hp
    obtain rfl := ih hb
    rw [hm] at hm'
    cases hm'
    rfl

/-- Writes of one compilation, whose rewrites replace files there are, come to a manifest of those files. -/
theorem Chain.rebuilds {s : Int} {ids : List Int} {live : List FileEntry} (h : Chain t c W s ids live) :
    ∃ m, Rebuilds R t c W s m ∧ m.files.Perm live ∧ m.contract = c.contract.name ∧
      m.compilationHash = c.contract.compilationHash := by
  -- The first write there is, or one that replaces all there was.
  have hfirst : ∀ {f : WriteFacts} (time : Int) (s : Int), f.facts.compilationHash = c.contract.compilationHash →
      (f.written = .overwrite ∨ f.written = .append) →
      ∃ m, afterWrite R.sha256 R.parsers c none f time (some s) = .ok (some m) ∧ m.files.Perm f.facts.files ∧
        m.contract = f.facts.contract ∧ m.compilationHash = f.facts.compilationHash := by
    intro f time s hhash hw
    refine ⟨settled R.sha256 c (some s) { f.facts with writtenAt := time, guarantees := Lookup.empty }, ?_,
      List.mergeSort_perm _ _, rfl, rfl⟩
    unfold afterWrite
    rcases hw with hw | hw <;> simp only [hhash, hw, ne_eq, not_true_eq_false, if_false]
  induction h with
  | overwrite h hw =>
    obtain ⟨m, hm, hfiles, hcontract, hhash⟩ := hfirst _ _ h.compilation (.inl hw)
    exact ⟨m, .overwrite h hw hm, hfiles, hcontract.trans h.contract, hhash.trans h.compilation⟩
  | first h hw hp =>
    obtain ⟨m, hm, hfiles, hcontract, hhash⟩ := hfirst _ _ h.compilation (.inr hw)
    exact ⟨m, .first h (by simp [hw]) hp hm, hfiles, hcontract.trans h.contract, hhash.trans h.compilation⟩
  | @next s p snapshot time f ids live h hw hp hc hr ih =>
    obtain ⟨b, hb, hfiles, hcontract, hhash⟩ := ih
    have hafter : ∃ m, afterWrite R.sha256 R.parsers c (some b) f time (some s) = .ok (some m) ∧
        m.files.Perm (entriesAfter b.files f) ∧ m.contract = c.contract.name ∧
        m.compilationHash = c.contract.compilationHash := by
      unfold afterWrite entriesAfter
      cases hk : f.written with
      | overwrite => exact absurd hk hw
      | append =>
        simp only [h.compilation, hhash, ne_eq, not_true_eq_false, if_false]
        exact ⟨_, rfl, List.mergeSort_perm _ _, h.contract, h.compilation⟩
      | rewrite =>
        obtain ⟨hlen, hrows⟩ := (hr hk).perm hfiles.symm
        simp only [h.compilation, hhash, ne_eq, not_true_eq_false, if_false, rewritten, hlen, hrows]
        exact ⟨_, rfl, List.mergeSort_perm _ _, hcontract, rfl⟩
    obtain ⟨m, hm, hmfiles, hmcontract, hmhash⟩ := hafter
    exact ⟨m, .next h hw hp hb hm, hmfiles.trans (entriesAfter_perm f hfiles), hmcontract, hmhash⟩

/-- It is the snapshot's. -/
theorem Rebuilds.snapshotId {s : Int} {m : Manifest} (h : Rebuilds R t c W s m) : m.snapshotId = some s := by
  cases h with
  | overwrite _ _ hm => exact (afterWrite_carries hm).1
  | first _ _ _ hm => exact (afterWrite_carries hm).1
  | next _ _ _ _ hm => exact (afterWrite_carries hm).1

end Writes

/-! ## What is recorded -/

/-- Nothing of this format is recorded. -/
def Recorded.Lacking {α : Type} : Recorded α → Prop
  | .absent | .otherFormat => True
  | .corrupt _ | .facts _ => False

section Recording

variable (R : Runtime) (table : String) (t : TableMetadata) (reg : Registered) (W : String → Recorded WriteFacts)

/-- The table is stored, with the facts of its writes. -/
def HasWrites (n : Node) : Prop :=
  ∃ it, n.storage.tables table = some it ∧ ∀ write, it.writeFacts write (manifestFile reg.name) = W write

/-- What the contract has recorded for a snapshot. -/
def recordedAt (n : Node) (s : Int) : Recorded Manifest := n.storage.factsAt table s reg.name

/-- Of the snapshots whose writes come to a manifest, some have it recorded, and the others nothing. -/
def Recorded.Right (n : Node) : Prop :=
  ∀ s m, Rebuilds R t reg.compilation W s m → (recordedAt table reg n s).Lacking ∨ recordedAt table reg n s = .facts m

/-- More facts are recorded than before, each what the writes of its snapshot come to. -/
structure Grown (n n' : Node) : Prop where
  writes : HasWrites table reg W n'
  facts : ∀ s, recordedAt table reg n' s = recordedAt table reg n s ∨
    ∃ m, Rebuilds R t reg.compilation W s m ∧ recordedAt table reg n' s = .facts m

/-- A snapshot the walk back from `s` comes to: it goes on from one with no facts recorded that replaced no data. -/
inductive Passes (n : Node) : Int → Int → Prop
  | here (s : Int) : Passes n s s
  | back {s p u : Int} {snapshot : TableSnapshot} {time : Int} {f : WriteFacts}
      (hs : (recordedAt table reg n s).Lacking) (found : t.snapshotById s = some snapshot)
      (htime : snapshot.time = some time) (hf : ∃ w, snapshot.writeId = some w ∧ W w = .facts f)
      (hw : f.written ≠ .overwrite) (hp : snapshot.parent = some p) (hrest : Passes n p u) : Passes n s u

/-- A snapshot that is gone, or that has no facts recorded and was made by no write under the contract. -/
def Foreign (n : Node) (s : Int) : Prop :=
  ∀ snapshot, t.snapshotById s = some snapshot →
    (recordedAt table reg n s).Lacking ∧ ∀ w, snapshot.writeId = some w → (W w).Lacking

end Recording

section Recording

variable {R : Runtime} {table : String} {t : TableMetadata} {reg : Registered} {W : String → Recorded WriteFacts}

/-- The writes' facts are the storage's. -/
theorem HasWrites.of_storage {n n' : Node} (h : HasWrites table reg W n) (hs : n'.storage = n.storage) :
    HasWrites table reg W n' := by
  obtain ⟨it, hit, hw⟩ := h
  exact ⟨it, hs ▸ hit, hw⟩

theorem recordedAt_of_storage {n n' : Node} (hs : n'.storage = n.storage) (s : Int) :
    recordedAt table reg n' s = recordedAt table reg n s := by
  unfold recordedAt
  rw [hs]

theorem Grown.refl {n : Node} (h : HasWrites table reg W n) : Grown R table t reg W n n := ⟨h, fun _ => .inl rfl⟩

/-- Facts recorded in two calls are recorded. -/
theorem Grown.trans {n n' n'' : Node} (h : Grown R table t reg W n n') (h' : Grown R table t reg W n' n'') :
    Grown R table t reg W n n'' := by
  refine ⟨h'.writes, fun s => ?_⟩
  rcases h'.facts s with heq | hm
  · rcases h.facts s with heq' | ⟨m, hm, hrec⟩
    · exact .inl (heq.trans heq')
    · exact .inr ⟨m, hm, heq.trans hrec⟩
  · exact .inr hm

/-- Facts recorded right stay recorded. -/
theorem Grown.keeps {n n' : Node} (h : Grown R table t reg W n n') {s : Int} {m : Manifest}
    (hm : Rebuilds R t reg.compilation W s m) (hrec : recordedAt table reg n s = .facts m) :
    recordedAt table reg n' s = .facts m := by
  rcases h.facts s with heq | ⟨m', hm', hrec'⟩
  · exact heq.trans hrec
  · obtain rfl := hm.unique hm'
    exact hrec'

/-- What is recorded stays right. -/
theorem Grown.right {n n' : Node} (h : Grown R table t reg W n n') (hn : Recorded.Right R table t reg W n) :
    Recorded.Right R table t reg W n' := by
  intro s m hm
  rcases h.facts s with heq | ⟨m', hm', hrec⟩
  · rw [heq]
    exact hn s m hm
  · obtain rfl := hm.unique hm'
    exact .inr hrec

/-- The walk back is over the storage. -/
theorem Passes.of_storage {n n' : Node} (hs : n'.storage = n.storage) {s u : Int} (h : Passes table t reg W n s u) :
    Passes table t reg W n' s u := by
  induction h with
  | here s => exact .here s
  | back hlack found htime hf hw hp _ ih =>
    exact .back (by rw [recordedAt_of_storage hs]; exact hlack) found htime hf hw hp ih

/-- A read of a snapshot's facts, where none are recorded or those of the snapshot. -/
theorem loadFacts_lacking {n : Node} (hn : HasWrites table reg W n) {s : Int}
    (h : (recordedAt table reg n s).Lacking) :
    ∃ n₁, n₁.storage = n.storage ∧ loadFacts table s reg.name n = .ok none n₁ := by
  obtain ⟨it, hit, _⟩ := hn
  obtain ⟨n₁, hn₁, hload⟩ := loadFacts_apply hit s reg.name
  refine ⟨n₁, hn₁, ?_⟩
  rw [hload]
  have hrec : recordedAt table reg n s = it.facts s (manifestFile reg.name) := by
    simp [recordedAt, Storage.factsAt, hit]
  unfold IcebergTable.loadFacts
  cases hf : it.facts s (manifestFile reg.name) with
  | absent => rfl
  | otherFormat => rfl
  | corrupt cause =>
    rw [hrec, hf] at h
    exact h.elim
  | facts m =>
    rw [hrec, hf] at h
    exact h.elim

/-- Facts recorded are found. -/
theorem loadFacts_recorded {n : Node} (hn : HasWrites table reg W n) {s : Int} {m : Manifest}
    (h : recordedAt table reg n s = .facts m) (hid : m.snapshotId = some s) :
    ∃ n₁, n₁.storage = n.storage ∧ loadFacts table s reg.name n = .ok (some m) n₁ := by
  obtain ⟨it, hit, _⟩ := hn
  obtain ⟨n₁, hn₁, hload⟩ := loadFacts_apply hit s reg.name
  refine ⟨n₁, hn₁, ?_⟩
  rw [hload]
  have hrec : it.facts s (manifestFile reg.name) = .facts m := by
    simpa [recordedAt, Storage.factsAt, hit] using h
  simp only [IcebergTable.loadFacts, hrec, hid, if_true]

/-- A write's facts recorded are found. -/
theorem loadWriteFacts_recorded {n : Node} (hn : HasWrites table reg W n) {snapshot : TableSnapshot} {f : WriteFacts}
    (h : ∃ w, snapshot.writeId = some w ∧ W w = .facts f) :
    ∃ n₁, n₁.storage = n.storage ∧ loadWriteFacts table snapshot reg.name n = .ok (some f) n₁ := by
  obtain ⟨it, hit, hw⟩ := hn
  obtain ⟨w, hid, hf⟩ := h
  obtain ⟨n₁, hn₁, hload⟩ := loadWriteFacts_apply hit snapshot reg.name
  refine ⟨n₁, hn₁, ?_⟩
  rw [hload]
  simp only [IcebergTable.loadWriteFacts, hid, hw, hf]

/-- A write without facts gives none. -/
theorem loadWriteFacts_lacking {n : Node} (hn : HasWrites table reg W n) {snapshot : TableSnapshot}
    (h : ∀ w, snapshot.writeId = some w → (W w).Lacking) :
    ∃ n₁, n₁.storage = n.storage ∧ loadWriteFacts table snapshot reg.name n = .ok none n₁ := by
  obtain ⟨it, hit, hw⟩ := hn
  obtain ⟨n₁, hn₁, hload⟩ := loadWriteFacts_apply hit snapshot reg.name
  refine ⟨n₁, hn₁, ?_⟩
  rw [hload]
  unfold IcebergTable.loadWriteFacts
  cases hid : snapshot.writeId with
  | none => rfl
  | some w =>
    have hlack := h w hid
    simp only [hw]
    cases hf : W w with
    | absent => rfl
    | otherFormat => rfl
    | corrupt cause =>
      rw [hf] at hlack
      exact hlack.elim
    | facts f =>
      rw [hf] at hlack
      exact hlack.elim

/-- What the writes of a snapshot come to is recorded for it. -/
theorem saveFacts_grown {n : Node} (hn : HasWrites table reg W n) {s : Int} {m : Manifest}
    (hm : Rebuilds R t reg.compilation W s m) (hname : m.contract = reg.name) :
    ∃ n', saveFacts table m n = .ok ⟨⟩ n' ∧ Grown R table t reg W n n' ∧ recordedAt table reg n' s = .facts m := by
  obtain ⟨it, hit, hw⟩ := hn
  obtain ⟨n', hn', hsave⟩ := saveFacts_apply hit hm.snapshotId
  have hrec : ∀ u, recordedAt table reg n' u = if u = s then .facts m else recordedAt table reg n u := by
    intro u
    simp only [recordedAt, Storage.factsAt, hn', hit, IcebergTable.saveFacts, hname]
    by_cases hu : u = s
    · subst hu
      simp
    · simp [hu]
  refine ⟨n', hsave, ⟨⟨_, hn', hw⟩, fun u => ?_⟩, by rw [hrec s, if_pos rfl]⟩
  by_cases hu : u = s
  · subst hu
    exact .inr ⟨m, hm, by rw [hrec u, if_pos rfl]⟩
  · exact .inl (by rw [hrec u, if_neg hu])

/-! ## Back and forward -/

/-- What the walk back found of snapshot `s`: combined, it comes to the snapshot's facts and records them for every
snapshot the walk passed, and goes on with what is left. -/
def Combines (R : Runtime) (table : String) (t : TableMetadata) (reg : Registered) (W : String → Recorded WriteFacts)
    (n : Node) (s : Int) (known : Option Manifest) (todo : List Pending) : Prop :=
  ∀ n₁, n₁.storage = n.storage → ∃ m n₂, Rebuilds R t reg.compilation W s m ∧ m.contract = reg.name ∧
    Grown R table t reg W n₁ n₂ ∧
    (∀ u, Passes table t reg W n s u → ∃ m', Rebuilds R t reg.compilation W u m' ∧
      recordedAt table reg n₂ u = .facts m') ∧
    ∀ rest, factsForward R table reg.compilation (todo ++ rest) known n₁ =
      factsForward R table reg.compilation rest (some m) n₂

/-- One more write is combined. -/
theorem factsForward_cons {c : Compilation} {known : Option Manifest} {s time : Int} {f : WriteFacts} {m : Manifest}
    {n n' : Node} (hm : afterWrite R.sha256 R.parsers c known f time (some s) = .ok (some m))
    (hsave : saveFacts table m n = .ok ⟨⟩ n') (rest : List Pending) :
    factsForward R table c ((s, time, f) :: rest) known n = factsForward R table c rest (some m) n' := by
  have hread : (Effects.ofExcept (afterWrite R.sha256 R.parsers c known f time (some s)) : Ask (Option Manifest)) n =
      .ok (some m) n := by
    rw [hm]
    rfl
  show ((Effects.ofExcept _ : Ask (Option Manifest)) >>= _) n = _
  rw [bind_of_ok hread]
  dsimp only
  rw [bind_of_ok hsave]

/-- The recorded facts of a snapshot are where the walk stops. -/
theorem Combines.recorded {n : Node} (hn : HasWrites table reg W n) {s : Int} {m : Manifest}
    (hm : Rebuilds R t reg.compilation W s m) (hname : m.contract = reg.name)
    (hrec : recordedAt table reg n s = .facts m) : Combines R table t reg W n s (some m) [] := by
  intro n₁ hn₁
  refine ⟨m, n₁, hm, hname, .refl (hn.of_storage hn₁), fun u hu => ?_, fun rest => rfl⟩
  cases hu with
  | here => exact ⟨m, hm, (recordedAt_of_storage hn₁ s).trans hrec⟩
  | back hs =>
    rw [hrec] at hs
    exact hs.elim

/-- A first write, or an overwrite, is combined with nothing. -/
theorem Combines.one {n : Node} (hn : HasWrites table reg W n) {s time : Int} {snapshot : TableSnapshot}
    {f : WriteFacts}
    {m : Manifest} (h : MadeBy t reg.compilation W s snapshot time f)
    (hstops : f.written ≠ .overwrite → snapshot.parent = none) (hm : Rebuilds R t reg.compilation W s m)
    (hname : m.contract = reg.name)
    (hafter : afterWrite R.sha256 R.parsers reg.compilation none f time (some s) = .ok (some m)) :
    Combines R table t reg W n s none [(s, time, f)] := by
  intro n₁ hn₁
  obtain ⟨n₂, hsave, hgrown, hrec⟩ := saveFacts_grown (hn.of_storage hn₁) hm hname
  refine ⟨m, n₂, hm, hname, hgrown, fun u hu => ?_, fun rest => factsForward_cons hafter hsave rest⟩
  cases hu with
  | here => exact ⟨m, hm, hrec⟩
  | back _ found _ hf hw hp =>
    obtain rfl := Option.some.inj (h.found.symm.trans found)
    obtain ⟨w, hid, hwf⟩ := h.recorded
    obtain ⟨w', hid', hwf'⟩ := hf
    obtain rfl := Option.some.inj (hid.symm.trans hid')
    rw [hwf] at hwf'
    cases hwf'
    rw [hstops hw] at hp
    cases hp

/-- A later write is combined with the facts of the snapshot before. -/
theorem Combines.next {n n' : Node} (hn' : n'.storage = n.storage) {s p time : Int} {snapshot : TableSnapshot}
    {f : WriteFacts} {b m : Manifest} {known : Option Manifest} {todo : List Pending}
    (h : MadeBy t reg.compilation W s snapshot time f) (hp : snapshot.parent = some p)
    (hb : Rebuilds R t reg.compilation W p b) (hm : Rebuilds R t reg.compilation W s m) (hname : m.contract = reg.name)
    (hafter : afterWrite R.sha256 R.parsers reg.compilation (some b) f time (some s) = .ok (some m))
    (hrest : Combines R table t reg W n' p known todo) :
    Combines R table t reg W n s known (todo ++ [(s, time, f)]) := by
  intro n₁ hn₁
  obtain ⟨b', n₂, hb', _, hgrown, hpassed, hforward⟩ := hrest n₁ (hn₁.trans hn'.symm)
  obtain rfl := hb.unique hb'
  obtain ⟨n₃, hsave, hgrown', hrec⟩ := saveFacts_grown hgrown.writes hm hname
  refine ⟨m, n₃, hm, hname, hgrown.trans hgrown', fun u hu => ?_, fun rest => ?_⟩
  · cases hu with
    | here => exact ⟨m, hm, hrec⟩
    | back _ found _ _ _ hp' hrest' =>
      obtain rfl := Option.some.inj (h.found.symm.trans found)
      obtain rfl := Option.some.inj (hp.symm.trans hp')
      obtain ⟨m', hm', hrec'⟩ := hpassed u (hrest'.of_storage hn')
      exact ⟨m', hm', hgrown'.keeps hm' hrec'⟩
  · rw [List.append_assoc, hforward]
    exact factsForward_cons hafter hsave rest

/-- The walk back finds what combines to the snapshot's facts, and writes nothing. -/
theorem factsBack_chain {s : Int} {ids : List Int} {live : List FileEntry} (h : Chain t reg.compilation W s ids live)
    {m : Manifest} (hm : Rebuilds R t reg.compilation W s m) (hname : m.contract = reg.name) :
    ∀ {steps : Nat} {n : Node} (writes : List Pending), ids.length ≤ steps → HasWrites table reg W n →
      Recorded.Right R table t reg W n →
      ∃ known todo n₁, factsBack table t reg.name steps (some s) writes n = .ok (some (known, todo ++ writes)) n₁ ∧
        n₁.storage = n.storage ∧ Combines R table t reg W n s known todo := by
  -- Where the snapshot's own facts are recorded, whatever is behind it.
  have hstop : ∀ {s : Int} {m : Manifest} {snapshot : TableSnapshot} {steps : Nat} {n : Node} (writes : List Pending),
      t.snapshotById s = some snapshot → Rebuilds R t reg.compilation W s m → m.contract = reg.name →
      HasWrites table reg W n → recordedAt table reg n s = .facts m →
      ∃ known todo n₁, factsBack table t reg.name (steps + 1) (some s) writes n =
        .ok (some (known, todo ++ writes)) n₁ ∧
        n₁.storage = n.storage ∧ Combines R table t reg W n s known todo := by
    intro s m snapshot steps n writes found hm hname hn hrec
    obtain ⟨n₁, hn₁, hload⟩ := loadFacts_recorded hn hrec hm.snapshotId
    refine ⟨some m, [], n₁, ?_, hn₁, .recorded hn hm hname hrec⟩
    simp only [factsBack, found]
    rw [bind_of_ok hload]
    rfl
  -- Where the chain stops at the snapshot.
  have hone : ∀ {s time : Int} {m : Manifest} {snapshot : TableSnapshot} {f : WriteFacts} {steps : Nat} {n : Node}
      (writes : List Pending), MadeBy t reg.compilation W s snapshot time f →
      (f.written ≠ .overwrite → snapshot.parent = none) → Rebuilds R t reg.compilation W s m → m.contract = reg.name →
      1 ≤ steps → HasWrites table reg W n → Recorded.Right R table t reg W n →
      ∃ known todo n₁, factsBack table t reg.name steps (some s) writes n = .ok (some (known, todo ++ writes)) n₁ ∧
        n₁.storage = n.storage ∧ Combines R table t reg W n s known todo := by
    intro s time m snapshot f steps n writes h hstops hm hname hle hn hright
    obtain ⟨steps, rfl⟩ : ∃ k, steps = k + 1 := ⟨steps - 1, by omega⟩
    rcases hright s m hm with hlack | hrec
    · obtain ⟨n₁, hn₁, hload⟩ := loadFacts_lacking hn hlack
      obtain ⟨n₂, hn₂, hwrite⟩ := loadWriteFacts_recorded (hn.of_storage hn₁) h.recorded
      refine ⟨none, [(s, time, f)], n₂, ?_, hn₂.trans hn₁, .one hn h hstops hm hname (hm.stops h hstops)⟩
      simp only [factsBack, h.found]
      rw [bind_of_ok hload]
      dsimp only
      rw [bind_of_ok hwrite]
      simp only [h.time]
      by_cases hw : f.written = .overwrite
      · rw [if_pos hw]
        rfl
      · rw [if_neg hw, hstops hw]
        cases steps <;> rfl
    · exact hstop writes h.found hm hname hn hrec
  induction h generalizing m with
  | overwrite h hw =>
    intro steps n writes
    exact hone writes h (absurd hw) hm hname
  | first h hw hp =>
    intro steps n writes
    exact hone writes h (fun _ => hp) hm hname
  | @next s p snapshot time f ids live h hw hp hc hr ih =>
    intro steps n writes hle hn hright
    rw [List.length_cons] at hle
    obtain ⟨steps, rfl⟩ : ∃ k, steps = k + 1 := ⟨steps - 1, by omega⟩
    rcases hright s m hm with hlack | hrec
    · obtain ⟨n₁, hn₁, hload⟩ := loadFacts_lacking hn hlack
      obtain ⟨n₂, hn₂, hwrite⟩ := loadWriteFacts_recorded (hn.of_storage hn₁) h.recorded
      have hn₂' := hn₂.trans hn₁
      obtain ⟨b, hb, _, hbname, _⟩ := hc.rebuilds (R := R)
      obtain ⟨b', hb', hafter⟩ := hm.goes_on h hw hp
      obtain rfl := hb.unique hb'
      have hright₂ : Recorded.Right R table t reg W n₂ := fun u m' hm' => by
        rw [recordedAt_of_storage hn₂']
        exact hright u m' hm'
      obtain ⟨known, todo, n₃, hback, hn₃, hcombines⟩ :=
        @ih _ hb hbname steps n₂ ((s, time, f) :: writes) (by omega) (hn.of_storage hn₂') hright₂
      refine ⟨known, todo ++ [(s, time, f)], n₃, ?_, hn₃.trans hn₂', hcombines.next hn₂' h hp hb hm hname hafter⟩
      simp only [factsBack, h.found]
      rw [bind_of_ok hload]
      dsimp only
      rw [bind_of_ok hwrite]
      simp only [h.time, hw, hp, if_false, hback, List.append_assoc, List.singleton_append]
    · exact hstop writes h.found hm hname hn hrec

/-! ## Calls -/

/-- A call for a snapshot of a chain gives what the chain's writes come to, and records it for every snapshot passed. -/
theorem icebergFacts_chain {s : Int} {ids : List Int} {live : List FileEntry} (h : Chain t reg.compilation W s ids live)
    {n : Node} (hn : HasWrites table reg W n) (hright : Recorded.Right R table t reg W n) :
    ∃ m n', Rebuilds R t reg.compilation W s m ∧ icebergFacts R table t s reg n = .ok (some m) n' ∧
      Grown R table t reg W n n' ∧
      ∀ u, Passes table t reg W n s u →
        ∃ m', Rebuilds R t reg.compilation W u m' ∧ recordedAt table reg n' u = .facts m' := by
  obtain ⟨m, hm, _, hname, _⟩ := h.rebuilds (R := R)
  obtain ⟨known, todo, n₁, hback, hn₁, hcombines⟩ := factsBack_chain h hm hname [] h.length_le hn hright
  obtain ⟨m', n₂, hm', _, hgrown, hpassed, hforward⟩ := hcombines n₁ hn₁
  obtain rfl := hm.unique hm'
  refine ⟨m', n₂, hm, ?_, ⟨hgrown.writes, fun u => ?_⟩, hpassed⟩
  · unfold icebergFacts
    rw [bind_of_ok hback]
    exact hforward []
  · rw [← recordedAt_of_storage hn₁]
    exact hgrown.facts u

/-- A call for a snapshot whose facts are recorded gives them, and writes nothing. -/
theorem icebergFacts_recorded {s : Int} {m : Manifest} (hm : Rebuilds R t reg.compilation W s m) {n : Node}
    (hn : HasWrites table reg W n) (hrec : recordedAt table reg n s = .facts m) :
    ∃ n', icebergFacts R table t s reg n = .ok (some m) n' ∧ n'.storage = n.storage := by
  have hfound : ∃ snapshot, t.snapshotById s = some snapshot := by
    cases hm with
    | overwrite h | first h | next h => exact ⟨_, h.found⟩
  obtain ⟨snapshot, hfound⟩ := hfound
  obtain ⟨steps, hsteps⟩ : ∃ k, t.snapshots.length = k + 1 :=
    Nat.exists_eq_add_one.2 (List.length_pos_of_mem (List.mem_of_find?_eq_some hfound))
  obtain ⟨n', hn', hload⟩ := loadFacts_recorded hn hrec hm.snapshotId
  refine ⟨n', ?_, hn'⟩
  have hback : factsBack table t reg.name t.snapshots.length (some s) [] n = .ok (some (some m, [])) n' := by
    rw [hsteps]
    simp only [factsBack, hfound]
    rw [bind_of_ok hload]
    rfl
  unfold icebergFacts
  rw [bind_of_ok hback]
  rfl

/-- A call whose walk back comes to a snapshot that is gone, or that no write under the contract made, gives nothing and
writes nothing. -/
theorem icebergFacts_foreign {n : Node} {s u : Int} (hn : HasWrites table reg W n) (h : Passes table t reg W n s u)
    (hu : Foreign table t reg W n u) :
    ∃ n', icebergFacts R table t s reg n = .ok none n' ∧ n'.storage = n.storage := by
  have hback : ∀ (steps : Nat) (writes : List Pending) (n₀ : Node), n₀.storage = n.storage →
      ∃ n', factsBack table t reg.name steps (some s) writes n₀ = .ok none n' ∧ n'.storage = n.storage := by
    induction h with
    | here s =>
      intro steps writes n₀ hn₀
      cases steps with
      | zero => exact ⟨n₀, rfl, hn₀⟩
      | succ steps =>
        cases hfound : t.snapshotById s with
        | none => exact ⟨n₀, by simp only [factsBack, hfound]; rfl, hn₀⟩
        | some snapshot =>
          obtain ⟨hlack, hwrites⟩ := hu snapshot hfound
          obtain ⟨n₁, hn₁, hload⟩ := loadFacts_lacking (hn.of_storage hn₀) (recordedAt_of_storage hn₀ s ▸ hlack)
          obtain ⟨n₂, hn₂, hwrite⟩ := loadWriteFacts_lacking ((hn.of_storage hn₀).of_storage hn₁) hwrites
          refine ⟨n₂, ?_, hn₂.trans (hn₁.trans hn₀)⟩
          simp only [factsBack, hfound]
          rw [bind_of_ok hload]
          dsimp only
          rw [bind_of_ok hwrite]
          rfl
    | @back s p u snapshot time f hlack found htime hf hw hp _ ih =>
      intro steps writes n₀ hn₀
      cases steps with
      | zero => exact ⟨n₀, rfl, hn₀⟩
      | succ steps =>
        obtain ⟨n₁, hn₁, hload⟩ := loadFacts_lacking (hn.of_storage hn₀) (recordedAt_of_storage hn₀ s ▸ hlack)
        obtain ⟨n₂, hn₂, hwrite⟩ := loadWriteFacts_recorded ((hn.of_storage hn₀).of_storage hn₁) hf
        obtain ⟨n', hrest, hn'⟩ := ih hu steps ((s, time, f) :: writes) n₂ (hn₂.trans (hn₁.trans hn₀))
        refine ⟨n', ?_, hn'⟩
        simp only [factsBack, found]
        rw [bind_of_ok hload]
        dsimp only
        rw [bind_of_ok hwrite]
        simp only [htime, hw, hp, if_false, hrest]
  obtain ⟨n', hgone, hn'⟩ := hback t.snapshots.length [] n rfl
  refine ⟨n', ?_, hn'⟩
  unfold icebergFacts
  rw [bind_of_ok hgone]
  rfl

end Recording

/-! ## Any of the facts recorded -/

inductive RecordAction
  | calls (s : Int) | loses (s : Int) | others

/-- A call for a snapshot of a chain; the loss of a snapshot's facts; and whatever leaves the table's writes, and the
facts the contract has recorded, as they were. -/
inductive RecordStep (R : Runtime) (table : String) (t : TableMetadata) (reg : Registered)
    (W : String → Recorded WriteFacts) : Node → RecordAction → Node → Prop
  | calls {n : Node} {s : Int} {ids : List Int} {live : List FileEntry} (h : Chain t reg.compilation W s ids live) :
      RecordStep R table t reg W n (.calls s) (final (icebergFacts R table t s reg) n)
  | loses {n n' : Node} {s : Int} (hn : HasWrites table reg W n') (hs : (recordedAt table reg n' s).Lacking)
      (hothers : ∀ u ≠ s, recordedAt table reg n' u = recordedAt table reg n u) :
      RecordStep R table t reg W n (.loses s) n'
  | others {n n' : Node} (hn : HasWrites table reg W n')
      (hsame : ∀ u, recordedAt table reg n' u = recordedAt table reg n u) : RecordStep R table t reg W n .others n'

section Recording

variable {R : Runtime} {table : String} {t : TableMetadata} {reg : Registered} {W : String → Recorded WriteFacts}

/-- Each step leaves what is recorded right. -/
theorem RecordStep.right {n n' : Node} {a : RecordAction} (h : RecordStep R table t reg W n a n')
    (hn : HasWrites table reg W n) (hright : Recorded.Right R table t reg W n) :
    HasWrites table reg W n' ∧ Recorded.Right R table t reg W n' := by
  cases h with
  | @calls s ids live hchain =>
    obtain ⟨m, n', _, hcall, hgrown, _⟩ := icebergFacts_chain hchain hn hright
    have hfinal : final (icebergFacts R table t s reg) n = n' := by
      unfold final
      rw [hcall]
    rw [hfinal]
    exact ⟨hgrown.writes, hgrown.right hright⟩
  | @loses _ s hn' hs hothers =>
    refine ⟨hn', fun u m hm => ?_⟩
    by_cases hu : u = s
    · subst hu
      exact .inl hs
    · rw [hothers u hu]
      exact hright u m hm
  | others hn' hsame =>
    refine ⟨hn', fun u m hm => ?_⟩
    rw [hsame u]
    exact hright u m hm

/-- However many of its own records are left of what `iceberg_facts` recorded before, it gives one manifest for a
snapshot of a chain; called again, for it or for any snapshot it passed, it gives the manifest recorded and writes
nothing; and where the walk comes to a snapshot that is gone or was not written under the contract, it gives nothing and
records nothing. -/
theorem rebuilt_facts (R : Runtime) (table : String) (t : TableMetadata) (reg : Registered)
    (W : String → Recorded WriteFacts) :
    (∀ s ids live, Chain t reg.compilation W s ids live → ∃ m, ∀ n₀, HasWrites table reg W n₀ →
      (∀ u, (recordedAt table reg n₀ u).Lacking) → ∀ as n, Run (RecordStep R table t reg W) n₀ as n →
        ∃ n', icebergFacts R table t s reg n = .ok (some m) n' ∧
          ∀ u, Passes table t reg W n s u →
            ∃ m' n'', recordedAt table reg n' u = .facts m' ∧
              icebergFacts R table t u reg n' = .ok (some m') n'' ∧ n''.storage = n'.storage) ∧
    ∀ n s u, HasWrites table reg W n → Passes table t reg W n s u → Foreign table t reg W n u →
      ∃ n', icebergFacts R table t s reg n = .ok none n' ∧ n'.storage = n.storage := by
  refine ⟨fun s ids live hchain => ?_, fun n s u hn hpass hforeign => icebergFacts_foreign hn hpass hforeign⟩
  obtain ⟨m, hm, _, _, _⟩ := hchain.rebuilds (R := R)
  refine ⟨m, fun n₀ hn₀ hnone as n hrun => ?_⟩
  obtain ⟨hn, hright⟩ := hrun.inv (I := fun n => HasWrites table reg W n ∧ Recorded.Right R table t reg W n)
    (fun _ _ _ h hs => hs.right h.1 h.2) ⟨hn₀, fun u _ _ => .inl (hnone u)⟩
  obtain ⟨m', n', hm', hcall, hgrown, hpassed⟩ := icebergFacts_chain hchain hn hright
  obtain rfl := hm.unique hm'
  refine ⟨n', hcall, fun u hu => ?_⟩
  obtain ⟨mu, hmu, hrec⟩ := hpassed u hu
  obtain ⟨n'', hagain, hn''⟩ := icebergFacts_recorded hmu hgrown.writes hrec
  exact ⟨mu, n'', hrec, hagain, hn''⟩

end Recording

/-- A second append over the first. -/
def laterSnapshot : TableSnapshot := ⟨2, some 1, some 1, some "w", ["amount"], []⟩

/-- The table of both, by one write's facts, with none recorded of their own. -/
def appendsTable : IcebergTable :=
  ⟨⟨[totalSnapshot, laterSnapshot], some 2, ["amount"]⟩, fun _ _ => .absent, fun _ _ => .facts totalAppend⟩

def appendsNode : Node :=
    ⟨freshEngine Contents.empty fun _ => none, emptyStorage.setTable "amounts" appendsTable, 0, []⟩

theorem appends_rebuilt : ∃ m n',
    icebergFacts amountsRuntime "amounts" appendsTable.metadata 2 ⟨totalContract⟩ appendsNode =
      .ok (some m) n' ∧
    ∃ m' n'', recordedAt "amounts" ⟨totalContract⟩ n' 1 = .facts m' ∧
      icebergFacts amountsRuntime "amounts" appendsTable.metadata 1 ⟨totalContract⟩ n' = .ok (some m') n'' ∧
        n''.storage = n'.storage := by
  have hfirst :
      MadeBy appendsTable.metadata totalContract (fun _ => .facts totalAppend) 1 totalSnapshot 0 totalAppend :=
    ⟨rfl, rfl, ⟨"w", rfl, rfl⟩, rfl, rfl⟩
  have hlater :
      MadeBy appendsTable.metadata totalContract (fun _ => .facts totalAppend) 2 laterSnapshot 1 totalAppend :=
    ⟨rfl, rfl, ⟨"w", rfl, rfl⟩, rfl, rfl⟩
  have happend : totalAppend.written ≠ .overwrite := fun h => nomatch h
  have hchain := Chain.next hlater happend rfl (.first hfirst rfl rfl) fun h => nomatch h
  have htable : appendsNode.storage.tables "amounts" = some appendsTable := rfl
  have hnone : ∀ u, (recordedAt "amounts" ⟨totalContract⟩ appendsNode u).Lacking := by
    intro u
    simp only [recordedAt, Storage.factsAt, htable]
    exact trivial
  obtain ⟨m, hm⟩ := (rebuilt_facts amountsRuntime "amounts" appendsTable.metadata ⟨totalContract⟩
    fun _ => .facts totalAppend).1 2 _ _ hchain
  obtain ⟨n', hcall, hpassed⟩ := hm appendsNode ⟨_, htable, fun _ => rfl⟩ hnone [] appendsNode (.nil _)
  exact ⟨m, n', hcall, hpassed 1 (.back (hnone 2) rfl rfl ⟨"w", rfl, rfl⟩ happend rfl (.here 1))⟩

end Peql
