import Peql.Engine.Counted
import Peql.Engine.Decisions

/-!
# Facts and files, as calls handle them

Calls read the facts recorded of a contract's data, record those they compute, and remember or forget them in the
engine; and they lay the files of the writes they finish. What is kept by those, under the versions looked up
(`FactsStable`), is kept by every call of an engine: those that begin no write (`FactsStable.calls`), and the beginning
and the end of one (`FactsStable.finishWrite`). A read of files is resolved by facts in hand (`FactsStable.resolveAt`).
-/

namespace Peql

open Effects

/-! ## What is recorded, and remembered -/

/-- Facts of a contract's data are recorded under its name: beside the files, or for some snapshot of the table. -/
def Storage.Records (s : Storage) (l : Location) (name : String) (m : Manifest) : Prop :=
  ∃ at_, recordedFor s l at_ name = .facts m

/-- Facts are recorded where data is: a table's for the snapshot they are of. -/
def Storage.record (s : Storage) (l : Location) (m : Manifest) : Storage :=
  match l with
  | .localDir _ | .object _ => s.setDir l ((s.dirs l).save m)
  | .iceberg table =>
    match m.snapshotId with
    | some snapshot => s.saveFacts table snapshot m
    | none => s

/-- The engine has facts of a contract's data in memory: of an object store, or of a table's current snapshot. -/
def Engine.Has (e : Engine) (l : Location) (name : String) (m : Manifest) : Prop :=
  match l with
  | .localDir _ => False
  | .object _ => e.objectManifests name = some m
  | .iceberg _ => e.icebergManifests name = some m

def Engine.rememberFacts (e : Engine) (l : Location) (name : String) (m : Manifest) : Engine :=
  match l with
  | .localDir _ => e
  | .object _ => { e with objectManifests := e.objectManifests.insert name m }
  | .iceberg _ => { e with icebergManifests := e.icebergManifests.insert name m }

def Engine.forgetFacts (e : Engine) (l : Location) (name : String) : Engine :=
  match l with
  | .localDir _ => e
  | .object _ => { e with objectManifests := e.objectManifests.erase name }
  | .iceberg _ => { e with icebergManifests := e.icebergManifests.erase name }

section Memory

variable {e : Engine} {l l' : Location} {name name' : String} {m m' : Manifest}

/-- What the engine has after it remembers facts. -/
theorem Engine.Has.of_remember (h : (e.rememberFacts l name m).Has l' name' m') :
    (name' = name ∧ m' = m) ∨ e.Has l' name' m' := by
  have hinsert : ∀ {o : Lookup String Manifest}, o.insert name m name' = some m' →
      (name' = name ∧ m' = m) ∨ o name' = some m' := by
    intro o ho
    rw [Lookup.insert_apply] at ho
    split at ho
    · next hname => exact .inl ⟨hname, (Option.some.inj ho).symm⟩
    · exact .inr ho
  cases l with
  | localDir root => exact .inr h
  | object url =>
    cases l' with
    | localDir root => exact h.elim
    | object url => exact hinsert h
    | iceberg table => exact .inr h
  | iceberg table =>
    cases l' with
    | localDir root => exact h.elim
    | object url => exact .inr h
    | iceberg table => exact hinsert h

/-- What it has after it forgets some, it had. -/
theorem Engine.Has.of_forget (h : (e.forgetFacts l name).Has l' name' m') : e.Has l' name' m' := by
  have herase : ∀ {o : Lookup String Manifest}, o.erase name name' = some m' → o name' = some m' := by
    intro o ho
    by_cases hname : name' = name
    · subst hname
      rw [Lookup.erase_self] at ho
      cases ho
    · rwa [Lookup.erase_of_ne _ hname] at ho
  cases l with
  | localDir root => exact h
  | object url =>
    cases l' with
    | localDir root => exact h
    | object url => exact herase h
    | iceberg table => exact h
  | iceberg table =>
    cases l' with
    | localDir root => exact h
    | object url => exact h
    | iceberg table => exact herase h

/-- Where a contract's data is does not depend on what the engine remembers. -/
theorem Engine.bound_rememberFacts (reg : Registered) : (e.rememberFacts l name m).bound reg = e.bound reg := by
  cases l <;> rfl

theorem Engine.bound_forgetFacts (reg : Registered) : (e.forgetFacts l name).bound reg = e.bound reg := by
  cases l <;> rfl

theorem Engine.store_rememberFacts : (e.rememberFacts l name m).store = e.store := by
  cases l <;> rfl

theorem Engine.store_forgetFacts : (e.forgetFacts l name).store = e.store := by
  cases l <;> rfl

variable {s : Storage}

/-- What is recorded after facts are recorded: they are, there and in their file, or it was. -/
theorem Storage.Records.of_record (h : (s.record l m).Records l' name' m') :
    (l' = l ∧ manifestFile name' = manifestFile m.contract ∧ m' = m) ∨ s.Records l' name' m' := by
  obtain ⟨at_, h⟩ := h
  have hdir : ∀ {l}, recordedFor (s.setDir l ((s.dirs l).save m)) l' at_ name' = .facts m' →
      (l' = l ∧ manifestFile name' = manifestFile m.contract ∧ m' = m) ∨ s.Records l' name' m' :=
    fun h => (recordedFor_save h).imp_right fun hold => ⟨at_, hold⟩
  cases l with
  | localDir root => exact hdir h
  | object url => exact hdir h
  | iceberg table =>
    unfold Storage.record at h
    cases hs : m.snapshotId with
    | none =>
      rw [hs] at h
      exact .inr ⟨at_, h⟩
    | some snapshot =>
      rw [hs] at h
      exact (recordedFor_saveFacts h).imp_right fun hold => ⟨at_, hold⟩

end Memory

section Recorded

variable {s s' : Storage} {l : Location} {name table : String} {m : Manifest}

/-- Facts of a table are recorded for a snapshot. -/
theorem Storage.records_iceberg : s.Records (.iceberg table) name m ↔
    ∃ t snapshot, s.tables table = some t ∧ t.facts snapshot (manifestFile name) = .facts m := by
  constructor
  · rintro ⟨at_, h⟩
    obtain ⟨t, id, ht, -, hfacts⟩ := recordedFor_iceberg.1 h
    exact ⟨t, id, ht, hfacts⟩
  · rintro ⟨t, id, ht, hfacts⟩
    exact ⟨some id, recordedFor_iceberg.2 ⟨t, id, ht, rfl, hfacts⟩⟩

/-- What is recorded where no manifest and no facts of a snapshot are new. -/
theorem Storage.Records.of_old (h : s'.Records l name m)
    (hdirs : ∀ l file m, (s'.dirs l).manifests file = .facts m → (s.dirs l).manifests file = .facts m)
    (htables : ∀ table t' snapshot file m, s'.tables table = some t' → t'.facts snapshot file = .facts m →
      ∃ t, s.tables table = some t ∧ t.facts snapshot file = .facts m) : s.Records l name m := by
  cases l with
  | localDir root => exact h.imp fun _ => hdirs _ _ _
  | object url => exact h.imp fun _ => hdirs _ _ _
  | iceberg table =>
    obtain ⟨t', snapshot, ht', hfacts⟩ := records_iceberg.1 h
    obtain ⟨t, ht, hold⟩ := htables table t' snapshot _ m ht' hfacts
    exact records_iceberg.2 ⟨t, snapshot, ht, hold⟩

/-- A directory or a prefix changed, with no manifest new. -/
theorem Storage.records_setDir {d : Dir StoredFile}
    (hd : ∀ file m, d.manifests file = .facts m → (s.dirs l).manifests file = .facts m) :
    ∀ l' name m, (s.setDir l d).Records l' name m → s.Records l' name m := by
  intro l' name m h
  refine h.of_old (fun l'' file m' hm => ?_) fun table t' snapshot file m' ht hm => ⟨t', ht, hm⟩
  by_cases hl : l'' = l
  · subst hl
    rw [Storage.setDir_self] at hm
    exact hd file m' hm
  · rwa [Storage.setDir_of_ne _ hl] at hm

/-- A table changed, with no facts of a snapshot new. -/
theorem Storage.records_changeTable {f : IcebergTable → IcebergTable}
    (hf : ∀ t snapshot file m, (f t).facts snapshot file = .facts m → t.facts snapshot file = .facts m) :
    ∀ l name m, (s.changeTable table f).Records l name m → s.Records l name m := by
  intro l name m h
  unfold Storage.changeTable at h
  cases ht : s.tables table with
  | none => rwa [ht] at h
  | some t =>
    rw [ht] at h
    refine h.of_old (fun _ _ _ => id) fun table' t' snapshot file m' ht' hm => ?_
    by_cases htable : table' = table
    · subst htable
      rw [Storage.setTable_self] at ht'
      cases ht'
      exact ⟨t, ht, hf t snapshot file m' hm⟩
    · rw [Storage.setTable_of_ne _ htable] at ht'
      exact ⟨t', ht', hm⟩

/-- A table created, with nothing recorded of it. -/
theorem Storage.records_create {t : IcebergTable} (ht : ∀ snapshot file m, t.facts snapshot file ≠ .facts m) :
    ∀ l name m, (s.setTable table t).Records l name m → s.Records l name m := by
  intro l name m h
  refine h.of_old (fun _ _ _ => id) fun table' t' snapshot file m' ht' hm => ?_
  by_cases htable : table' = table
  · subst htable
    rw [Storage.setTable_self] at ht'
    cases ht'
    exact absurd hm (ht snapshot file m')
  · rw [Storage.setTable_of_ne _ htable] at ht'
    exact ⟨t', ht', hm⟩

end Recorded

/-! ## Files -/

/-- A file at a place: in the directory or under the prefix, or of a snapshot of the table. -/
def Storage.Live (s : Storage) (l : Location) (f : StoredFile) : Prop :=
  match l with
  | .iceberg table => ∃ t sn, s.tables table = some t ∧ sn ∈ t.metadata.snapshots ∧ f ∈ sn.files
  | .localDir _ | .object _ => f ∈ (s.dirs l).files

section Files

variable {s s' : Storage} {l : Location} {table : String} {f : StoredFile} {New : StoredFile → Prop}

/-- The files a read of a place is of are there. -/
theorem Storage.live_of_mem {at_ : Option Int} (h : f ∈ liveFiles s l at_) : s.Live l f := by
  cases l with
  | localDir root => exact h
  | object url => exact h
  | iceberg table =>
    unfold liveFiles at h
    dsimp only at h
    cases ht : s.tables table with
    | none =>
      rw [ht] at h
      cases h
    | some t =>
      rw [ht] at h
      obtain ⟨sn, hsn, hf⟩ := TableMetadata.mem_filesAt h
      exact ⟨t, sn, ht, hsn, hf⟩

/-- The files there are where those of each directory and each table are old or some of `New`. -/
theorem Storage.Live.of_old (h : s'.Live l f) (hdirs : ∀ l f, f ∈ (s'.dirs l).files → f ∈ (s.dirs l).files ∨ New f)
    (htables : ∀ table t' sn, s'.tables table = some t' → sn ∈ t'.metadata.snapshots →
      ∀ f ∈ sn.files, s.Live (.iceberg table) f ∨ New f) : s.Live l f ∨ New f := by
  cases l with
  | localDir root => exact hdirs _ _ h
  | object url => exact hdirs _ _ h
  | iceberg table =>
    obtain ⟨t', sn, ht', hsn, hf⟩ := h
    exact htables table t' sn ht' hsn f hf

/-- A directory or a prefix changed. -/
theorem Storage.live_setDir {d : Dir StoredFile} (hd : ∀ f ∈ d.files, f ∈ (s.dirs l).files ∨ New f) :
    ∀ l' f, (s.setDir l d).Live l' f → s.Live l' f ∨ New f := by
  intro l' f h
  refine h.of_old (fun l'' f hf => ?_) fun table t' sn ht hsn f hf => .inl ⟨t', sn, ht, hsn, hf⟩
  by_cases hl : l'' = l
  · subst hl
    rw [Storage.setDir_self] at hf
    exact hd f hf
  · rw [Storage.setDir_of_ne _ hl] at hf
    exact .inl hf

/-- A table put where there was another, or none. -/
theorem Storage.live_setTable {t : IcebergTable} (ht : ∀ sn ∈ t.metadata.snapshots, ∀ f ∈ sn.files,
    s.Live (.iceberg table) f ∨ New f) : ∀ l f, (s.setTable table t).Live l f → s.Live l f ∨ New f := by
  intro l f h
  refine h.of_old (fun _ _ hf => .inl hf) fun table' t' sn ht' hsn f hf => ?_
  by_cases htable : table' = table
  · subst htable
    rw [Storage.setTable_self] at ht'
    cases ht'
    exact ht sn hsn f hf
  · rw [Storage.setTable_of_ne _ htable] at ht'
    exact .inl ⟨t', sn, ht', hsn, hf⟩

/-- A table changed. -/
theorem Storage.live_changeTable {g : IcebergTable → IcebergTable} (hg : ∀ t, s.tables table = some t →
    ∀ sn ∈ (g t).metadata.snapshots, ∀ f ∈ sn.files, s.Live (.iceberg table) f ∨ New f) :
    ∀ l f, (s.changeTable table g).Live l f → s.Live l f ∨ New f := by
  intro l f h
  unfold Storage.changeTable at h
  cases ht : s.tables table with
  | none =>
    rw [ht] at h
    exact .inl h
  | some t =>
    rw [ht] at h
    exact Storage.live_setTable (hg t ht) l f h

/-- Facts recorded are no file. -/
theorem Storage.live_record {m : Manifest} : ∀ l' f, (s.record l m).Live l' f → s.Live l' f ∨ New f := by
  intro l' f h
  have hdir : ∀ {l}, (s.setDir l ((s.dirs l).save m)).Live l' f → s.Live l' f ∨ New f := by
    intro l h
    refine Storage.live_setDir (fun f hf => ?_) l' f h
    exact .inl hf
  cases l with
  | localDir root => exact hdir h
  | object url => exact hdir h
  | iceberg table =>
    unfold Storage.record Storage.saveFacts at h
    dsimp only at h
    cases hs : m.snapshotId with
    | none =>
      rw [hs] at h
      exact .inl h
    | some snapshot =>
      rw [hs] at h
      dsimp only at h
      cases ht : s.tables table with
      | none =>
        rw [ht] at h
        exact .inl h
      | some t =>
        rw [ht] at h
        refine Storage.live_setTable (fun sn hsn f hf => ?_) l' f h
        exact .inl ⟨t, sn, ht, hsn, hf⟩

end Files

namespace Begun

variable {w : Begun} {New : StoredFile → Prop}

/-- The files there are after a write are of those before it, or its own. -/
theorem filesOver_new (hnew : ∀ f ∈ w.files, New f) {before : List StoredFile} {f : StoredFile}
    (h : f ∈ w.filesOver before) : f ∈ before ∨ New f := by
  unfold Begun.filesOver at h
  split at h
  · exact (List.mem_append.1 h).imp_right (hnew f)
  · exact .inr (hnew f h)
  · exact (List.mem_append.1 h).imp (fun hf => (List.mem_filter.1 hf).1) (hnew f)

end Begun

/-! ## What a call does with facts -/

/-- The engines have the same contracts, where they have them, and remember the same facts of their data. -/
structure Engine.Like (e e' : Engine) : Prop where
  versions : e'.store.versions = e.store.versions
  bound : ∀ reg, e'.bound reg = e.bound reg
  useStored : e'.useStored = e.useStored
  objectManifests : e'.objectManifests = e.objectManifests
  icebergManifests : e'.icebergManifests = e.icebergManifests

/-- What calls keep of an engine that has the contracts of `e₀`, when they read, record and remember facts under the
versions of `S` alone, and lay no files but of `New`; `H` is what they keep with facts in hand. -/
structure FactsStable (S : Registered → Prop) (New : StoredFile → Prop) (e₀ : Engine) (P : Node → Prop)
    (H : Registered → Manifest → Node → Prop) : Prop where
  touch : ∀ n t, P n → P { n with touched := n.touched ++ [t] }
  like : ∀ n e, n.engine.Like e → P n → P { n with engine := e }
  fewer : ∀ n s, (∀ l name m, s.Records l name m → n.storage.Records l name m) →
    (∀ l f, s.Live l f → n.storage.Live l f ∨ New f) → P n → P { n with storage := s }
  found : ∀ n reg l m, S reg → e₀.bound reg = .ok (.files l) →
    n.storage.Records l reg.name m ∨ n.engine.Has l reg.name m → P n → H reg m n
  record : ∀ n reg l m, S reg → e₀.bound reg = .ok (.files l) →
    m.compilationHash = reg.compilation.contract.compilationHash → P n →
      H reg m { n with storage := n.storage.record l m }
  remember : ∀ n reg l m, e₀.bound reg = .ok (.files l) → H reg m n →
    H reg m { n with engine := n.engine.rememberFacts l reg.name m }
  forget : ∀ n l name, P n → P { n with engine := n.engine.forgetFacts l name }
  drop : ∀ n reg m, H reg m n → P n
  versions : ∀ n, P n → n.engine.store.versions = e₀.store.versions
  bound : ∀ n, P n → ∀ reg, n.engine.bound reg = e₀.bound reg
  looked : ∀ name reg, e₀.get name = .ok reg → S reg

namespace FactsStable

variable {R : Runtime} {S : Registered → Prop} {New : StoredFile → Prop} {e₀ : Engine} {P : Node → Prop}
  {H : Registered → Manifest → Node → Prop} {reg : Registered} {l : Location} {name table : String}
  (hP : FactsStable S New e₀ P H)

include hP

/-- A version the engine has is one of those looked up. -/
theorem get (name : String) :
    Ends P (Ask.engine fun e => e.get name) (fun reg n => P n ∧ e₀.get name = .ok reg) fun _ => P := by
  refine Ends.read fun n hn => Ends.ofExcept (fun reg hreg t ht => ?_) fun _ _ t ht => ht ▸ hn
  subst ht
  refine ⟨hn, get_ok.2 ?_⟩
  rw [← Contents.current_of_versions (hP.versions t hn)]
  exact get_ok.1 hreg

/-- Its data is where the engine has it. -/
theorem binds (reg : Registered) :
    Ends P (Ask.engine fun e => e.bound reg) (fun b n => P n ∧ e₀.bound reg = .ok b) fun _ => P := by
  refine Ends.read fun n hn => Ends.ofExcept (fun b hb t ht => ?_) fun _ _ t ht => ht ▸ hn
  subst ht
  exact ⟨hn, (hP.bound t hn reg).symm.trans hb⟩

theorem touches (t : Touch) : Effects.Keeps P (Ask.touch t) := Effects.Keeps.write fun n => hP.touch n t

theorem touchRead {α : Type} (contract : String) (recorded : Storage → Recorded α) :
    Effects.Keeps P (Ask.touchRead contract recorded) := Effects.Keeps.write fun n hn => by
  split
  · exact hn
  · exact hP.touch n _ hn

omit hP in
/-- What is read of the storage is of the storage as it is. -/
theorem storage {α : Type} (f : Storage → Except PeqlError α) :
    Ends P (Ask.storage f) (fun a n => P n ∧ f n.storage = .ok a) fun _ => P :=
  Ends.read fun _ hn => Ends.ofExcept (fun _ ha _ ht => ht ▸ ⟨hn, ha⟩) fun _ _ _ ht => ht ▸ hn

/-- What a call loads beside local files, it has in hand. -/
theorem loadLocal (hreg : S reg) {root : String} (hl : e₀.bound reg = .ok (.files (.localDir root))) :
    Ends P (loadLocal (.localDir root) reg.name) (fun out n => P n ∧ ∀ m, out = some m → H reg m n) fun _ => P := by
  refine Ends.bind (hP.touchRead _ _) fun _ => ?_
  refine (storage _).mono (fun _ => id) (fun out n h => ⟨h.1, ?_⟩) fun _ _ => id
  rintro m rfl
  exact hP.found n reg _ m hreg hl (.inl ⟨none, Dir.load_facts h.2⟩) h.1

/-- And what it loads under a prefix. -/
theorem loadObject (hreg : S reg) {url : String} (hl : e₀.bound reg = .ok (.files (.object url))) :
    Ends P (loadObject (.object url) reg.name) (fun out n => P n ∧ ∀ m, out = some m → H reg m n) fun _ => P := by
  refine Ends.bind (hP.touchRead _ _) fun _ => ?_
  refine (storage _).mono (fun _ => id) (fun out n h => ⟨h.1, ?_⟩) fun _ _ => id
  rintro m rfl
  exact hP.found n reg _ m hreg hl (.inl ⟨none, Dir.loadObject_facts h.2⟩) h.1

/-- So it has what it loads of a snapshot. -/
theorem loadFacts (hreg : S reg) (hl : e₀.bound reg = .ok (.files (.iceberg table))) (snapshot : Int) :
    Ends P (loadFacts table snapshot reg.name) (fun out n => P n ∧ ∀ m, out = some m → H reg m n) fun _ => P := by
  refine Ends.bind (hP.touchRead _ _) fun _ => ?_
  refine (storage _).mono (fun _ => id) (fun out n h => ⟨h.1, ?_⟩) fun _ _ => id
  rintro m rfl
  obtain ⟨hn, hload⟩ := h
  refine hP.found n reg _ m hreg hl (.inl ?_) hn
  cases ht : n.storage.tables table with
  | none => simp [ht] at hload
  | some t =>
    rw [ht] at hload
    exact Storage.records_iceberg.2 ⟨t, snapshot, ht, loadFacts_facts hload⟩

theorem loadWriteFacts (table : String) (snapshot : TableSnapshot) (name : String) :
    Effects.Keeps P (loadWriteFacts table snapshot name) := by
  unfold Peql.loadWriteFacts
  cases snapshot.writeId with
  | none => exact keeps_storage _
  | some write => exact (hP.touchRead _ _).bind fun _ => keeps_storage _

/-- A manifest is saved beside files under a version looked up. -/
theorem saveManifest {m : Manifest} (hreg : S reg) (hl : e₀.bound reg = .ok (.files l))
    (htable : ∀ table, l ≠ .iceberg table) (hm : m.compilationHash = reg.compilation.contract.compilationHash) :
    Ends P (saveManifest l m) (fun _ => H reg m) fun _ => P := by
  refine Ends.bind (hP.touches _) fun _ n hn => ?_
  have hrecord := hP.record n reg l m hreg hl hm hn
  cases l with
  | iceberg table => exact absurd rfl (htable table)
  | localDir root => exact hrecord
  | object url => exact hrecord

/-- So are facts of a snapshot. -/
theorem saveFacts {m : Manifest} (hreg : S reg) (hl : e₀.bound reg = .ok (.files (.iceberg table)))
    (hm : m.compilationHash = reg.compilation.contract.compilationHash) :
    Ends P (saveFacts table m) (fun _ => H reg m) fun _ => P := by
  unfold Peql.saveFacts
  cases hs : m.snapshotId with
  | none => exact Ends.fail (E := fun _ => P) _
  | some snapshot =>
    refine Ends.bind (hP.touches _) fun _ n hn => ?_
    have hrecord := hP.record n reg _ m hreg hl hm hn
    unfold Storage.record at hrecord
    dsimp only at hrecord
    rwa [hs] at hrecord

/-! ### The facts of a snapshot -/

/-- The facts found on the way back are in hand. -/
theorem factsBack (hreg : S reg) (hl : e₀.bound reg = .ok (.files (.iceberg table))) (t : TableMetadata) (steps : Nat)
    (at_ : Option Int) (writes : List Pending) :
    Ends P (factsBack table t reg.name steps at_ writes)
      (fun out n => P n ∧ ∀ m rest, out = some (some m, rest) → H reg m n) fun _ => P := by
  have hnone : ∀ {out : Option (Option Manifest × List Pending)}, (∀ m rest, out ≠ some (some m, rest)) →
      Ends P (pure out : Ask (Option (Option Manifest × List Pending)))
        (fun out n => P n ∧ ∀ m rest, out = some (some m, rest) → H reg m n) fun _ => P :=
    fun hout n hn => ⟨hn, fun m rest h => absurd h (hout m rest)⟩
  induction steps generalizing at_ writes with
  | zero => cases at_ <;> exact hnone (by simp)
  | succ steps ih =>
    cases at_ with
    | none => exact hnone (by simp)
    | some s =>
      unfold Peql.factsBack
      cases t.snapshotById s with
      | none => exact hnone (by simp)
      | some snapshot =>
        refine Ends.bind (hP.loadFacts hreg hl s) fun found => ?_
        cases found with
        | some m =>
          rintro n ⟨hn, hfound⟩
          refine ⟨hn, ?_⟩
          rintro m' rest ⟨⟩
          exact hfound m rfl
        | none =>
          dsimp only
          refine Ends.bind ((hP.loadWriteFacts _ _ _).mono (fun _ h => h.1) (fun _ _ => id) fun _ _ => id)
            fun write => ?_
          cases write with
          | none => exact hnone (by simp)
          | some write =>
            dsimp only
            cases snapshot.time with
            | none => exact Ends.fail (E := fun _ => P) _
            | some time =>
              dsimp only
              split
              · exact hnone (by simp)
              · exact ih _ _

/-- And those computed on the way forward. -/
theorem factsForward (hreg : S reg) (hl : e₀.bound reg = .ok (.files (.iceberg table))) (writes : List Pending)
    (known : Option Manifest) :
    Ends (fun n => P n ∧ ∀ m, known = some m → H reg m n) (factsForward R table reg.compilation writes known)
      (fun out n => P n ∧ ∀ m, out = some m → H reg m n) fun _ => P := by
  induction writes generalizing known with
  | nil => exact fun n hn => hn
  | cons w writes ih =>
    obtain ⟨s, time, write⟩ := w
    unfold Peql.factsForward
    refine Ends.bind (Q := fun after n => P n ∧ ∀ m, after = some m →
      m.compilationHash = reg.compilation.contract.compilationHash)
      (Ends.ofExcept (fun after hafter n hn => ⟨hn.1, ?_⟩) fun _ _ _ hn => hn.1) fun after => ?_
    · rintro m rfl
      exact (afterWrite_carries hafter).2.2.2
    cases after with
    | none => exact fun n hn => ⟨hn.1, fun m h => absurd h.symm (Option.some_ne_none m)⟩
    | some m =>
      rintro n ⟨hn, hm⟩
      refine Ends.bind (hP.saveFacts hreg hl (hm m rfl)) (fun _ => (ih (some m)).mono (fun n' hn' => ?_) (fun _ _ => id)
        fun _ _ => id) n hn
      refine ⟨hP.drop n' reg m hn', ?_⟩
      rintro _ ⟨⟩
      exact hn'

/-- A snapshot's facts, once they are known, are in hand. -/
theorem icebergFacts (hreg : S reg) (hl : e₀.bound reg = .ok (.files (.iceberg table))) (t : TableMetadata)
    (snapshot : Int) :
    Ends P (icebergFacts R table t snapshot reg) (fun out n => P n ∧ ∀ m, out = some m → H reg m n) fun _ => P := by
  unfold Peql.icebergFacts
  refine Ends.bind (hP.factsBack hreg hl t _ _ _) fun found => ?_
  cases found with
  | none => exact fun n hn => ⟨hn.1, fun m h => absurd h.symm (Option.some_ne_none m)⟩
  | some found =>
    obtain ⟨known, writes⟩ := found
    refine (hP.factsForward hreg hl writes known).mono (fun n hn => ⟨hn.1, ?_⟩) (fun _ _ => id) fun _ _ => id
    rintro m rfl
    exact hn.2 m writes rfl

/-! ### A validation -/

theorem validateRows (c : Compilation) (rows : Multiset Row) : Effects.Keeps P (validateRows R c rows) :=
  (hP.touches _).bind fun _ => Effects.Keeps.ofExcept _

theorem whole (name : String) (c : Compilation) (l : Location) (at_ : Option Int) :
    Effects.Keeps P (whole R name c l at_) := by
  have hfiles : Effects.Keeps P (do
      let files ← listFiles l
      let verdict ← Peql.validateRows R c (providedRows c.contract false files)
      let entries := files.map fun f => f.entryFor c.contract
      return (⟨verdict, dataHash R.sha256 entries, none⟩, entries) : Ask (DataVerdict × List FileEntry)) :=
    (keeps_storage _).bind fun _ => (hP.validateRows _ _).bind fun _ => Effects.Keeps.ret _
  unfold Peql.whole
  split
  · refine (keeps_icebergSnapshot _ _ _).bind fun t => (Effects.Keeps.ofExcept _).bind fun _ => ?_
    exact (hP.validateRows _ _).bind fun _ => (Effects.Keeps.ofExcept _).bind fun _ => Effects.Keeps.ret _
  all_goals
    split
    · exact Effects.Keeps.fail _
    · exact hfiles

/-- What a validation finds is recorded, and in hand. -/
theorem records {m : Manifest} (hreg : S reg) (hl : e₀.bound reg = .ok (.files l))
    (hm : m.compilationHash = reg.compilation.contract.compilationHash) :
    Ends P (Peql.record reg.name l m) (fun _ => H reg m) fun _ => P := by
  unfold Peql.record
  cases l with
  | localDir root => exact hP.saveManifest hreg hl (fun _ h => nomatch h) hm
  | object url =>
    refine Ends.bind (hP.saveManifest hreg hl (fun _ h => nomatch h) hm) fun _ n hn => ?_
    exact hP.remember n reg _ m hl hn
  | iceberg table =>
    refine Ends.bind (keeps_icebergSnapshot _ _ _) fun found => Ends.bind (hP.saveFacts hreg hl hm) fun _ => ?_
    split
    · exact fun n hn => hP.remember n reg _ m hl hn
    · exact fun n hn => hn

/-- A validation records what it finds under the version it has looked up. -/
theorem refresh (name : String) (at_ : Option Int) :
    Ends P (refresh R name at_)
      (fun out n => P n ∧ ∀ reg, e₀.get name = .ok reg → H reg out.2 n) fun _ => P := by
  unfold Peql.refresh
  refine Ends.bind (keeps_now (P := P)) fun writtenAt => Ends.bind (hP.get name) fun reg => ?_
  rintro n ⟨hn, hget⟩
  have hreg := hP.looked name reg hget
  obtain rfl := get_name hget
  refine Ends.bind (hP.binds reg) (fun b => ?_) n hn
  cases b with
  | table batches => exact fun n hn => hn.1
  | files l =>
    rintro n ⟨hn, hl⟩
    refine Ends.bind (hP.whole _ _ _ _) (fun found => ?_) n hn
    refine Ends.bind (keeps_now (P := P)) fun decidedAt => Ends.bind (hP.records hreg hl rfl) fun _ n hn => ?_
    refine ⟨hP.drop n reg _ hn, fun reg' hreg' => ?_⟩
    cases hget.symm.trans hreg'
    exact hn

theorem validate (name : String) : Effects.Keeps P (validate R name) := by
  unfold Peql.validate
  refine (keeps_engine _).bind fun reg => (keeps_engine _).bind fun b => ?_
  cases b with
  | files l =>
    refine Effects.Keeps.bind ?_ fun _ => Effects.Keeps.ret _
    exact (hP.refresh name none).mono (fun _ => id) (fun _ _ h => h.1) fun _ _ => id
  | table batches =>
    unfold validateTable
    refine (hP.validateRows _ _).bind fun verdict => keeps_now.bind fun _ => ?_
    refine Effects.Keeps.bind (Effects.Keeps.write fun n hn => ?_) fun _ => Effects.Keeps.ret _
    exact hP.like n _ ⟨rfl, fun _ => rfl, rfl, rfl, rfl⟩ hn

/-! ### The manifest a read is decided by -/

/-- What the engine has of a contract's data, it takes in hand. -/
theorem manifest (name : String) :
    Ends P (manifest name)
      (fun out n => P n ∧ ∀ reg l m, e₀.get name = .ok reg → e₀.bound reg = .ok (.files l) → out = some m → H reg m n)
      fun _ => P := by
  unfold Peql.manifest
  refine Ends.bind (hP.get name) fun reg => ?_
  rintro n ⟨hn, hget⟩
  have hreg := hP.looked name reg hget
  obtain rfl := get_name hget
  -- what the engine remembers of the data
  have hhas : ∀ {l} {f : Engine → Lookup String Manifest}, e₀.bound reg = .ok (.files l) →
      (∀ e m, f e reg.name = some m → Engine.Has e l reg.name m) →
      Ends P (do
          Ask.touch (.manifestRead reg.name)
          Ask.engine fun e => .ok (f e reg.name) : Ask (Option Manifest))
        (fun out n => P n ∧ ∀ reg' l m, e₀.get reg.name = .ok reg' → e₀.bound reg' = .ok (.files l) → out = some m →
          H reg' m n) fun _ => P := by
    intro l f hl hf
    refine Ends.bind (hP.touches _) fun _ => Ends.read fun n hn => Ends.ofExcept (fun out hout t ht => ?_) fun _ h =>
      nomatch h
    subst ht
    cases hout
    refine ⟨hn, fun reg' _ m hget' _ hm => ?_⟩
    cases hget.symm.trans hget'
    exact hP.found t reg l m hreg hl (.inr (hf _ m hm)) hn
  refine Ends.bind (hP.binds reg) (fun b => ?_) n hn
  rintro n ⟨hn, hb⟩
  cases b with
  | table batches =>
    have hkeeps : Effects.Keeps P (do
        Ask.touch (.manifestRead reg.name)
        Ask.engine fun e => .ok (e.tableManifests reg.name) : Ask (Option Manifest)) :=
      (hP.touches _).bind fun _ => keeps_engine _
    refine (hkeeps.mono (fun _ => id) (fun out n hn => ?_) fun _ _ => id : Ends P _ (fun out n => P n ∧
      ∀ reg' l m, e₀.get reg.name = .ok reg' → e₀.bound reg' = .ok (.files l) → out = some m → H reg' m n) _) n hn
    refine ⟨hn, fun reg' l m hget' hl _ => ?_⟩
    cases hget.symm.trans hget'
    cases hb.symm.trans hl
  | files l =>
    cases l with
    | localDir root =>
      refine (hP.loadLocal hreg hb).mono (fun _ => id) (fun out n h => ⟨h.1, fun reg' _ m hget' _ hm => ?_⟩)
        (fun _ _ => id) n hn
      cases hget.symm.trans hget'
      exact h.2 m hm
    | object url => exact hhas hb (fun _ _ => id) n hn
    | iceberg table => exact hhas hb (fun _ _ => id) n hn

/-- What is known of a snapshot of its table is in hand. -/
theorem manifestAsOf (name : String) (snapshot : Int) :
    Ends P (manifestAsOf R name snapshot)
      (fun out n => P n ∧ ∀ reg m, e₀.get name = .ok reg → out = some m → H reg m n) fun _ => P := by
  unfold Peql.manifestAsOf
  refine Ends.bind (hP.get name) fun reg => ?_
  rintro n ⟨hn, hget⟩
  have hreg := hP.looked name reg hget
  obtain rfl := get_name hget
  refine Ends.bind (hP.binds reg) (fun b => ?_) n hn
  split
  · next table =>
    rintro n ⟨hn, hb⟩
    refine Ends.bind (keeps_storage (P := P) _) (fun t => ?_) n hn
    cases t with
    | none => exact Ends.fail (E := fun _ => P) _
    | some t =>
      dsimp only
      split
      · exact Ends.fail (E := fun _ => P) _
      · refine (hP.icebergFacts hreg hb t snapshot).mono (fun _ => id) (fun out n h => ⟨h.1, fun reg' m hget' hm => ?_⟩)
          fun _ _ => id
        cases hget.symm.trans hget'
        exact h.2 m hm
  · exact fun n hn => hn.1

/-- To ensure a manifest keeps what facts of versions looked up keep. -/
theorem ensureManifest (name : String) : Effects.Keeps P (ensureManifest R name) := by
  have hrefresh : ∀ at_, Effects.Keeps P (do
      let _ ← Peql.refresh R name at_
      pure () : Ask Unit) := fun at_ => Effects.Keeps.bind
    ((hP.refresh name at_).mono (fun _ => id) (fun _ _ h => h.1) fun _ _ => id) fun _ => Effects.Keeps.ret _
  unfold Peql.ensureManifest
  refine Ends.bind (hP.get name) fun reg => ?_
  rintro n ⟨hn, hget⟩
  have hreg := hP.looked name reg hget
  obtain rfl := get_name hget
  refine Ends.bind (hP.binds reg) (fun b => ?_) n hn
  rintro n ⟨hn, hb⟩
  cases b with
  | table batches => exact hn
  | files l =>
    cases l with
    | localDir root =>
      refine Ends.bind (hP.loadLocal hreg hb) (fun known => ?_) n hn
      refine Ends.mono (P := P) ?_ (fun _ h => h.1) (fun _ _ => id) fun _ _ => id
      refine (keeps_storage _).bind fun files => ?_
      split
      · exact Effects.Keeps.ret _
      · exact hrefresh _
    | object url =>
      refine Ends.bind (hP.loadObject hreg hb) (fun known => ?_) n hn
      cases known with
      | some m => exact fun n hn => hP.drop _ reg m (hP.remember n reg _ m hb (hn.2 m rfl))
      | none =>
        refine Ends.mono (P := P) ?_ (fun _ h => h.1) (fun _ _ => id) fun _ _ => id
        refine (keeps_storage _).bind fun files => ?_
        split
        · exact Effects.Keeps.ret _
        · exact hrefresh _
    | iceberg table =>
      refine Effects.Keeps.bind (keeps_storage _) (fun t => ?_) n hn
      split
      · exact fun n hn => hP.forget n (.iceberg table) reg.name hn
      · refine Ends.bind (hP.icebergFacts hreg hb _ _) fun known => ?_
        cases known with
        | some m => exact fun n hn => hP.drop _ reg m (hP.remember n reg _ m hb (hn.2 m rfl))
        | none => exact (hrefresh _).mono (fun _ h => h.1) (fun _ _ => id) fun _ _ => id

/-- One of a snapshot is in hand when it is given. -/
theorem ensureManifestAsOf (name : String) (snapshot : Int) :
    Ends P (ensureManifestAsOf R name snapshot)
      (fun m n => P n ∧ ∀ reg, e₀.get name = .ok reg → H reg m n) fun _ => P := by
  unfold Peql.ensureManifestAsOf
  refine Ends.bind (hP.manifestAsOf name snapshot) fun known => ?_
  cases known with
  | some m => exact fun n hn => ⟨hn.1, fun reg hget => hn.2 reg m hget rfl⟩
  | none =>
    refine Ends.bind ((hP.refresh name (some snapshot)).mono (fun _ h => h.1) (fun _ _ => id) fun _ _ => id) ?_
    exact fun out n hn => hn

/-- Every call that begins no write keeps it. -/
theorem calls : CallStable R P where
  looks := ⟨hP.ensureManifest,
    fun name snapshot => (hP.ensureManifestAsOf name snapshot).mono (fun _ => id) (fun _ _ h => h.1) fun _ _ => id,
    fun name => (hP.manifest name).mono (fun _ => id) (fun _ _ h => h.1) fun _ _ => id⟩
  validate := hP.validate
  budgets n _ := hP.like n _ ⟨rfl, fun _ => rfl, rfl, rfl, rfl⟩
  cache n _ := hP.like n _ ⟨rfl, fun _ => rfl, rfl, rfl, rfl⟩
  audit n _ := hP.like n _ ⟨rfl, fun _ => rfl, rfl, rfl, rfl⟩

/-- A read of files is resolved under the version looked up, by facts in hand. -/
theorem resolveWith {I : Node → Prop} (hI : ∀ n, I n → P n) {caller : Caller} {onViolation : OnReadViolation}
    {manifest : Ask (Option Manifest)} (hget : e₀.get name = .ok reg)
    (hmanifest : Ends I manifest (fun out n => P n ∧ ∀ m, out = some m → H reg m n) fun _ => P) :
    Ends I (resolveWith R name caller onViolation manifest)
      (fun a n => H reg a.2 n ∧ resolution R n.engine reg caller onViolation a.2 = .ok a.1) fun _ => P := by
  have hvisible : Ends I (Ask.engine fun e => e.visible name caller) (fun reg' n => I n ∧ reg' = reg) fun _ => P := by
    refine Ends.read fun n hn => Ends.ofExcept (fun reg' hreg' t ht => ?_) fun _ _ t ht => ht ▸ hI n hn
    subst ht
    refine ⟨hn, Option.some.inj ?_⟩
    rw [← get_ok.1 hget, ← Contents.current_of_versions (hP.versions t (hI t hn))]
    exact (get_ok.1 (visible_get hreg')).symm
  have hpure : ∀ {α : Type} (r : Except PeqlError α), Ends I (Effects.ofExcept r) (fun _ => I) fun _ => P :=
    fun r => (Effects.Keeps.ofExcept r).mono (fun _ => id) (fun _ _ => id) fun _ => hI
  unfold Peql.resolveWith
  refine Ends.bind hvisible fun reg' => ?_
  rintro n ⟨hn, rfl⟩
  refine Ends.bind (hpure _) (fun _ => Ends.bind (hpure _) fun rule => ?_) n hn
  cases rule with
  | some rule => exact fun n hn => hI n hn
  | none =>
    refine Ends.bind hmanifest fun out => ?_
    cases out with
    | none => exact fun n hn => hn.1
    | some m =>
      rintro n ⟨hn, hm⟩
      refine Ends.bind (P := (· = n)) (Q := fun r k => k = n ∧ resolution R n.engine reg' caller onViolation m = .ok r)
        (Ends.read fun k hk => Ends.ofExcept (fun r hr t ht => ⟨ht.trans hk, hk ▸ hr⟩) fun _ _ t ht => ?_) (fun r => ?_)
        n rfl
      · rw [ht, hk]
        exact hn
      · rintro k ⟨rfl, hr⟩
        exact ⟨hm m rfl, hr⟩

/-- So is one of a table's current snapshot, or of one it names. -/
theorem resolveAt {caller : Caller} {onViolation : OnReadViolation} (at_ : Option Int) (hget : e₀.get name = .ok reg)
    (hl : e₀.bound reg = .ok (.files l)) :
    Ends P (resolveAt R name caller onViolation at_)
      (fun a n => H reg a.2 n ∧ resolution R n.engine reg caller onViolation a.2 = .ok a.1) fun _ => P := by
  unfold Peql.resolveAt
  cases at_ with
  | none =>
    refine Ends.bind (hP.ensureManifest name) fun _ => hP.resolveWith (fun _ => id) hget ?_
    exact (hP.manifest name).mono (fun _ => id) (fun _ _ h => ⟨h.1, fun m => h.2 reg l m hget hl⟩) fun _ _ => id
  | some s =>
    refine Ends.bind (hP.ensureManifestAsOf name s) fun pinned => hP.resolveWith (fun _ h => h.1) hget ?_
    refine fun n hn => ⟨hn.1, ?_⟩
    rintro m ⟨⟩
    exact hn.2 reg hget

/-! ### A write -/

/-- A table is created, or given the columns a contract writes, with no facts new and no files. -/
theorem beginTable (table : String) (cc : CompiledContract) : Effects.Keeps P (beginTable table cc) := by
  unfold Peql.beginTable
  refine Ends.bind (storage (P := P) _) fun t => ?_
  rintro n ⟨hn, hfound⟩
  cases t with
  | none =>
    exact hP.fewer n (n.storage.setTable table _) (Storage.records_create fun _ _ _ h => nomatch h)
      (Storage.live_setTable fun _ hsn => absurd hsn List.not_mem_nil) hn
  | some t =>
    have hstore : P { n with storage := n.storage.changeTable table fun found =>
        { found with metadata := t.evolve (fileColumns cc true) } } := by
      refine hP.fewer n _ (Storage.records_changeTable fun _ _ _ _ => id) (Storage.live_changeTable ?_) hn
      intro t' ht' sn hsn f hf
      rw [ht'] at hfound
      cases hfound
      exact .inl ⟨t', sn, ht', hsn, hf⟩
    exact hstore

/-- A write is begun of the contract's current version, where its data is, with no files yet. -/
theorem beginWrite (name : String) (mode : WriteMode) (rewrite : Option (Int × List String))
    (onViolation : OnWriteViolation) (id : String) :
    Ends P (beginWrite name mode rewrite onViolation id)
      (fun w n => P n ∧ e₀.get name = .ok w.reg ∧ e₀.bound w.reg = .ok (.files w.location) ∧ w.files = [] ∧
        (∀ r, rewrite = some r → w.written = .rewrite)) fun _ => P := by
  unfold Peql.beginWrite
  refine Ends.bind (keeps_engine (P := P) _) fun frozen => ?_
  cases frozen with
  | some snapshot => exact fun n hn => hn
  | none =>
    dsimp only
    refine Ends.bind (hP.get name) fun reg => ?_
    rintro n ⟨hn, hget⟩
    refine Ends.bind (hP.binds reg) (fun b => ?_) n hn
    have hbegun : ∀ {w : Begun}, w.reg = reg → b = .files w.location → w.files = [] →
        (∀ r, rewrite = some r → w.written = .rewrite) → Ends (fun n => P n ∧ e₀.bound reg = .ok b) (pure w : Ask Begun)
          (fun w n => P n ∧ e₀.get name = .ok w.reg ∧ e₀.bound w.reg = .ok (.files w.location) ∧ w.files = [] ∧
            (∀ r, rewrite = some r → w.written = .rewrite)) fun _ => P := by
      rintro w rfl rfl hfiles hrewrites
      exact fun n hn => ⟨hn.1, hget, hn.2, hfiles, hrewrites⟩
    cases b with
    | table batches => exact fun n hn => hn.1
    | files l =>
      cases l with
      | iceberg table =>
        rintro n ⟨hn, hb⟩
        refine Ends.bind (hP.beginTable _ _) (fun t => ?_) n hn
        exact (hbegun rfl rfl rfl (by rintro _ rfl; rfl)).mono (fun _ h => ⟨h, hb⟩) (fun _ _ h => h) fun _ _ h => h
      | localDir root =>
        dsimp only
        split
        · exact fun n hn => hn.1
        · exact hbegun rfl rfl rfl (by rintro _ rfl; rfl)
      | object url =>
        dsimp only
        split
        · exact fun n hn => hn.1
        · exact hbegun rfl rfl rfl (by rintro _ rfl; rfl)

/-- So is a compaction. -/
theorem beginCompact (name : String) (smallFileBytes minSmallFiles : Nat) (id : String) :
    Ends P (beginCompact name smallFileBytes minSmallFiles id)
      (fun out n => P n ∧ ∀ w, out = some w → e₀.get name = .ok w.reg ∧ e₀.bound w.reg = .ok (.files w.location) ∧
        w.files = [] ∧ w.written = .rewrite) fun _ => P := by
  unfold Peql.beginCompact
  refine Ends.bind (keeps_engine (P := P) _) fun reg => Ends.bind (keeps_engine (P := P) _) fun b => ?_
  split
  · refine Ends.bind (keeps_icebergSnapshot (P := P) _ _ _) fun t => Ends.bind (Effects.Keeps.ofExcept (P := P) _)
      fun files => ?_
    dsimp only
    split
    · exact fun n hn => ⟨hn, fun _ h => nomatch h⟩
    · refine Ends.bind (hP.beginWrite _ _ _ _ _) fun w n hn => ⟨hn.1, ?_⟩
      rintro _ ⟨⟩
      obtain ⟨-, hget, hbound, hfiles, hrewrites⟩ := hn
      exact ⟨hget, hbound, hfiles, hrewrites _ rfl⟩
  · exact fun n hn => hn

section Finish

variable (w : Begun)

theorem writeFacts (c : Compilation) (writtenAt : Int) : Effects.Keeps P (w.writeFacts R c writtenAt) :=
  (hP.validateRows _ _).bind fun _ => Effects.Keeps.ret _

theorem factsUnder (writtenAt : Int) (regs : List Registered) :
    Ends P (w.factsUnder R writtenAt regs) (fun bs n => P n ∧ bs.map Prod.fst = regs) fun _ => P := by
  induction regs with
  | nil => exact fun n hn => ⟨hn, rfl⟩
  | cons reg rest ih =>
    unfold Begun.factsUnder
    refine Ends.bind (hP.writeFacts w _ _) fun facts => Ends.bind ih fun others n hn => ⟨hn.1, ?_⟩
    rw [List.map_cons, hn.2]

theorem knownBefore (reg : Registered) : Effects.Keeps P (w.knownBefore reg) := by
  have hload : ∀ {load : Ask (Option Manifest)} {next : Option Manifest → Ask Before}, Effects.Keeps P load →
      (∀ m, next (some m) = pure (some (some m))) →
      (next none = do
        let files ← listFiles w.location
        pure (if files.isEmpty then some none else none)) → Effects.Keeps P (load >>= next) := by
    intro load next hload hsome hnone
    refine hload.bind fun known => ?_
    cases known with
    | some m =>
      rw [hsome]
      exact Effects.Keeps.ret _
    | none =>
      rw [hnone]
      exact (keeps_storage _).bind fun _ => Effects.Keeps.ret _
  unfold Begun.knownBefore
  generalize hl : w.location = l at hload
  have hbeside : Effects.Keeps P (Peql.loadLocal l reg.name) := (hP.touchRead _ _).bind fun _ => keeps_storage _
  have hobject : Effects.Keeps P (Peql.loadObject l reg.name) := (hP.touchRead _ _).bind fun _ => keeps_storage _
  cases w.written with
  | overwrite => exact Effects.Keeps.ret _
  | append | rewrite =>
    cases l with
    | object url => exact hload hobject (fun _ => rfl) rfl
    | localDir root => exact hload hbeside (fun _ => rfl) rfl
    | iceberg table => exact hload hbeside (fun _ => rfl) rfl

theorem knownBefores (bound : List (Registered × WriteFacts)) :
    Ends P (w.knownBefores bound) (fun known n => P n ∧ known.map Prod.fst = bound) fun _ => P := by
  induction bound with
  | nil => exact fun n hn => ⟨hn, rfl⟩
  | cons b rest ih =>
    unfold Begun.knownBefores
    refine Ends.bind (hP.knownBefore w _) fun before => Ends.bind ih fun others n hn => ⟨hn.1, ?_⟩
    rw [List.map_cons, hn.2]

/-- A contract's manifest after the write is recorded under the version the write has of it, or removed. -/
theorem recordAfter (hreg : S reg) (hl : e₀.bound reg = .ok (.files w.location))
    (htable : ∀ table, w.location ≠ .iceberg table) {after : Option Manifest}
    (hafter : ∀ m, after = some m → m.compilationHash = reg.compilation.contract.compilationHash) :
    Effects.Keeps P (w.recordAfter reg.name after) := by
  unfold Begun.recordAfter
  generalize w.location = l at hl htable
  cases after with
  | some m =>
    refine Ends.bind (hP.saveManifest hreg hl htable (hafter m rfl)) fun _ => ?_
    cases l with
    | object url => exact fun n hn => hP.drop _ reg m (hP.remember n reg _ m hl hn)
    | localDir root => exact fun n hn => hP.drop n reg m hn
    | iceberg table => exact fun n hn => hP.drop n reg m hn
  | none =>
    have hremove : Effects.Keeps P (Ask.store fun s => s.setDir l ((s.dirs l).remove reg.name)) := by
      refine Effects.Keeps.write fun n hn => hP.fewer n _ (Storage.records_setDir fun file m hm => ?_)
        (Storage.live_setDir fun _ => .inl) hn
      by_cases hfile : file = manifestFile reg.name
      · subst hfile
        rw [Dir.manifests_remove_self] at hm
        cases hm
      · rwa [Dir.manifests_remove_of_ne _ _ hfile] at hm
    refine hremove.bind fun _ => ?_
    cases l with
    | object url => exact fun n hn => hP.forget n (.object url) reg.name hn
    | localDir root => exact Effects.Keeps.ret _
    | iceberg table => exact Effects.Keeps.ret _

/-- So is every contract's. -/
theorem recordAll (htable : ∀ table, w.location ≠ .iceberg table) (writtenAt : Int)
    {known : List ((Registered × WriteFacts) × Before)} (own : Option Manifest)
    (hknown : ∀ b ∈ known.map Prod.fst, S b.1 ∧ e₀.bound b.1 = .ok (.files w.location)) :
    Effects.Keeps P (w.recordAll R writtenAt known own) := by
  induction known generalizing own with
  | nil => exact Effects.Keeps.ret _
  | cons x rest ih =>
    obtain ⟨⟨reg, facts⟩, before⟩ := x
    obtain ⟨⟨hreg, hl⟩, hrest⟩ := List.forall_mem_cons.1 hknown
    unfold Begun.recordAll
    refine Ends.bind (Q := fun after n => P n ∧ ∀ m, after = some m →
      m.compilationHash = reg.compilation.contract.compilationHash)
      (Ends.ofExcept (fun after hafter n hn => ⟨hn, ?_⟩) fun _ _ _ => id) fun after => ?_
    · rintro m rfl
      cases before with
      | none => cases hafter
      | some before => exact (afterWrite_carries hafter).2.2.2
    · rintro n ⟨hn, hafter⟩
      exact (hP.recordAfter w hreg hl htable hafter).bind (fun _ => ih _ hrest) n hn

/-- Files are published, and what each contract then knows recorded. -/
theorem publishFiles (hnew : ∀ f ∈ w.files, New f) (htable : ∀ table, w.location ≠ .iceberg table)
    {bound : List (Registered × WriteFacts)} (writtenAt : Int)
    (hbound : ∀ b ∈ bound, S b.1 ∧ e₀.bound b.1 = .ok (.files w.location)) :
    Effects.Keeps P (w.publishFiles R bound writtenAt) := by
  unfold Begun.publishFiles
  refine Ends.bind (hP.knownBefores w bound) fun known => ?_
  rintro n ⟨hn, hknown⟩
  refine Effects.Keeps.bind (Effects.Keeps.write fun n hn => ?_)
    (fun _ => hP.recordAll w htable writtenAt none (hknown ▸ hbound)) n hn
  exact hP.fewer n _ (Storage.records_setDir fun _ _ => id) (Storage.live_setDir fun _ => Begun.filesOver_new hnew) hn

/-- The facts of a write are recorded of the table as it is. -/
theorem saveAllWriteFacts (table id : String) (t : TableMetadata) (bound : List (Registered × WriteFacts)) :
    Effects.Keeps (fun n => P n ∧ ∃ found, n.storage.tables table = some found ∧ found.metadata = t)
      (Begun.saveAllWriteFacts table id bound) := by
  induction bound with
  | nil => exact Effects.Keeps.ret _
  | cons b rest ih =>
    unfold Begun.saveAllWriteFacts
    refine Effects.Keeps.bind (Effects.Keeps.write ?_) fun _ => ih
    rintro n ⟨hn, found, hfound, ht⟩
    refine ⟨hP.fewer n _ (Storage.records_changeTable fun _ _ _ _ h => h) (Storage.live_changeTable ?_) hn, ?_⟩
    · intro t' ht' sn hsn f hf
      exact .inl ⟨t', sn, ht', hsn, hf⟩
    · refine ⟨found.saveWriteFacts id b.2, ?_, ht⟩
      dsimp only
      unfold Storage.changeTable
      rw [hfound]
      exact Storage.setTable_self ..

/-- The facts of a snapshot committed are computed under the versions the write has. -/
theorem keepFacts (table : String) (t : TableMetadata) (snapshot : Int) {bound : List (Registered × WriteFacts)}
    (own : Option Manifest) (hbound : ∀ b ∈ bound, S b.1 ∧ e₀.bound b.1 = .ok (.files (.iceberg table))) :
    Effects.Keeps P (w.keepFacts R table t snapshot bound own) := by
  induction bound generalizing own with
  | nil => exact Effects.Keeps.ret _
  | cons b rest ih =>
    obtain ⟨reg, facts⟩ := b
    obtain ⟨⟨hreg, hl⟩, hrest⟩ := List.forall_mem_cons.1 hbound
    unfold Begun.keepFacts
    refine Ends.bind (Ends.attempt (hP.icebergFacts hreg hl t snapshot)
      (R := fun found n => P n ∧ ∀ m, found.toOption.join = some m → H reg m n) (fun _ _ => id)
      fun _ _ hn => ⟨hn, fun m h => absurd h.symm (Option.some_ne_none m)⟩) fun found => ?_
    dsimp only
    generalize found.toOption.join = after
    have hremember : ∀ m, Ends (H reg m)
        (Ask.remember fun e => { e with icebergManifests := e.icebergManifests.insert reg.name m }) (fun _ => P)
        fun _ => P := fun m n hn => hP.drop _ reg m (hP.remember n reg _ m hl hn)
    have hforget : Effects.Keeps P
        (Ask.remember fun e => { e with icebergManifests := e.icebergManifests.erase reg.name }) :=
      fun n hn => hP.forget n (.iceberg table) reg.name hn
    cases after with
    | none => exact (hforget.bind fun _ => ih _ hrest).mono (fun _ h => h.1) (fun _ _ => id) fun _ _ => id
    | some m =>
      dsimp only
      split
      · exact (Ends.bind (hremember m) fun _ => ih _ hrest).mono (fun _ h => h.2 m rfl) (fun _ _ => id) fun _ _ => id
      · exact (ih _ hrest).mono (fun _ h => h.1) (fun _ _ => id) fun _ _ => id

/-- A snapshot is committed, with the facts of each contract. -/
theorem publishTable (hnew : ∀ f ∈ w.files, New f) (table : String)
    (commit : TableMetadata → Except PeqlError (Int × Option Int)) {bound : List (Registered × WriteFacts)}
    (hbound : ∀ b ∈ bound, S b.1 ∧ e₀.bound b.1 = .ok (.files (.iceberg table))) :
    Effects.Keeps P (w.publishTable R table commit bound) := by
  unfold Begun.publishTable
  cases w.iceberg with
  | none => exact Effects.Keeps.fail _
  | some begun =>
    refine Ends.bind (storage (P := P) _) fun t => ?_
    rintro n ⟨hn, hfound⟩
    cases t with
    | none => exact hn
    | some t =>
      have hthere : ∃ found, n.storage.tables table = some found ∧ found.metadata = t := by
        have hfound := Except.ok.inj hfound
        cases ht : n.storage.tables table with
        | none =>
          rw [ht] at hfound
          cases hfound
        | some found =>
          rw [ht] at hfound
          exact ⟨found, rfl, Option.some.inj hfound⟩
      refine Ends.bind ((hP.saveAllWriteFacts table begun.id t bound).mono (fun _ => id) (fun _ _ => id)
        fun _ _ h => h.1) (fun _ => Ends.bind (Ends.ofExcept (fun _ _ _ => id) fun _ _ _ h => h.1) fun answer => ?_) n
          ⟨hn, hthere⟩
      refine Ends.bind (Q := fun _ => P) ?_ fun _ =>
        (hP.keepFacts w _ _ _ _ hbound).bind fun _ => Effects.Keeps.ret _
      rintro n ⟨hn, found, hnow, rfl⟩
      refine hP.fewer n _ (Storage.records_changeTable fun _ _ _ _ => id) (Storage.live_changeTable ?_) hn
      intro t' ht' sn hsn f hf
      cases hnow.symm.trans ht'
      rcases List.mem_append.1 hsn with hsn | hsn
      · exact .inl ⟨found, sn, hnow, hsn, hf⟩
      · obtain rfl := List.mem_singleton.1 hsn
        refine (Begun.filesOver_new hnew hf).imp_left fun hf => ?_
        obtain ⟨sn, hsn, hf⟩ := TableMetadata.mem_filesAt hf
        exact ⟨found, sn, hnow, hsn, hf⟩

/-- **To finish a write keeps it**, when its contract is one looked up, and its place where the engine has it. -/
theorem finishWrite (commit : TableMetadata → Except PeqlError (Int × Option Int)) (hreg : S w.reg)
    (hl : e₀.bound w.reg = .ok (.files w.location)) (hnew : ∀ f ∈ w.files, New f) :
    Effects.Keeps P (w.finishWrite R commit) := by
  unfold Begun.finishWrite
  refine Ends.bind (Q := fun bound n => P n ∧ ∀ reg ∈ bound, S reg ∧ e₀.bound reg = .ok (.files w.location))
    (Ends.read fun n hn => Ends.ofExcept (fun bound hbound t ht => ?_) fun _ _ t ht => ht ▸ hn) fun bound => ?_
  · subst ht
    cases hbound
    refine ⟨hn, List.forall_mem_cons.2 ⟨⟨hreg, hl⟩, fun reg hmem => ?_⟩⟩
    obtain ⟨hlist, hwhere⟩ := List.mem_filter.1 hmem
    have hget : e₀.get reg.name = .ok reg := get_ok.2 <|
      (Contents.current_of_versions (hP.versions t hn) _).symm.trans (Contents.mem_list.1 hlist)
    refine ⟨hP.looked _ _ hget, (hP.bound t hn reg).symm.trans ?_⟩
    have hplace := (Bool.and_eq_true_iff.1 hwhere).2
    split at hplace
    · next heq =>
      rw [heq, of_decide_eq_true hplace]
    · cases hplace
  rintro n ⟨hn, hbound⟩
  refine Ends.bind (keeps_now (P := P)) (fun writtenAt => Ends.bind (hP.writeFacts w _ _) fun r => ?_) n hn
  refine Ends.bind (Effects.Keeps.ofExcept (P := P) _) fun _ => Ends.bind (hP.factsUnder w _ _) fun others => ?_
  rintro n ⟨hn, hmap⟩
  have hall : ∀ b ∈ (w.reg, r.2) :: others, S b.1 ∧ e₀.bound b.1 = .ok (.files w.location) := by
    refine List.forall_mem_cons.2 ⟨⟨hreg, hl⟩, fun b hb => hbound b.1 (List.mem_of_mem_tail ?_)⟩
    exact hmap ▸ List.mem_map_of_mem hb
  generalize hloc : w.location = l at hall
  cases l with
  | iceberg table =>
    exact Ends.bind (hP.publishTable w hnew table commit hall) (fun _ => Effects.Keeps.ret _) n hn
  | localDir root =>
    have htable : ∀ table, w.location ≠ .iceberg table := fun _ h => nomatch hloc.symm.trans h
    exact Ends.bind (hP.publishFiles w hnew htable writtenAt (hloc ▸ hall)) (fun _ => Effects.Keeps.ret _) n hn
  | object url =>
    have htable : ∀ table, w.location ≠ .iceberg table := fun _ h => nomatch hloc.symm.trans h
    exact Ends.bind (hP.publishFiles w hnew htable writtenAt (hloc ▸ hall)) (fun _ => Effects.Keeps.ret _) n hn

end Finish

end FactsStable

end Peql
