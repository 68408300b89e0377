import Peql.Engine.Reconciled
import Peql.Engine.Truth

/-!
# Reads count the rows of the data

`resolveAt` says of a read how many rows of its data break each rule, from the facts recorded of the data or computed
of it: in every state a fleet reaches they are facts that tell of the files read, so the counts are those of the files'
rows (`read_counts`). A snapshot named is the same files for good (`snapshot_read_again`).
-/

namespace Peql

open Effects Runs

variable {R : Runtime} {V : Compilation → Prop} {rd : Compilation → Reading}

/-! ## What is recorded for a read -/

section Recorded

variable {s : Storage} {l : Location} {at_ : Option Int} {name : String} {m m' : Manifest}

/-- What is recorded beside files after a save is what was saved, there and in its file, or what there was. -/
theorem recordedFor_save {l' : Location} (h : recordedFor (s.setDir l' ((s.dirs l').save m)) l at_ name = .facts m') :
    (l = l' ∧ manifestFile name = manifestFile m.contract ∧ m' = m) ∨ recordedFor s l at_ name = .facts m' := by
  have hdir : ∀ {l}, ((s.setDir l' ((s.dirs l').save m)).dirs l).recorded name = .facts m' →
      (l = l' ∧ manifestFile name = manifestFile m.contract ∧ m' = m) ∨ (s.dirs l).recorded name = .facts m' := by
    intro l hl
    by_cases hll : l = l'
    · subst hll
      rw [Storage.setDir_self] at hl
      by_cases hfile : manifestFile name = manifestFile m.contract
      · have hself : Recorded.facts m = .facts m' := by
          rw [← hl, ← Dir.recorded_save_self (s.dirs l) m]
          unfold Dir.recorded
          rw [hfile]
        exact .inl ⟨rfl, hfile, (Recorded.facts.inj hself).symm⟩
      · exact .inr ((Dir.manifests_save_of_ne _ m hfile).symm.trans hl)
    · rw [Storage.setDir_of_ne _ hll] at hl
      exact .inr hl
  cases l with
  | iceberg table => exact .inr h
  | localDir root => exact hdir h
  | object url => exact hdir h

/-- What is recorded of a snapshot. -/
theorem recordedFor_iceberg {table : String} :
    recordedFor s (.iceberg table) at_ name = .facts m ↔ ∃ t id, s.tables table = some t ∧
      at_.or t.metadata.current = some id ∧ t.facts id (manifestFile name) = .facts m := by
  constructor
  · intro h
    unfold recordedFor at h
    dsimp only at h
    split at h
    next t ht =>
      split at h
      next id hid => exact ⟨t, id, ht, hid, h⟩
      next => cases h
    next => cases h
  · rintro ⟨t, id, ht, hid, hfacts⟩
    unfold recordedFor
    simp only [ht, hid, hfacts]

/-- What is recorded of a snapshot after a save is what was saved, or what there was. -/
theorem recordedFor_saveFacts {table : String} {snapshot : Int}
    (h : recordedFor (s.saveFacts table snapshot m) l at_ name = .facts m') :
    (l = .iceberg table ∧ manifestFile name = manifestFile m.contract ∧ m' = m) ∨
      recordedFor s l at_ name = .facts m' := by
  cases l with
  | localDir root =>
    unfold recordedFor at h ⊢
    rw [Storage.saveFacts_dirs] at h
    exact .inr h
  | object url =>
    unfold recordedFor at h ⊢
    rw [Storage.saveFacts_dirs] at h
    exact .inr h
  | iceberg table' =>
    rw [recordedFor_iceberg] at h ⊢
    obtain ⟨t', id, ht', hid, hfacts⟩ := h
    rw [Storage.saveFacts_tables] at ht'
    by_cases heq : table' = table
    · subst heq
      rw [if_pos rfl] at ht'
      obtain ⟨t, ht, rfl⟩ := Option.map_eq_some_iff.1 ht'
      rw [IcebergTable.facts_saveFacts] at hfacts
      split at hfacts
      · next hself => exact .inl ⟨rfl, hself.2, (Recorded.facts.inj hfacts).symm⟩
      · exact .inr ⟨t, id, ht, hid, hfacts⟩
    · rw [if_neg heq] at ht'
      exact .inr ⟨t', id, ht', hid, hfacts⟩

end Recorded

/-- What is recorded for a read is computed under one compilation, if it was to begin with. -/
def Under (P : Prop) (l : Location) (at_ : Option Int) (name hash : String) (s : Storage) : Prop :=
  P → ∀ m, recordedFor s l at_ name = .facts m → m.compilationHash = hash

/-- To watch the version a condition asks for. -/
theorem watches_under (P : Prop) (l : Location) (at_ : Option Int) (name hash : String) :
    Watches (Under P l at_ name hash) (fun m => P → m.compilationHash = hash) l at_ name hash where
  saves := by
    refine ⟨fun s l' m hm hs hP m' hm' => ?_, fun s table snapshot m hm hs hP m' hm' => ?_⟩
    · rcases recordedFor_save hm' with ⟨-, -, rfl⟩ | hold
      · exact hm
      · exact hs hP m' hold
    · rcases recordedFor_saveFacts hm' with ⟨-, -, rfl⟩ | hold
      · exact hm
      · exact hs hP m' hold
  recorded _ m hs hm hP := hs hP m hm
  computed _ hm _ := hm

/-! ## The manifest a read is decided by -/

section Reads

variable {n₀ : Node} {U : Storage → Prop} {W : Manifest → Prop} {l : Location} {at_ : Option Int} {reg : Registered}
  {name hash : String}

/-- The engine has, of a contract's data, what its manifest was seen to be. -/
theorem steady_manifest (hW : Watches U W l none name hash) (hreg : n₀.engine.get name = .ok reg)
    (hl : n₀.engine.bound reg = .ok (.files l)) :
    Ends (fun n => Steady V rd U n₀ n ∧ RememberedOf V rd W n₀.storage l name n.engine) (manifest name)
      (fun found n => Steady V rd U n₀ n ∧ ∀ m, found = some m → Decides V rd W n₀.storage l none m)
      (fun _ => Steady V rd U n₀) := by
  unfold manifest
  rintro n ⟨hn, hknown⟩
  rw [bind_apply, Ask.engine_apply, hn.get, hreg]
  dsimp only
  rw [bind_apply, Ask.engine_apply, hn.bound, hl]
  cases l with
  | localDir root =>
    refine (steady_loadLocal (.localDir root) name).mono (fun _ => id) (fun known n' h => ⟨h.1, fun m hm => ?_⟩)
      (fun _ _ => id) n hn
    obtain ⟨hrecorded, htells⟩ := h.2 m hm
    exact ⟨htells, trivial, hW.recordedBeside (fun _ h => by cases h) h.1.watched hrecorded⟩
  | object url => exact ⟨hn.touched _, hknown⟩
  | iceberg table => exact ⟨hn.touched _, hknown⟩

/-- The facts of a snapshot named, recorded or computed. -/
theorem steady_ensureManifestAsOf (hR : Counts R V rd) {s : Int} (hW : Watches U W l (some s) name hash)
    (hc : V reg.compilation) (hhash : reg.compilation.contract.compilationHash = hash) (hname : reg.name = name)
    (hreg : n₀.engine.get name = .ok reg) (hl : n₀.engine.bound reg = .ok (.files l)) :
    Ends (Steady V rd U n₀) (ensureManifestAsOf R name s)
      (fun m n => Steady V rd U n₀ n ∧ Decides V rd W n₀.storage l (some s) m) (fun _ => Steady V rd U n₀) := by
  have hfacts : Ends (Steady V rd U n₀) (manifestAsOf R name s)
      (fun found n => Steady V rd U n₀ n ∧ ∀ m, found = some m → Decides V rd W n₀.storage l (some s) m)
      (fun _ => Steady V rd U n₀) := by
    unfold manifestAsOf
    refine Ends.bind (steady_get name) fun found => ?_
    rintro n ⟨hn, hfound⟩
    cases hreg.symm.trans hfound
    refine Ends.bind (steady_bound reg) (fun b => ?_) n hn
    rintro n ⟨hn, hb⟩
    cases hl.symm.trans hb
    cases l with
    | localDir root => exact hn
    | object url => exact hn
    | iceberg table =>
    refine Ends.bind (steady_loadTable table) (fun found => ?_) n hn
    rintro n ⟨hn, rfl⟩
    cases ht : n₀.storage.tables table with
    | none => exact hn
    | some t =>
      refine (?_ : Ends (Steady V rd U n₀) _ _ _) n hn
      dsimp only [Option.map_some]
      split
      · exact fun _ => id
      refine (steady_icebergFacts hW.saves ht hR hc hhash s).mono (fun _ => id)
        (fun found n' h => ⟨h.1, fun m hm => ?_⟩)
        fun _ _ => id
      obtain ⟨htells, hid, hknown⟩ := h.2 m hm
      have hlive : liveFiles n₀.storage (.iceberg table) (some s) = t.metadata.filesAt (some s) :=
        AtSnapshot.files ht rfl
      refine ⟨hlive ▸ htells, ⟨t, s, ht, rfl, hid⟩, ?_⟩
      rcases hknown with hrecorded | hcomputed
      · obtain ⟨t', ht', _⟩ := h.1.found ht
        exact hW.recordedAt h.1.watched ht' rfl (hname ▸ hrecorded)
      · exact hW.computed _ hcomputed
  unfold ensureManifestAsOf
  refine Ends.bind hfacts fun found => ?_
  cases found with
  | some m => exact fun n hn => ⟨hn.1, hn.2 m rfl⟩
  | none =>
    refine Ends.bind ((steady_refresh hW.saves hR hc hhash hreg hl (some s)).mono (fun _ h => h.1) (fun _ _ => id)
      fun _ _ => id) fun r => ?_
    rintro n ⟨hn, hm⟩
    exact ⟨hn, hm.tells, hm.atSnapshot.is, hW.computed _ hm.computed⟩

/-- A resolution, by whatever manifest it is given. -/
theorem steady_resolveWith {D : Manifest → Prop} {P : Node → Prop} {known : Ask (Option Manifest)}
    (hP : ∀ n, P n → Steady V rd U n₀ n) (hreg : n₀.engine.get name = .ok reg)
    (hknown : Ends P known (fun found n => Steady V rd U n₀ n ∧ ∀ m, found = some m → D m)
      (fun _ => Steady V rd U n₀)) (caller : Caller) (onViolation : OnReadViolation) :
    Ends P (resolveWith R name caller onViolation known)
      (fun r n => Steady V rd U n₀ n ∧ D r.2 ∧ resolution R n.engine reg caller onViolation r.2 = .ok r.1)
      (fun _ => Steady V rd U n₀) := by
  have hvisible : Ends P (Ask.engine fun e => e.visible name caller) (fun found n => P n ∧ found = reg)
      (fun _ => Steady V rd U n₀) := by
    intro n hn
    rw [Ask.engine_apply, (hP n hn).visible]
    cases hv : n₀.engine.visible name caller with
    | error e => exact hP n hn
    | ok found =>
      cases hreg.symm.trans (get_of_visible hv)
      exact ⟨hn, rfl⟩
  unfold resolveWith
  refine Ends.bind hvisible fun found => ?_
  rintro n ⟨hn, rfl⟩
  refine (?_ : Ends P _ _ _) n hn
  refine Ends.bind (Ends.ofExcept (Q := fun _ => P) (fun _ _ _ h => h) fun _ _ => hP) fun _ => ?_
  refine Ends.bind (Ends.ofExcept (Q := fun _ => P) (fun _ _ _ h => h) fun _ _ => hP) fun refused => ?_
  cases refused with
  | some rule => exact hP
  | none =>
    refine Ends.bind hknown fun m => ?_
    cases m with
    | none => exact fun _ hn => hn.1
    | some m =>
      rintro n ⟨hn, hm⟩
      refine Ends.bind
        (Q := fun a n => Steady V rd U n₀ n ∧ resolution R n.engine found caller onViolation m = .ok a)
        (fun n hn => ?_) (fun a n hn => ?_) n hn
      · rw [Ask.engine_apply]
        cases hr : resolution R n.engine found caller onViolation m with
        | error e => exact hn
        | ok a => exact ⟨hn, hr⟩
      · exact ⟨hn.1, hm m rfl, hn.2⟩

/-- A reference resolved, by facts that tell of the data it is to be read from. -/
theorem steady_resolveAt (hR : Counts R V rd) (hW : Watches U W l at_ name hash) (hc : V reg.compilation)
    (hhash : reg.compilation.contract.compilationHash = hash) (hname : reg.name = name)
    (hreg : n₀.engine.get name = .ok reg) (hl : n₀.engine.bound reg = .ok (.files l)) (hun : Unremembered n₀ l name)
    (htold : Steady V rd U n₀ n₀) (caller : Caller) (onViolation : OnReadViolation) :
    Ends (fun n => n = n₀) (resolveAt R name caller onViolation at_)
      (fun r n => Steady V rd U n₀ n ∧ Decides V rd W n₀.storage l at_ r.2 ∧
        resolution R n.engine reg caller onViolation r.2 = .ok r.1)
      (fun _ => Steady V rd U n₀) := by
  unfold resolveAt
  cases at_ with
  | none =>
    refine Ends.bind (steady_ensureManifest hR hW hc hhash hname hreg hl hun htold) fun _ => ?_
    exact steady_resolveWith (fun _ h => h.1) hreg (steady_manifest hW hreg hl) caller onViolation
  | some s =>
    refine Ends.bind ((steady_ensureManifestAsOf hR hW hc hhash hname hreg hl).mono ?_ (fun _ _ => id)
      fun _ _ => id) fun m => ?_
    · rintro n rfl
      exact htold
    · have hgiven : Ends (fun n => Steady V rd U n₀ n ∧ Decides V rd W n₀.storage l (some s) m)
          (pure (some m) : Ask (Option Manifest))
          (fun found n => Steady V rd U n₀ n ∧ ∀ m', found = some m' → Decides V rd W n₀.storage l (some s) m')
          (fun _ => Steady V rd U n₀) := by
        rintro n ⟨hn, hm⟩
        refine ⟨hn, ?_⟩
        rintro _ ⟨⟩
        exact hm
      exact steady_resolveWith (fun _ h => h.1) hreg hgiven caller onViolation

end Reads

/-! ## What a read says -/

/-- What a read says of the rows it leaves out: of each rule enforced, how many rows of some files break it. -/
structure CountsOf (rd : Compilation → Reading) (c : Compilation) (live : List StoredFile)
    (onViolation : OnReadViolation) (a : Resolution) : Prop where
  excluded : ∀ rule count, (rule, count) ∈ a.excluded ↔ ∃ f ∈ c.contract.flags, enforced f.onFail = true ∧
    f.assertId = rule ∧ 0 < count ∧ count = (providedRows c.contract false live).countP fun r => (rd c).fails rule r
  refused : onViolation = .refuse → ∀ f ∈ c.contract.flags, enforced f.onFail = true →
    ∀ r ∈ providedRows c.contract false live, (rd c).fails f.assertId r = false

/-- Facts that tell of the files count them. -/
theorem countsOf_of_tells (hR : Counts R V rd) {c : Compilation} (hc : V c) {live : List StoredFile} {m : Manifest}
    (htells : Tells V rd live m) (hhash : m.compilationHash = c.contract.compilationHash)
    {onViolation : OnReadViolation} {a : Resolution} (hexcluded : a.excluded = broken c.contract.flags m.failures)
    (hrefused : onViolation = .refuse → a.excluded = []) : CountsOf rd c live onViolation a := by
  have hfailing : ∀ f ∈ c.contract.flags, m.failures f.assertId =
      some (((providedRows c.contract false live).countP fun r => (rd c).fails f.assertId r : ℕ) : Int) := by
    intro f hf
    rw [htells.failures c hc hhash]
    exact if_pos (hR.asserts c hc f hf)
  refine ⟨fun rule count => ?_, fun hon f hf henf r hr => ?_⟩
  · rw [hexcluded, mem_broken]
    refine exists_congr fun f => and_congr_right fun hf => and_congr_right fun _ => ?_
    refine and_congr_right fun hrule => and_congr_right fun _ => ?_
    subst hrule
    rw [hfailing f hf, Option.some.injEq, Nat.cast_inj, eq_comm]
  · have hnone := hrefused hon
    rw [hexcluded, broken_eq_nil] at hnone
    have hle := hnone f hf henf
    rw [hfailing f hf, Option.getD_some] at hle
    have hzero : (providedRows c.contract false live).countP (fun r => (rd c).fails f.assertId r) = 0 := by omega
    exact Bool.eq_false_of_not_eq_true (Multiset.countP_eq_zero.1 hzero r hr)

section Fleet

variable {τ : Fleet} {k : Nat} {now : Int} {name : String} {caller : Caller} {onViolation : OnReadViolation}
  {at_ : Option Int} {reg : Registered} {l : Location} {a : Resolution} {m : Manifest} {n : Node}

/-- What a read leaves and is decided by, over a storage whose recorded facts are true. -/
theorem Fleet.Sound.resolved (hR : Counts R V rd) (h : τ.Sound V rd) (hreg : (τ.engines k).get name = .ok reg)
    (hl : (τ.engines k).bound reg = .ok (.files l)) (hun : Unremembered (τ.node k now) l name)
    (hread : resolveAt R name caller onViolation at_ (τ.node k now) = .ok (a, m) n) :
    Unmoved V rd (τ.node k now) n ∧
      Decides V rd (fun m => (∀ m, recordedFor τ.storage l at_ name = .facts m →
          m.compilationHash = reg.compilation.contract.compilationHash) →
        m.compilationHash = reg.compilation.contract.compilationHash) τ.storage l at_ m ∧
      resolution R n.engine reg caller onViolation m = .ok a := by
  have hc : V reg.compilation := h.registers k name reg (get_ok.1 hreg)
  have hstart : Steady V rd (Under (∀ m, recordedFor τ.storage l at_ name = .facts m →
      m.compilationHash = reg.compilation.contract.compilationHash) l at_ name
      reg.compilation.contract.compilationHash) (τ.node k now) (τ.node k now) :=
    ⟨h.told, .refl _, fun hP => hP, rfl, rfl, rfl⟩
  obtain ⟨hn, hdecides, hresolution⟩ := (steady_resolveAt hR (watches_under _ l at_ name _) hc rfl
    (Contents.current_name (get_ok.1 hreg)) hreg hl hun hstart caller onViolation).of_ok rfl hread
  exact ⟨⟨hn.told, hn.data, trivial, hn.store, hn.location, hn.tables⟩, hdecides, hresolution⟩

/-- What a read says, over a storage whose recorded facts are true. -/
theorem Fleet.Sound.read (hR : Counts R V rd) (h : τ.Sound V rd) (hreg : (τ.engines k).get name = .ok reg)
    (hl : (τ.engines k).bound reg = .ok (.files l)) (hun : Unremembered (τ.node k now) l name)
    (hread : resolveAt R name caller onViolation at_ (τ.node k now) = .ok (a, m) n) :
    Tells V rd (liveFiles τ.storage l at_) m ∧ a.excluded = broken reg.compilation.contract.flags m.failures ∧
      ((∀ m, recordedFor τ.storage l at_ name = .facts m →
          m.compilationHash = reg.compilation.contract.compilationHash) →
        CountsOf rd reg.compilation (liveFiles τ.storage l at_) onViolation a) := by
  have hc : V reg.compilation := h.registers k name reg (get_ok.1 hreg)
  obtain ⟨_, hdecides, hresolution⟩ := h.resolved hR hreg hl hun hread
  have hby := resolution_ok hresolution
  refine ⟨hdecides.tells, hby.excluded, fun hP => ?_⟩
  exact countsOf_of_tells hR hc hdecides.tells (hdecides.watched hP) hby.excluded hby.refused

end Fleet

/-! ## A snapshot read again -/

section View

variable {n₀ : Node} {U : Storage → Prop} {table : String} {t : IcebergTable} {reg : Registered} {name : String}
  {caller : Caller}

/-- The view of a snapshot, and its rows: stored flags and derived columns among them when they are to be used. -/
def SnapshotView (R : Runtime) (reg : Registered) (caller : Caller) (stored : Bool) (files : List StoredFile)
    (read : Plan × Multiset Row) : Prop :=
  ∃ params, R.paramValues reg.compilation.contract caller = .ok params ∧
    read = (contractView R.enrichment reg.compilation.contract stored (Lookup.ofList params),
      providedRows reg.compilation.contract stored files)

/-- The view of a snapshot is the snapshot's. -/
theorem steady_contractViewFor (ht : n₀.storage.tables table = some t) (hreg : n₀.engine.get name = .ok reg)
    (hl : n₀.engine.bound reg = .ok (.files (.iceberg table))) {s : Int} {a : Resolution} (ha : a.snapshotId = some s) :
    Ends (Steady V rd U n₀) (contractViewFor R name caller a)
      (fun read _ => (t.metadata.snapshotById s).isSome ∧
        SnapshotView R reg caller a.flagsMaterialised (t.metadata.filesAt (some s)) read)
      (fun _ _ => True) := by
  have hvisible : Ends (Steady V rd U n₀) (Ask.engine fun e => e.visible name caller)
      (fun found n => Steady V rd U n₀ n ∧ found = reg) (fun _ _ => True) := by
    intro n hn
    rw [Ask.engine_apply, hn.visible]
    cases hv : n₀.engine.visible name caller with
    | error e => exact trivial
    | ok found =>
      cases hreg.symm.trans (get_of_visible hv)
      exact ⟨hn, rfl⟩
  unfold contractViewFor
  refine Ends.bind hvisible fun found => ?_
  rintro n ⟨hn, rfl⟩
  refine Ends.bind (Q := fun rows _ => (t.metadata.snapshotById s).isSome ∧
    rows = providedRows found.compilation.contract a.flagsMaterialised (t.metadata.filesAt (some s)))
    (E := fun _ _ => True) ?_ (fun rows => ?_) n hn
  · unfold viewedRows
    refine Ends.bind ((steady_bound found).mono (fun _ => id) (fun _ _ => id) fun _ _ _ => trivial) fun b => ?_
    rintro n ⟨hn, hb⟩
    cases hl.symm.trans hb
    refine Ends.bind ((steady_icebergSnapshot table name a.snapshotId).mono (fun _ => id) (fun _ _ => id)
      fun _ _ _ => trivial) (fun found' => ?_) n hn
    obtain ⟨md, id⟩ := found'
    rintro n ⟨hn, t', ht', hmd, hid⟩
    cases ht.symm.trans ht'
    rw [ha] at hid
    dsimp only at hmd hid ⊢
    subst hmd
    obtain rfl := Option.some.inj hid
    refine Ends.ofExcept (P := fun _ => True) (fun rows hrows _ _ => ?_) (fun _ _ _ _ => trivial) n trivial
    unfold TableMetadata.provider at hrows
    cases hsn : t.metadata.snapshotById s with
    | none =>
      rw [hsn] at hrows
      cases hrows
    | some sn =>
      rw [hsn] at hrows
      dsimp only at hrows
      split at hrows
      · cases hrows
      · rw [TableMetadata.filesAt_some hsn]
        exact ⟨rfl, (Except.ok.inj hrows).symm⟩
  · rintro n ⟨hsome, rfl⟩
    refine Ends.bind (P := fun _ => True)
      (Q := fun params _ => R.paramValues found.compilation.contract caller = .ok params)
      (Ends.ofExcept (fun _ h _ _ => h) fun _ _ _ _ => trivial) (fun params n hparams => ?_) n trivial
    exact ⟨hsome, params, hparams, rfl⟩

end View

/-- Stored flags are current when every file was written under the hash. -/
theorem flagsCurrent_of_tells {live : List StoredFile} {m : Manifest} (h : Tells V rd live m) (hash : String) :
    m.flagsCurrent hash = (!live.isEmpty && live.all fun f => f.entry.contractHash == hash) := by
  have hempty : m.files.isEmpty = live.isEmpty := by
    have hlen := h.stamps.length_eq
    rw [List.length_map, List.length_map] at hlen
    rw [Bool.eq_iff_iff, List.isEmpty_iff_length_eq_zero, List.isEmpty_iff_length_eq_zero, hlen]
  have hall : (m.files.all fun f => f.contractHash == hash) = live.all fun f => f.entry.contractHash == hash := by
    have hstamp : ∀ {α : Type} (xs : List α) (g : α → String × String),
        (xs.all fun x => (g x).2 == hash) = (xs.map g).all fun x => x.2 == hash := fun xs g => by
      rw [List.all_map]
      rfl
    have hfiles : (m.files.all fun f => f.contractHash == hash) = m.files.all fun f => (FileEntry.stamp f).2 == hash :=
      rfl
    have hlive : (live.all fun f => f.entry.contractHash == hash) = live.all fun f => f.entry.stamp.2 == hash := rfl
    rw [hfiles, hstamp, hlive, hstamp live fun f => f.entry.stamp]
    exact h.stamps.all_eq
  unfold Manifest.flagsCurrent
  rw [hempty, hall]

/-- Stored columns are used when the engine uses them and they are current. -/
theorem resolution_stored {e : Engine} {reg : Registered} {caller : Caller} {onViolation : OnReadViolation}
    {m : Manifest} {a : Resolution} {l : Location} (h : resolution R e reg caller onViolation m = .ok a)
    (hl : e.bound reg = .ok (.files l)) :
    a.flagsMaterialised = (e.useStored && m.flagsCurrent reg.compilation.contract.contractHash) := by
  unfold resolution at h
  dsimp only at h
  split at h
  · cases h
  split at h
  · cases h
  simp only [bind_eq_ok, hl] at h
  obtain ⟨annotations, _, shapes, _, bound, hbound, h⟩ := h
  cases hbound
  cases h
  rfl

/-- A snapshot read over a storage whose recorded facts are true: what is said of its rows and what is read of them
depend on the snapshot's files, the version of the contract, and whether the engine uses stored columns. -/
theorem Fleet.Sound.snapshot_read (hR : Counts R V rd) {τ : Fleet} (h : τ.Sound V rd) {k : Nat} {now : Int}
    {name table : String} {caller : Caller} {onViolation : OnReadViolation} {s : Int} {reg : Registered}
    {t : IcebergTable} (hreg : (τ.engines k).get name = .ok reg)
    (hl : (τ.engines k).bound reg = .ok (.files (.iceberg table))) (ht : τ.storage.tables table = some t)
    (hcurrent : ∀ m, recordedFor τ.storage (.iceberg table) (some s) name = .facts m →
      m.compilationHash = reg.compilation.contract.compilationHash)
    {a : Resolution} {m : Manifest} {n p : Node} {read : Plan × Multiset Row}
    (hresolved : resolveAt R name caller onViolation (some s) (τ.node k now) = .ok (a, m) n)
    (hviewed : contractViewFor R name caller a n = .ok read p) :
    (t.metadata.snapshotById s).isSome ∧
      a.excluded = broken reg.compilation.contract.flags (failing reg.compilation (rd reg.compilation)
        (providedRows reg.compilation.contract false (t.metadata.filesAt (some s)))) ∧
      SnapshotView R reg caller ((τ.engines k).useStored && (!(t.metadata.filesAt (some s)).isEmpty &&
        (t.metadata.filesAt (some s)).all fun f => f.entry.contractHash == reg.compilation.contract.contractHash))
        (t.metadata.filesAt (some s)) read := by
  obtain ⟨hn, hdecides, hresolution⟩ := h.resolved hR (l := .iceberg table) hreg hl trivial hresolved
  have hstored : n.engine.useStored = (τ.engines k).useStored :=
    (keeps_resolveAt (P := fun n => n.engine.useStored = (τ.engines k).useStored)
      ⟨fun _ _ => id, fun _ _ => id, fun _ _ => id, fun _ _ => id⟩ name caller onViolation (some s)).of_ok rfl hresolved
  have hlive : liveFiles τ.storage (.iceberg table) (some s) = t.metadata.filesAt (some s) := AtSnapshot.files ht rfl
  have htells : Tells V rd (t.metadata.filesAt (some s)) m := hlive ▸ hdecides.tells
  have hby := resolution_ok hresolution
  obtain ⟨t', id, ht', hid, hsnap⟩ := hdecides.snapshot
  obtain rfl := Option.some.inj (show some s = some id from hid)
  obtain ⟨hsome, hview⟩ := (steady_contractViewFor ht hreg hl (hby.snapshotId.trans hsnap)).of_ok hn hviewed
  refine ⟨hsome, ?_, ?_⟩
  · rw [hby.excluded, htells.failures _ (h.registers k name reg (get_ok.1 hreg)) (hdecides.watched hcurrent)]
  · rw [resolution_stored hresolution ((hn.bound reg).trans hl), flagsCurrent_of_tells htells, hstored] at hview
    exact hview

/-- **A snapshot reads the same** at any two times of a run, through any two engines that have the same version of the
contract and use stored columns alike: the same rows, under the same view, with the same counts of those left out. -/
theorem snapshot_read_again (hR : Counts R V rd) {σ τ υ : Fleet} {as bs : List FleetAction} (h : σ.Unrecorded V)
    (hrun : Run (Guarded Covers (FleetStep R V)) σ as τ) (hrun' : Run (Guarded Covers (FleetStep R V)) τ bs υ)
    {k k' : Nat} {now now' : Int} {name table : String} {caller : Caller} {onViolation onViolation' : OnReadViolation}
    {s : Int} {reg : Registered} (hreg : (τ.engines k).get name = .ok reg) (hreg' : (υ.engines k').get name = .ok reg)
    (hl : (τ.engines k).bound reg = .ok (.files (.iceberg table)))
    (hl' : (υ.engines k').bound reg = .ok (.files (.iceberg table)))
    (hstored : (υ.engines k').useStored = (τ.engines k).useStored)
    (hcurrent : ∀ m, recordedFor τ.storage (.iceberg table) (some s) name = .facts m →
      m.compilationHash = reg.compilation.contract.compilationHash)
    (hcurrent' : ∀ m, recordedFor υ.storage (.iceberg table) (some s) name = .facts m →
      m.compilationHash = reg.compilation.contract.compilationHash)
    {a a' : Resolution} {m m' : Manifest} {n n' p p' : Node} {read read' : Plan × Multiset Row}
    (hresolved : resolveAt R name caller onViolation (some s) (τ.node k now) = .ok (a, m) n)
    (hviewed : contractViewFor R name caller a n = .ok read p)
    (hresolved' : resolveAt R name caller onViolation' (some s) (υ.node k' now') = .ok (a', m') n')
    (hviewed' : contractViewFor R name caller a' n' = .ok read' p') :
    a'.excluded = a.excluded ∧ read' = read := by
  have hτ := (h.sound.run hR hrun).1
  obtain ⟨hυ, hlater⟩ := hτ.run hR hrun'
  obtain ⟨t, _, ht, _⟩ := (hτ.resolved hR (l := .iceberg table) hreg hl trivial hresolved).2.1.snapshot
  obtain ⟨hsome, hexcluded, params, hparams, hread⟩ := hτ.snapshot_read hR hreg hl ht hcurrent hresolved hviewed
  obtain ⟨t', ht', hsame⟩ := hlater.snapshot ht hsome
  obtain ⟨-, hexcluded', params', hparams', hread'⟩ :=
    hυ.snapshot_read hR hreg' hl' ht' hcurrent' hresolved' hviewed'
  have hfiles : t'.metadata.filesAt (some s) = t.metadata.filesAt (some s) := by
    unfold TableMetadata.filesAt
    dsimp only
    rw [hsame]
  obtain rfl := Except.ok.inj (hparams.symm.trans hparams')
  rw [hexcluded', hexcluded, hread', hread, hfiles, hstored]
  exact ⟨rfl, rfl⟩

/-! ## A compaction -/

/-- **A compaction changes no rows** of any data, whatever was committed to the table since it began, and whether it
commits or not. -/
theorem compaction_keeps_rows (hR : Counts R V rd) {σ τ υ : Fleet} {as : List FleetAction} (h : σ.Unrecorded V)
    (hrun : Run (Guarded Covers (FleetStep R V)) σ as τ) {i : Nat} {now : Int} {w : OpenWrite}
    {commit : TableMetadata → Except PeqlError (Int × Option Int)} (hw : τ.writes i = some w)
    (hcompacts : w.begun.written = .rewrite)
    (hstep : Guarded Covers (FleetStep R V) τ (.finishes i now commit) υ) (l : Location) (cc : CompiledContract)
    (stored : Bool) :
    providedRows cc stored (liveFiles υ.storage l none) = providedRows cc stored (liveFiles τ.storage l none) := by
  have hτ := (h.sound.run hR hrun).1
  obtain ⟨hcovers, hstep⟩ := hstep
  cases hstep with
  | finishes held answers =>
    cases hw.symm.trans held
    have hleft := hτ.finished hR now held answers (hcovers _ held)
    exact (hleft.rewrites hcompacts l).provided cc stored

/-! ## A prefix one engine writes and another reads -/

/-- A snapshot of other software. -/
def foreignSnapshot (id : Int) (parent : Option Int) (files : List StoredFile) : TableSnapshot :=
  ⟨id, parent, some 3, none, ["amount"], files⟩

def twoAmounts : List StoredFile := [storedAmount "a" 1, storedAmount "b" (-2)]

/-- Engines over a table others wrote. -/
def foreignFleet : Fleet :=
  { amountsFleet with
    engines := fun _ => { amountsEngine with useStored := false }
    storage := emptyStorage.setTable "amounts" ⟨⟨[foreignSnapshot 1 none twoAmounts], some 1, ["amount"]⟩,
      fun _ _ => .absent, fun _ _ => .absent⟩ }

theorem unrecorded_foreign : foreignFleet.Unrecorded (· = amountContract) where
  dirs _ _ _ hm := by cases hm
  facts _ _ _ _ _ ht hm := by
    rcases Storage.tables_setTable ht with ⟨rfl, rfl⟩ | ht
    · cases hm
    · cases ht
  writeFacts _ _ _ _ _ ht hm := by
    rcases Storage.tables_setTable ht with ⟨rfl, rfl⟩ | ht
    · cases hm
    · cases ht
  rooted _ _ ht := by
    rcases Storage.tables_setTable ht with ⟨rfl, rfl⟩ | ht
    · have hnodup : (twoAmounts.map fun f => f.path).Nodup := by decide
      refine ⟨fun s hs p hp => ?_, fun c hc => ?_, fun s hs => ?_, fun s hs s' hs' f hf g hg hp => ?_⟩
      · obtain rfl := List.mem_singleton.1 hs
        cases hp
      · cases hc
        rfl
      · obtain rfl := List.mem_singleton.1 hs
        exact hnodup
      · obtain rfl := List.mem_singleton.1 hs
        obtain rfl := List.mem_singleton.1 hs'
        exact List.inj_on_of_nodup_map hnodup hf hg hp
    · cases ht
  compiled := unrecorded_amounts.compiled
  idle _ := rfl

/-- A read counts the amount that is not positive. -/
theorem foreign_read : ∃ a m n,
    resolveAt amountsRuntime "acme/amounts" ann .exclude (some 1) (foreignFleet.node 0 5) = .ok (a, m) n ∧
      a.excluded = [("positive", 1)] ∧ ∃ read p, contractViewFor amountsRuntime "acme/amounts" ann a n = .ok read p :=
  ⟨_, _, _, rfl, by decide, _, _, rfl⟩

/-- Other software adds an amount. -/
theorem foreign_commits : ∃ υ, Run (Guarded Covers (FleetStep amountsRuntime (· = amountContract))) foreignFleet
    [.commits "amounts" (foreignSnapshot 2 (some 1) (twoAmounts ++ [storedAmount "c" 3]))] υ ∧
    (υ.engines 1).get "acme/amounts" = .ok ⟨amountContract⟩ ∧
    (υ.engines 1).bound ⟨amountContract⟩ = .ok (.files (.iceberg "amounts")) ∧ (υ.engines 1).useStored = false ∧
    (∀ m, recordedFor υ.storage (.iceberg "amounts") (some 1) "acme/amounts" ≠ .facts m) ∧
    ∃ a m n, resolveAt amountsRuntime "acme/amounts" ann .exclude (some 1) (υ.node 1 9) = .ok (a, m) n ∧
      ∃ read p, contractViewFor amountsRuntime "acme/amounts" ann a n = .ok read p := by
  refine ⟨_, .cons ⟨trivial, .commits rfl rfl rfl rfl ?_ ?_⟩ (.nil _), rfl, rfl, rfl, ?_, _, _, _, rfl, _, _, rfl⟩
  · decide
  · intro f hf
    rcases List.mem_append.1 hf with hf | hf
    · exact .inl hf
    · refine .inr ?_
      obtain rfl := List.mem_singleton.1 hf
      rintro (⟨table, t, sn, ht, hsn, hp⟩ | ⟨i, w, hw, _⟩)
      · rcases Storage.tables_setTable ht with ⟨rfl, rfl⟩ | ht
        · obtain rfl := List.mem_singleton.1 hsn
          exact absurd hp (by decide)
        · cases ht
      · cases hw
  · intro m hm
    cases hm

theorem snapshot_read_again_foreign : ∃ υ, Run (Guarded Covers (FleetStep amountsRuntime (· = amountContract)))
    foreignFleet [.commits "amounts" (foreignSnapshot 2 (some 1) (twoAmounts ++ [storedAmount "c" 3]))] υ ∧
    ∃ a m n read p a' m' n' read' p',
      resolveAt amountsRuntime "acme/amounts" ann .exclude (some 1) (foreignFleet.node 0 5) = .ok (a, m) n ∧
      contractViewFor amountsRuntime "acme/amounts" ann a n = .ok read p ∧
      resolveAt amountsRuntime "acme/amounts" ann .exclude (some 1) (υ.node 1 9) = .ok (a', m') n' ∧
      contractViewFor amountsRuntime "acme/amounts" ann a' n' = .ok read' p' ∧
      a'.excluded = a.excluded ∧ read' = read := by
  obtain ⟨a, m, n, hresolved, _, read, p, hviewed⟩ := foreign_read
  obtain ⟨υ, hrun, hreg, hl, hstored, hnone, a', m', n', hresolved', read', p', hviewed'⟩ := foreign_commits
  refine ⟨υ, hrun, a, m, n, read, p, a', m', n', read', p', hresolved, hviewed, hresolved', hviewed', ?_⟩
  exact snapshot_read_again counts_amounts unrecorded_foreign (.nil _) hrun rfl hreg rfl hl hstored
    (fun _ hm => by cases hm) (fun m hm => absurd hm (hnone m)) hresolved hviewed hresolved' hviewed'

/-- One file with the rows of both. -/
def bothAmounts : StoredFile where
  entry :=
    { path := "ab", rows := 2, bytes := 150, contractHash := "c1", flags := Lookup.empty, nullCounts := Lookup.empty,
      sha256 := "sab" }
  rows := {[("amount", .int 1)], [("amount", .int (-2))]}
  typed _ _ := trivial
  entry_rows := rfl
  entry_nulls _ _ h := by cases h
  under := some "h1"

def laterAmounts : List StoredFile := twoAmounts ++ [storedAmount "c" 3]

/-- A catalog that takes a commit while some files are the table's. -/
def commitsWhile (removed : List String) (t : TableMetadata) : Except PeqlError (Int × Option Int) :=
  if (t.snapshotById 3).isNone = true ∧ ∀ p ∈ removed, p ∈ (t.filesAt t.current).map fun f => f.path then
    .ok (3, some 7)
  else .error (.iceberg "conflict")

theorem bothAmounts_rows : SameRows [bothAmounts] twoAmounts := by
  have hrows : storedRows [bothAmounts] = storedRows twoAmounts := rfl
  intro columns
  rw [hrows]

theorem foreign_paths {p : String} (h : ∃ table t sn, foreignFleet.storage.tables table = some t ∧
    sn ∈ t.metadata.snapshots ∧ p ∈ sn.files.map fun f => f.path) : p ∈ ["a", "b"] := by
  obtain ⟨table, t, sn, ht, hsn, hp⟩ := h
  rcases Storage.tables_setTable ht with ⟨rfl, rfl⟩ | ht
  · obtain rfl := List.mem_singleton.1 hsn
    exact hp
  · cases ht

/-- A compaction of the two amounts' files, with another file added before it commits. -/
theorem foreign_compacts : ∃ τ υ, Run (Guarded Covers (FleetStep amountsRuntime (· = amountContract))) foreignFleet
    [.compacts 0 0 5 "acme/amounts" 1000 2 "w1" [bothAmounts],
      .commits "amounts" (foreignSnapshot 2 (some 1) laterAmounts)] τ ∧
    (∃ w, τ.writes 0 = some w ∧ w.begun.written = .rewrite) ∧
    Guarded Covers (FleetStep amountsRuntime (· = amountContract)) τ (.finishes 0 7 (commitsWhile ["a", "b"])) υ := by
  refine ⟨_, _, .cons ⟨trivial, .compacts rfl ?_ ?_ rfl rfl rfl bothAmounts_rows⟩
    (.cons ⟨trivial, .commits rfl rfl rfl rfl ?_ ?_⟩ (.nil _)), ⟨_, rfl, rfl⟩, ?_, .finishes rfl ?_⟩
  · rintro (⟨table, t, ht, hid⟩ | ⟨i, w, hw, _⟩)
    · rcases Storage.tables_setTable ht with ⟨rfl, rfl⟩ | ht
      · rcases hid with ⟨sn, hsn, hid⟩ | ⟨file, hfile⟩
        · obtain rfl := List.mem_singleton.1 hsn
          cases hid
        · cases hfile
      · cases ht
    · cases hw
  · refine ⟨List.nodup_singleton _, fun f hf => ?_⟩
    obtain rfl := List.mem_singleton.1 hf
    rintro (hold | ⟨i, w, hw, _⟩)
    · exact absurd (foreign_paths hold) (by decide)
    · cases hw
  · decide
  · intro f hf
    rcases List.mem_append.1 hf with hf | hf
    · exact .inl hf
    · refine .inr ?_
      obtain rfl := List.mem_singleton.1 hf
      rintro (⟨table, t, sn, ht, hsn, hp⟩ | ⟨i, w, hw, hp⟩)
      · rcases Storage.tables_setTable ht with ⟨rfl, rfl⟩ | ht
        · obtain rfl := List.mem_singleton.1 hsn
          exact absurd hp (by decide)
        · exact absurd (foreign_paths ⟨table, t, sn, ht, hsn, hp⟩) (by decide)
      · rcases Fleet.of_setWrite hw with ⟨rfl, hw⟩ | ⟨-, hw⟩
        · cases hw
          exact absurd hp (by decide)
        · cases hw
  · intro w hw hloc
    obtain rfl := Option.some.inj hw
    exact absurd rfl (hloc "amounts")
  · intro t id time hok
    unfold commitsWhile at hok
    split at hok
    · next hcommit =>
      cases hok
      exact ⟨hcommit.2, Option.isNone_iff_eq_none.1 hcommit.1⟩
    · cases hok

theorem compaction_keeps_rows_foreign : ∃ τ υ,
    Guarded Covers (FleetStep amountsRuntime (· = amountContract)) τ (.finishes 0 7 (commitsWhile ["a", "b"])) υ ∧
    ∀ cc stored, providedRows cc stored (liveFiles υ.storage (.iceberg "amounts") none) =
      providedRows cc stored (liveFiles τ.storage (.iceberg "amounts") none) := by
  obtain ⟨τ, υ, hrun, ⟨w, hw, hwritten⟩, hstep⟩ := foreign_compacts
  exact ⟨τ, υ, hstep, compaction_keeps_rows counts_amounts unrecorded_foreign hrun hw hwritten hstep _⟩

end Peql
