import Peql.Engine.Handled
import Peql.Engine.Stored

/-!
# The contract hash in a file's footer

A file says which contract it was written under by the contract hash in its footer, and a manifest whose files all have
the hash of the contract registered now has its view read the columns stored with the rows (`flags_current`). The hash
is of the contract's document alone. The columns are computed under a compilation, which is also of the functions the
document pins; and a compaction copies rows as they are stored, and stamps the copies with the hash of the contract it
was asked for.

`ColumnStep` is what engines do to the files of a storage and to what they have registered, one look at the one or one
change of the other at a time. Where each step keeps files to the compilation their hash is taken for (`Settled`), a
view over stored columns is the view over the live rules (`stored_view_is_live`).
-/

namespace Peql

open Effects Reported Runs

/-! ## Files -/

namespace StoredFile

variable (f : StoredFile)

/-- Its footer has the contract hash of a version. -/
def StampedBy (c : Compilation) : Prop := f.entry.contractHash = c.contract.contractHash

/-- Its columns were computed under a compilation. -/
def WrittenUnder (c : Compilation) : Prop := f.under = some c.contract.compilationHash

/-- Of every compilation with its contract hash, it has that compilation's columns. -/
def Apt (V : Compilation → Prop) : Prop := ∀ c, V c → f.StampedBy c → f.WrittenUnder c

/-- A file no write of an engine made. -/
def Foreign (V : Compilation → Prop) : Prop := f.under = none ∧ ∀ c, V c → ¬ f.StampedBy c

/-- The columns stored in it are what the compilation it was written under computes of each row. -/
def Holds (k : Kernel) (V : Compilation → Prop) : Prop :=
  ∀ c, V c → f.WrittenUnder c → ∀ r ∈ f.rows, r.Holds k c

end StoredFile

theorem StoredFile.Foreign.holds {f : StoredFile} {V : Compilation → Prop} (h : f.Foreign V) (k : Kernel) :
    f.Holds k V := by
  intro c _ hunder
  cases h.1.symm.trans hunder

/-- The rows of a file are among those of the files it is one of. -/
theorem mem_storedRows {files : List StoredFile} {r : Row} : r ∈ storedRows files ↔ ∃ f ∈ files, r ∈ f.rows := by
  induction files with
  | nil => simp [storedRows, rowsOf]
  | cons f files ih =>
    have hcons : storedRows (f :: files) = f.rows + storedRows files := by simp [storedRows, rowsOf]
    rw [hcons, Multiset.mem_add, ih]
    simp

/-! ## What writes make -/

/-- What DataFusion's writer makes of a part: files of the rows computed, less those set aside, in each the contract
hash. -/
structure Begun.Lays (R : Runtime) (w : Begun) (rows : List Row) (files : List StoredFile) : Prop where
  stamped : ∀ f ∈ files, f.StampedBy w.reg.compilation
  under : ∀ f ∈ files, f.WrittenUnder w.reg.compilation
  rows : ∃ computed,
    rowsOrError ((writePlan R.enrichment w.reg.compilation).run ⟨R.kernel, fun _ _ => rows⟩ []) = .ok computed ∧
      (storedRows files).map (rowOf (writtenColumns w.reg.compilation)) = (w.keptRows computed : Multiset Row)

/-- What a compaction makes of the files it replaces: their rows as they are stored, with the hash of the version it
looked up. The columns of the copies were computed under a compilation when those of all the files were. -/
structure Compacts (V : Compilation → Prop) (files replaced : List StoredFile) : Prop where
  stamped : ∃ c, V c ∧ ∀ f ∈ files, f.StampedBy c
  under : ∀ f ∈ files, ∀ h, f.under = some h → ∀ g ∈ replaced, g.under = some h
  rows : SameRows files replaced

variable {R : Runtime} {V : Compilation → Prop}

/-- What a write lays holds what its compilation computes. -/
theorem Begun.Lays.holds (hV : ∀ c c', V c → V c' → c.contract.compilationHash = c'.contract.compilationHash → c = c')
    (hS : ∀ c, V c → c.Stores) {w : Begun} (hw : V w.reg.compilation) {rows : List Row} {files : List StoredFile}
    (h : w.Lays R rows files) : ∀ f ∈ files, f.Holds R.kernel V := by
  intro f hf c hc hunder r hr
  obtain rfl : c = w.reg.compilation := hV c _ hc hw (Option.some.inj (hunder.symm.trans (h.under f hf)))
  obtain ⟨computed, hcomputed, hrows⟩ := h.rows
  have hmem : rowOf (writtenColumns w.reg.compilation) r ∈ (w.keptRows computed : Multiset Row) := by
    rw [← hrows]
    exact Multiset.mem_map_of_mem _ (mem_storedRows.2 ⟨f, hf, hr⟩)
  refine .of_rowOf (hS _ hw) (holds_of_computed (hS _ hw) hcomputed _ ?_)
  unfold Begun.keptRows at hmem
  split at hmem
  · exact (List.mem_filter.1 (Multiset.mem_coe.1 hmem)).1
  · exact Multiset.mem_coe.1 hmem
  · exact Multiset.mem_coe.1 hmem

/-- Compacts of files that hold what they were written under hold it too. -/
theorem Compacts.holds (hS : ∀ c, V c → c.Stores) {files replaced : List StoredFile} {k : Kernel}
    (h : Compacts V files replaced) (hreplaced : ∀ g ∈ replaced, g.Holds k V) : ∀ f ∈ files, f.Holds k V := by
  intro f hf c hc hunder r hr
  have hmem : rowOf (writtenColumns c) r ∈ (storedRows replaced).map (rowOf (writtenColumns c)) := by
    rw [← h.rows]
    exact Multiset.mem_map_of_mem _ (mem_storedRows.2 ⟨f, hf, hr⟩)
  obtain ⟨r', hr', hsame⟩ := Multiset.mem_map.1 hmem
  obtain ⟨g, hg, hgr⟩ := mem_storedRows.1 hr'
  have hholds : r'.Holds k c := hreplaced g hg c hc (h.under f hf _ hunder g hg) r' hgr
  exact .of_rowOf (hS c hc) (hsame ▸ hholds.rowOf (hS c hc))

/-! ## Steps -/

inductive ColumnAction
  | registers (k : Nat) (reg : Registered)
  | turns (k : Nat) (e : Engine)
  | begins (k i : Nat) (w : Begun)
  | writes (i : Nat) (rows : List Row) (files : List StoredFile)
  | compacts (i : Nat) (files replaced : List StoredFile)
  | stores (s : Storage)
  | ends (i : Nat)

/-- The files a compaction makes. -/
def ColumnAction.copies : ColumnAction → List StoredFile
  | .compacts _ files _ => files
  | .registers _ _ | .turns _ _ | .begins _ _ _ | .writes _ _ _ | .stores _ | .ends _ => []

/-- What engines do to what they have registered, to the files of their writes and to the storage, one at a time. -/
inductive ColumnStep (R : Runtime) (V : Compilation → Prop) : Fleet → ColumnAction → Fleet → Prop
  | registers {σ : Fleet} {k : Nat} {reg : Registered} (compiled : V reg.compilation) :
      ColumnStep R V σ (.registers k reg) (σ.withStore k ((σ.engines k).store.put reg))
  /-- What an engine keeps changes, beside its contracts and where their data is. -/
  | turns {σ : Fleet} {k : Nat} {e : Engine} (versions : e.store.versions = (σ.engines k).store.versions)
      (bound : ∀ reg, e.bound reg = (σ.engines k).bound reg) :
      ColumnStep R V σ (.turns k e) { σ with engines := Function.update σ.engines k e }
  | begins {σ : Fleet} {k i : Nat} {w : Begun} (known : (σ.engines k).get w.reg.name = .ok w.reg)
      (fresh : w.files = []) : ColumnStep R V σ (.begins k i w) (σ.setWrite i (some ⟨k, w⟩))
  | writes {σ : Fleet} {i : Nat} {w : OpenWrite} {rows : List Row} {files : List StoredFile} {b : Begun}
      (held : σ.writes i = some w) (data : w.begun.written ≠ .rewrite) (part : w.begun.writePart R rows files = .ok b)
      (laid : w.begun.Lays R rows files) :
      ColumnStep R V σ (.writes i rows files) (σ.setWrite i (some ⟨w.engine, b⟩))
  | compacts {σ : Fleet} {i : Nat} {w : OpenWrite} {files replaced : List StoredFile} (held : σ.writes i = some w)
      (rewrites : w.begun.written = .rewrite) (read : ∀ g ∈ replaced, ∃ l, σ.storage.Live l g)
      (copied : Compacts V files replaced) :
      ColumnStep R V σ (.compacts i files replaced)
        (σ.setWrite i (some ⟨w.engine, { w.begun with files := files, rows := (storedRows files).card }⟩))
  /-- Files of a write go to a place, or other software's do; files go away; manifests and facts are recorded. -/
  | stores {σ : Fleet} {s : Storage} (files : ∀ l f, s.Live l f → σ.storage.Live l f ∨
      (∃ i w, σ.writes i = some w ∧ f ∈ w.begun.files) ∨ f.Foreign V) :
      ColumnStep R V σ (.stores s) { σ with storage := s }
  | ends {σ : Fleet} (i : Nat) : ColumnStep R V σ (.ends i) (σ.setWrite i none)

namespace Fleet

variable (σ : Fleet)

/-- The files an engine has under the contract hash of a version it has were written under that version's
compilation. -/
def Settled : Prop :=
  ∀ k reg l f, (σ.engines k).get reg.name = .ok reg → (σ.engines k).bound reg = .ok (.files l) → σ.storage.Live l f →
    f.StampedBy reg.compilation → f.WrittenUnder reg.compilation

/-- A version becomes an engine's current one only where every file of its data with its contract hash was written under
its compilation; and a file comes to a place only where that is so of every contract that an engine has there. -/
def Settles : ColumnAction → Prop
  | .registers k reg => ∀ c l f, ((σ.engines k).store.put reg).current reg.name = some c →
      (σ.engines k).bound c = .ok (.files l) → σ.storage.Live l f → f.StampedBy c.compilation →
        f.WrittenUnder c.compilation
  | .stores s => ∀ k reg l f, (σ.engines k).get reg.name = .ok reg → (σ.engines k).bound reg = .ok (.files l) →
      s.Live l f → ¬ σ.storage.Live l f → f.StampedBy reg.compilation → f.WrittenUnder reg.compilation
  | .turns _ _ | .begins _ _ _ | .writes _ _ _ | .compacts _ _ _ | .ends _ => True

/-- Engines over data that other software wrote, if any, with no write under way. -/
structure Unwritten (V : Compilation → Prop) : Prop where
  compiled : ∀ k, ∀ reg ∈ (σ.engines k).store.versions, V reg.compilation
  files : ∀ l f, σ.storage.Live l f → f.Foreign V
  idle : ∀ i, σ.writes i = none

/-- Contracts and writes are of compilations of `V`, and every file is as `Q` says. -/
structure FilesAre (V : Compilation → Prop) (Q : StoredFile → Prop) : Prop where
  compiled : ∀ k, ∀ reg ∈ (σ.engines k).store.versions, V reg.compilation
  writes : ∀ i w, σ.writes i = some w → V w.begun.reg.compilation ∧ ∀ f ∈ w.begun.files, Q f
  files : ∀ l f, σ.storage.Live l f → Q f

variable {σ}

theorem Unwritten.settled (h : σ.Unwritten V) : σ.Settled := by
  intro k reg l f hreg _ hf hstamp
  exact absurd hstamp ((h.files l f hf).2 _ (h.compiled k reg (Contents.current_mem (get_ok.1 hreg))))

theorem Unwritten.filesAre (h : σ.Unwritten V) {Q : StoredFile → Prop} (hforeign : ∀ f, f.Foreign V → Q f) :
    σ.FilesAre V Q where
  compiled := h.compiled
  writes i _ hw := nomatch (h.idle i).symm.trans hw
  files l f hf := hforeign f (h.files l f hf)

/-! ### What steps keep -/

namespace FilesAre

variable {Q : StoredFile → Prop} (h : σ.FilesAre V Q)

include h

/-- A write is begun, goes on or is over. -/
theorem setWrite {i : Nat} {o : Option OpenWrite}
    (ho : ∀ w, o = some w → V w.begun.reg.compilation ∧ ∀ f ∈ w.begun.files, Q f) : (σ.setWrite i o).FilesAre V Q where
  compiled := h.compiled
  writes j w hj := by
    rcases of_setWrite hj with ⟨-, hw⟩ | ⟨-, hold⟩
    · exact ho w hw
    · exact h.writes j w hold
  files := h.files

/-- An engine's contracts are others. -/
theorem setEngine {k : Nat} {e : Engine} (he : ∀ reg ∈ e.store.versions, V reg.compilation) :
    FilesAre { σ with engines := Function.update σ.engines k e } V Q where
  compiled k' reg hreg := by
    dsimp only at hreg
    by_cases hk : k' = k
    · subst hk
      exact he reg (by rwa [Function.update_self] at hreg)
    · exact h.compiled k' reg (by rwa [Function.update_of_ne hk] at hreg)
  writes := h.writes
  files := h.files

/-- A step keeps what is said of the files writes lay, and of those a compaction makes of such files. -/
theorem step (hlays : ∀ w rows files, V w.reg.compilation → Begun.Lays R w rows files → ∀ f ∈ files, Q f)
    (hforeign : ∀ f, f.Foreign V → Q f) {a : ColumnAction} {τ : Fleet}
    (hcompacts : ∀ i files replaced, a = .compacts i files replaced → Compacts V files replaced →
      (∀ g ∈ replaced, Q g) → ∀ f ∈ files, Q f) (hstep : ColumnStep R V σ a τ) : τ.FilesAre V Q := by
  cases hstep with
  | @registers k reg compiled =>
    refine h.setEngine fun r hr => ?_
    rcases Contents.mem_put hr with rfl | hr
    · exact compiled
    · exact h.compiled k r hr
  | @turns k e versions bound => exact h.setEngine fun r hr => h.compiled k r (versions ▸ hr)
  | @begins k i w known fresh =>
    refine h.setWrite fun _ ho => ?_
    cases ho
    refine ⟨h.compiled k w.reg (Contents.current_mem (get_ok.1 known)), fun f hf => ?_⟩
    rw [fresh] at hf
    cases hf
  | @writes i w rows files b held data part laid =>
    refine h.setWrite fun _ ho => ?_
    cases ho
    obtain ⟨hcompiled, hfiles⟩ := h.writes i w held
    obtain ⟨hreg, -, hadded⟩ := Begun.writePart_same part
    refine ⟨hreg ▸ hcompiled, fun f hf => ?_⟩
    rw [hadded] at hf
    rcases List.mem_append.1 hf with hf | hf
    · exact hfiles f hf
    · exact hlays w.begun rows files hcompiled laid f hf
  | @compacts i w files replaced held rewrites read copied =>
    refine h.setWrite fun _ ho => ?_
    cases ho
    refine ⟨(h.writes i w held).1, hcompacts i files replaced rfl copied fun g hg => ?_⟩
    obtain ⟨l, hl⟩ := read g hg
    exact h.files l g hl
  | stores files =>
    refine ⟨h.compiled, h.writes, fun l f hf => ?_⟩
    rcases files l f hf with hold | ⟨i, w, hw, hmem⟩ | hf
    · exact h.files l f hold
    · exact (h.writes i w hw).2 f hmem
    · exact hforeign f hf
  | ends i => exact h.setWrite fun _ ho => nomatch ho

end FilesAre

/-- A step that settles its files leaves them settled. -/
theorem Settled.step {a : ColumnAction} {τ : Fleet} (h : σ.Settled) (hsettles : σ.Settles a)
    (hstep : ColumnStep R V σ a τ) : τ.Settled := by
  cases hstep with
  | @registers k reg compiled =>
    intro k' c l f hc hl hf hstamp
    by_cases hk : k' = k
    · subst hk
      rw [withStore_self] at hc hl
      by_cases hname : c.name = reg.name
      · exact hsettles c l f (hname ▸ get_ok.1 hc) hl hf hstamp
      · exact h k' c l f (get_ok.2 ((Contents.current_put_of_ne hname).symm.trans (get_ok.1 hc))) hl hf hstamp
    · rw [withStore_of_ne hk] at hc hl
      exact h k' c l f hc hl hf hstamp
  | @turns k e versions bound =>
    intro k' c l f hc hl hf hstamp
    dsimp only at hc hl
    by_cases hk : k' = k
    · subst hk
      rw [Function.update_self] at hc hl
      have hget : (σ.engines k').get c.name = .ok c :=
        get_ok.2 ((Contents.current_of_versions versions c.name).symm.trans (get_ok.1 hc))
      exact h k' c l f hget ((bound c).symm.trans hl) hf hstamp
    · rw [Function.update_of_ne hk] at hc hl
      exact h k' c l f hc hl hf hstamp
  | begins | writes | compacts | ends => exact h
  | stores files =>
    intro k c l f hc hl hf hstamp
    by_cases hold : σ.storage.Live l f
    · exact h k c l f hc hl hold hstamp
    · exact hsettles k c l f hc hl hf hold hstamp

/-- In every state of a run that settles its files they are settled, and hold what they were written under. -/
theorem Unwritten.run (hV : ∀ c c', V c → V c' → c.contract.compilationHash = c'.contract.compilationHash → c = c')
    (hS : ∀ c, V c → c.Stores) {τ : Fleet} {as : List ColumnAction} (h : σ.Unwritten V)
    (hrun : Run (Guarded Settles (ColumnStep R V)) σ as τ) :
    τ.Settled ∧ τ.FilesAre V fun f => f.Holds R.kernel V := by
  have hforeign : ∀ f : StoredFile, f.Foreign V → f.Holds R.kernel V := fun _ hf => hf.holds _
  refine hrun.inv_of_all (I := fun τ => τ.Settled ∧ τ.FilesAre V fun f => f.Holds R.kernel V)
    (fun _ _ _ hτ hsettles hstep => ⟨hτ.1.step hsettles hstep, ?_⟩) ⟨h.settled, h.filesAre hforeign⟩
  exact hτ.2.step (fun _ _ _ hw hlays => hlays.holds hV hS hw) hforeign
    (fun _ _ _ _ hcompacts hreplaced => hcompacts.holds hS hreplaced) hstep

/-- Where a contract hash is of one compilation, no pinned function having been replaced, and compactions are of files
written under the version they stamp, every step settles its files. -/
theorem Unwritten.settles (hH : ∀ c c', V c → V c' → c.contract.contractHash = c'.contract.contractHash → c = c')
    {τ : Fleet} {as : List ColumnAction} (h : σ.Unwritten V)
    (hrun : Run (Guarded (fun _ a => ∀ f ∈ a.copies, f.Apt V) (ColumnStep R V)) σ as τ) :
    Run (Guarded Settles (ColumnStep R V)) σ as τ := by
  have hforeign : ∀ f : StoredFile, f.Foreign V → f.Apt V := fun f hf c hc hstamp => absurd hstamp (hf.2 c hc)
  have hlays : ∀ w rows files, V w.reg.compilation → Begun.Lays R w rows files → ∀ f ∈ files, f.Apt V := by
    intro w rows files hw hlaid f hf c hc hstamp
    obtain rfl := hH c _ hc hw (hstamp.symm.trans (hlaid.stamped f hf))
    exact hlaid.under f hf
  refine hrun.reguard (I := fun σ => σ.FilesAre V fun f => f.Apt V) (fun σ a τ hσ howns hstep => ?_)
    (fun σ a τ hσ _ hstep => ?_) (h.filesAre hforeign)
  · refine hσ.step hlays hforeign (fun i files replaced ha _ _ => ?_) hstep
    subst ha
    exact howns
  · cases hstep with
    | @registers k reg compiled =>
      intro c l f hc _ hf hstamp
      refine hσ.files l f hf _ ?_ hstamp
      rcases Contents.mem_put (Contents.current_mem hc) with rfl | hold
      · exact compiled
      · exact hσ.compiled k c hold
    | stores files =>
      intro k reg l f hreg _ hf _ hstamp
      have hcompiled := hσ.compiled k reg (Contents.current_mem (get_ok.1 hreg))
      rcases files l f hf with hold | ⟨i, w, hw, hmem⟩ | hf
      · exact hσ.files l f hold _ hcompiled hstamp
      · exact (hσ.writes i w hw).2 f hmem _ hcompiled hstamp
      · exact hforeign f hf _ hcompiled hstamp
    | _ => trivial

variable (σ) in
/-- A view is made of the contract a read was resolved for: the version registered has the contract hash the read was
resolved with, the contract's data is files, and the manifest the read was resolved by lists each file that is there,
with the contract hash in its footer. -/
def Views (k : Nat) (name : String) (a : Resolution) (m : Manifest) : Prop :=
  ∀ reg, (σ.engines k).get name = .ok reg → reg.compilation.contract.contractHash = a.contractHash ∧
    ∃ l, (σ.engines k).bound reg = .ok (.files l) ∧
      ∀ f ∈ liveFiles σ.storage l a.snapshotId, f.entry.stamp ∈ m.files.map FileEntry.stamp

end Fleet

/-- Two views, with the rows their scans read, release the same rows and raise the same errors. -/
def SameView (k : Kernel) (view live : Plan × Multiset Row) : Prop :=
  ∀ xs ys : List Row, (xs : Multiset Row) = view.2 → (ys : Multiset Row) = live.2 →
    Permutes (view.1.run ⟨k, fun _ _ => xs⟩ []) (live.1.run ⟨k, fun _ _ => ys⟩ [])

/-! ## The view of a contract -/

section View

variable {n n' : Node} {name : String} {caller : Caller} {a : Resolution} {reg : Registered} {l : Location}

/-- A table's snapshot, as a call loads it. -/
theorem icebergSnapshot_ok {table : String} {at_ : Option Int} {t : TableMetadata} {snapshot : Int}
    (h : icebergSnapshot table name at_ n = .ok (t, snapshot) n') :
    n' = n ∧ liveFiles n.storage (.iceberg table) at_ = t.filesAt (some snapshot) := by
  unfold icebergSnapshot loadTable at h
  rw [Ask.storage_bind_ok] at h
  obtain ⟨found, hfound, h⟩ := h
  obtain rfl := Except.ok.inj hfound
  unfold liveFiles
  dsimp only
  cases ht : n.storage.tables table with
  | none =>
    rw [ht] at h
    cases h
  | some found =>
    rw [ht] at h
    dsimp only [Option.map_some] at h ⊢
    cases at_ with
    | some s =>
      dsimp only at h
      split at h
      · cases h
      · cases h
        exact ⟨rfl, rfl⟩
    | none =>
      cases hs : found.metadata.current with
      | none =>
        simp only [hs] at h
        cases h
      | some s =>
        simp only [hs] at h
        cases h
        exact ⟨rfl, rfl⟩

/-- The row columns are among those a write stores. -/
theorem fileColumns_subset (cc : CompiledContract) : ∀ x ∈ fileColumns cc false, x ∈ fileColumns cc true :=
  fun _ hx => List.mem_append_left _ (List.mem_append_left _ (List.mem_append_left _ hx))

/-- What a table's provider reads of a snapshot with the stored columns, it reads without. -/
theorem provider_stored {table : String} {t : TableMetadata} {cc : CompiledContract} {snapshot : Int}
    {rows : Multiset Row} (h : t.provider table cc true snapshot = .ok rows) :
    rows = providedRows cc true (t.filesAt (some snapshot)) ∧
      t.provider table cc false snapshot = .ok (providedRows cc false (t.filesAt (some snapshot))) := by
  unfold TableMetadata.provider at h ⊢
  cases hs : t.snapshotById snapshot with
  | none =>
    rw [hs] at h
    cases h
  | some s =>
    rw [hs] at h
    dsimp only at h ⊢
    split at h
    · cases h
    next hnone =>
    cases h
    rw [TableMetadata.filesAt_some hs]
    refine ⟨rfl, ?_⟩
    have hfalse : (fileColumns cc false).find? (fun c => decide (c ∉ s.columns)) = none :=
      List.find?_eq_none.2 fun x hx => List.find?_eq_none.1 hnone x (fileColumns_subset cc x hx)
    rw [hfalse]

/-- The rows a view over stored columns scans are of the files there are, and the same files are scanned by the view
over the live rules. -/
theorem viewedRows_stored (hstored : a.flagsMaterialised = true) (hl : n.engine.bound reg = .ok (.files l))
    {rows : Multiset Row} (h : viewedRows name reg a n = .ok rows n') :
    n' = n ∧ rows = providedRows reg.compilation.contract true (liveFiles n.storage l a.snapshotId) ∧
      viewedRows name reg { a with flagsMaterialised := false } n =
        .ok (providedRows reg.compilation.contract false (liveFiles n.storage l a.snapshotId)) n := by
  unfold viewedRows at h ⊢
  rw [Ask.engine_bind_ok] at h
  obtain ⟨b, hb, h⟩ := h
  cases hl.symm.trans hb
  rw [hstored] at h
  cases l with
  | localDir root =>
    cases h
    exact ⟨rfl, rfl, Ask.engine_bind_ok.2 ⟨_, hl, rfl⟩⟩
  | object url =>
    cases h
    exact ⟨rfl, rfl, Ask.engine_bind_ok.2 ⟨_, hl, rfl⟩⟩
  | iceberg table =>
    obtain ⟨⟨t, snapshot⟩, n₁, hsnapshot, hrows⟩ := Effects.bind_eq_ok.1 h
    obtain ⟨rfl, hlive⟩ := icebergSnapshot_ok hsnapshot
    obtain ⟨hprovided, rfl⟩ := ofExcept_eq_ok.1 hrows
    obtain ⟨hread, hagain⟩ := provider_stored hprovided
    rw [hlive]
    refine ⟨rfl, hread, Ask.engine_bind_ok.2 ⟨_, hl, ?_⟩⟩
    exact Effects.bind_eq_ok.2 ⟨(t, snapshot), _, hsnapshot, ofExcept_eq_ok.2 ⟨hagain, rfl⟩⟩

/-- A view over the stored columns that is made, and the view over the live rules that would be made there. -/
theorem contractViewFor_stored (hstored : a.flagsMaterialised = true) {view : Plan × Multiset Row}
    (h : contractViewFor R name caller a n = .ok view n') (hbound : ∀ reg, n.engine.get name = .ok reg →
      ∃ l, n.engine.bound reg = .ok (.files l)) :
    n' = n ∧ ∃ reg l params, n.engine.get name = .ok reg ∧ n.engine.bound reg = .ok (.files l) ∧
      view = (contractView R.enrichment reg.compilation.contract true params,
        providedRows reg.compilation.contract true (liveFiles n.storage l a.snapshotId)) ∧
      contractViewFor R name caller { a with flagsMaterialised := false } n =
        .ok (contractView R.enrichment reg.compilation.contract false params,
          providedRows reg.compilation.contract false (liveFiles n.storage l a.snapshotId)) n := by
  unfold contractViewFor at h ⊢
  obtain ⟨reg, hvisible, h⟩ := Ask.engine_bind_ok.1 h
  have hreg := visible_get hvisible
  obtain ⟨l, hl⟩ := hbound reg hreg
  obtain ⟨rows, n₁, hrows, h⟩ := Effects.bind_eq_ok.1 h
  obtain ⟨rfl, rfl, hagain⟩ := viewedRows_stored hstored hl hrows
  obtain ⟨params, hparams, h⟩ := Effects.ofExcept_bind_ok.1 h
  rw [hstored] at h
  cases h
  refine ⟨rfl, reg, l, _, hreg, hl, rfl, Ask.engine_bind_ok.2 ⟨reg, hvisible, ?_⟩⟩
  exact Effects.bind_eq_ok.2 ⟨_, _, hagain, Effects.ofExcept_bind_ok.2 ⟨params, hparams, rfl⟩⟩

end View

/-- **The stored view is the live view** in every state of a run whose steps settle their files: each file an engine has
under the contract hash of the version it has now holds what that version computes of its rows; and a read resolved to
read stored columns, whose view is made of the contract it was resolved for, gets from that view what it would get from
the view over the live rules. -/
theorem stored_view_is_live
    (hV : ∀ c c', V c → V c' → c.contract.compilationHash = c'.contract.compilationHash → c = c')
    (hS : ∀ c, V c → c.Stores) {σ τ : Fleet} {as : List ColumnAction} (h : σ.Unwritten V)
    (hrun : Run (Guarded Fleet.Settles (ColumnStep R V)) σ as τ) :
    (∀ k reg l f, (τ.engines k).get reg.name = .ok reg → (τ.engines k).bound reg = .ok (.files l) →
      τ.storage.Live l f → f.StampedBy reg.compilation → ∀ r ∈ f.rows, r.Holds R.kernel reg.compilation) ∧
    ∀ k name caller onViolation e reg m a, resolution R e reg caller onViolation m = .ok a →
      a.flagsMaterialised = true → τ.Views k name a m →
        ∀ n n' view, n.engine = τ.engines k → n.storage = τ.storage → contractViewFor R name caller a n = .ok view n' →
          ∃ live, contractViewFor R name caller { a with flagsMaterialised := false } n = .ok live n' ∧
            SameView R.kernel view live := by
  obtain ⟨hsettled, hholds⟩ := h.run hV hS hrun
  have hfiles : ∀ k reg l f, (τ.engines k).get reg.name = .ok reg → (τ.engines k).bound reg = .ok (.files l) →
      τ.storage.Live l f → f.StampedBy reg.compilation → ∀ r ∈ f.rows, r.Holds R.kernel reg.compilation := by
    intro k reg l f hreg hl hf hstamp
    have hcompiled := hholds.compiled k reg (Contents.current_mem (get_ok.1 hreg))
    exact hholds.files l f hf _ hcompiled (hsettled k reg l f hreg hl hf hstamp)
  refine ⟨hfiles, fun k name caller onViolation e reg₀ m a hresolved hstored hviews n n' view hn hs hview => ?_⟩
  have hbound : ∀ reg, n.engine.get name = .ok reg → ∃ l, n.engine.bound reg = .ok (.files l) := by
    rw [hn]
    exact fun reg hreg => (hviews reg hreg).2.imp fun _ hl => hl.1
  obtain ⟨rfl, reg, l, params, hreg, hl, rfl, hlive⟩ := contractViewFor_stored hstored hview hbound
  refine ⟨_, hlive, fun xs ys hxs hys => ?_⟩
  rw [hn] at hreg hl
  rw [hs] at hxs hys
  obtain ⟨hhash, l', hl', hlisted⟩ := hviews reg hreg
  obtain rfl : l' = l := by
    have hsame := hl'.symm.trans hl
    injection hsame with hsame
    injection hsame
  have hby := resolution_ok hresolved
  have hcompiled := hholds.compiled k reg (Contents.current_mem (get_ok.1 hreg))
  refine contractView_stored (hS _ hcompiled) (fun r hr => ?_) hxs hys
  obtain ⟨f, hf, hrf⟩ := mem_storedRows.1 hr
  refine hfiles k reg l' f ((get_name hreg).symm ▸ hreg) hl (Storage.live_of_mem hf) ?_ r hrf
  -- the manifest lists the file with the hash in its footer, and all it lists have the hash resolved with
  obtain ⟨entry, hentry, hstamp⟩ := List.mem_map.1 (hlisted f hf)
  have hcurrent := (hby.flagsMaterialised hstored).2
  unfold Manifest.flagsCurrent at hcurrent
  rw [Bool.and_eq_true, List.all_eq_true] at hcurrent
  have hlists : entry.contractHash = reg₀.compilation.contract.contractHash := by simpa using hcurrent.2 entry hentry
  exact (congrArg Prod.snd hstamp).symm.trans (hlists.trans (hby.contractHash.symm.trans hhash.symm))

/-! ## Two limits on amounts -/

/-- Half of an amount. -/
def halfAmount : Expr := .op (.binary (.other "/")) [.column "amount", .literal (.int 2)]

/-- The amounts above a limit, and half of each. -/
def limitAmounts (version : Nat) (contractHash compilationHash : String) (limit : Int) : Compilation where
  contract :=
    { amountContract.contract with
      version := version
      contractHash := contractHash
      compilationHash := compilationHash
      projection := [("amount", .column "amount"), ("half", halfAmount)]
      projectionStored := [("amount", .column "amount"), ("half", .column "_d_half")]
      flags := [⟨"above", "_flag_above", .drop, .op (.binary .gt) [.column "amount", .literal (.int limit)]⟩]
      derived := [⟨"_d_half", "Int64", true⟩] }
  write := ⟨[⟨"above", "_flag_above", .drop, .op (.binary .gt) [.column "amount", .literal (.int limit)]⟩],
    [⟨"_d_half", halfAmount⟩]⟩
  validation := { asserts := ["above"], stats := [], dataGuarantees := [] }

def lowLimit : Compilation := limitAmounts 1 "c1" "h1" 0

def highLimit : Compilation := limitAmounts 2 "c2" "h2" 5

def LowOrHigh (c : Compilation) : Prop := c = lowLimit ∨ c = highLimit

theorem stores_limitAmounts (version : Nat) (contractHash compilationHash : String) (limit : Int) :
    (limitAmounts version contractHash compilationHash limit).Stores := by
  have hamount : ∀ x ∈ ["amount"], x ∈ ["amount"] := fun _ => id
  refine ⟨(by decide : ["amount", "_flag_above", "_d_half"].Nodup), fun _ hd => (nomatch hd), fun f hf => ?_,
    fun d hd => ?_, fun _ => id, fun d hd => ?_, rfl, rfl, fun e he => ?_⟩
  · obtain rfl := List.mem_singleton.1 hf
    exact ⟨rfl, hamount⟩
  · obtain rfl := List.mem_singleton.1 hd
    exact ⟨⟨rfl, rfl⟩, hamount⟩
  · obtain rfl := List.mem_singleton.1 hd
    exact List.mem_singleton_self _
  · rcases List.mem_pair.1 he with rfl | rfl
    · exact ⟨rfl, fun x hx => List.mem_append_left _ (hamount x hx)⟩
    · exact ⟨rfl, fun x hx => List.mem_append_right _ hx⟩

theorem stores_lowOrHigh (c : Compilation) (hc : LowOrHigh c) : c.Stores := by
  rcases hc with rfl | rfl
  · exact stores_limitAmounts ..
  · exact stores_limitAmounts ..

/-- An assert fails where its flag is not true. -/
def flagReading (c : Compilation) : Reading where
  fails assertion r := c.write.flags.any fun f =>
    decide (f.assertId = assertion ∧ (f.expr.eval divisionKernel.alone [] r).val ≠ .bool true)
  render := amountReading.render
  unordered := amountReading.unordered

/-- Amounts, validated by the flags of the version at hand. -/
def limitRuntime : Runtime :=
  { amountsRuntime with
    validate := fun c rows =>
      .ok { validateAmounts rows with failures := failing c (flagReading c) rows, breached := [] } }

/-- A file of some rows, stamped and written under the hashes given. -/
def laidFile (path contractHash compilationHash : String) (rows : List Row) : StoredFile where
  entry :=
    { path := path, rows := rows.length, bytes := 100, contractHash := contractHash, flags := Lookup.empty,
      nullCounts := Lookup.empty, sha256 := "s" ++ path }
  rows := rows
  typed _ _ := trivial
  entry_rows := rfl
  entry_nulls _ _ h := nomatch h
  under := some compilationHash

/-- Two amounts, as a write is given them. -/
def givenRows : List Row := [[("amount", .int 3)], [("amount", .int (-2))]]

/-- The one amount and the other, as they are written under the low limit. -/
def lowRows : List Row :=
  [[("amount", .int 3), ("_flag_above", .bool true), ("_d_half", .int 1)],
    [("amount", .int (-2)), ("_flag_above", .bool false), ("_d_half", .int (-1))]]

def lowFiles : List StoredFile := [laidFile "a" "c1" "h1" (lowRows.take 1), laidFile "b" "c1" "h1" (lowRows.drop 1)]

/-- The rows of both, as they are stored, in a compaction under a version. -/
def copiedFile (contractHash : String) : StoredFile := laidFile "c" contractHash "h1" lowRows

/-- Engines with the amounts in a table, and no contract yet. -/
def limitFleet : Fleet :=
  ⟨fun _ => freshEngine .empty fun _ => some (.iceberg "amounts"), emptyStorage, fun _ => none⟩

/-- A write to the table begun under a version. -/
def limitWrite (c : Compilation) (written : Written) (id : String) : Begun :=
  ⟨⟨c⟩, .iceberg "amounts", written, .warn, 0, 0, [], [], [], some ⟨id, none, none⟩⟩

/-- The table as a compaction under a version leaves it, with what is known of its files under that version. -/
def compactedTable (c : Compilation) : Storage :=
  let files := [copiedFile c.contract.contractHash]
  let facts := wholeManifest limitRuntime.sha256 c
    { validateAmounts (providedRows c.contract false files) with
      failures := failing c (flagReading c) (providedRows c.contract false files), breached := [] }
    (files.map fun f => f.entryFor c.contract) 5 5 (some 2)
  emptyStorage.setTable "amounts"
    { metadata := ⟨[⟨1, none, some 5, none, fileColumns c.contract true, lowFiles⟩,
        ⟨2, some 1, some 7, none, fileColumns c.contract true, files⟩], some 2, fileColumns c.contract true⟩
      facts := fun id file => if id = 2 ∧ file = manifestFile "acme/amounts" then .facts facts else .absent
      writeFacts := fun _ _ => .absent }

/-- The table with the files of a write under the low limit. -/
def writtenTable : Storage :=
  emptyStorage.setTable "amounts" ⟨⟨[⟨1, none, some 5, none, fileColumns lowLimit.contract true, lowFiles⟩], some 1,
    fileColumns lowLimit.contract true⟩, fun _ _ => .absent, fun _ _ => .absent⟩

/-- The files of a table set where there was none are of its snapshots. -/
theorem live_emptyStorage {table : String} {t : IcebergTable} {l : Location} {f : StoredFile}
    (h : (emptyStorage.setTable table t).Live l f) :
    l = .iceberg table ∧ ∃ sn ∈ t.metadata.snapshots, f ∈ sn.files := by
  cases l with
  | localDir root => cases h
  | object url => cases h
  | iceberg table' =>
    obtain ⟨t', sn, ht', hsn, hf⟩ := h
    rcases Storage.tables_setTable ht' with ⟨rfl, rfl⟩ | ht'
    · exact ⟨rfl, sn, hsn, hf⟩
    · cases ht'

theorem laid_low : (limitWrite lowLimit .append "w0").Lays limitRuntime givenRows lowFiles where
  stamped f hf := by
    rcases List.mem_pair.1 hf with rfl | rfl
    · rfl
    · rfl
  under f hf := by
    rcases List.mem_pair.1 hf with rfl | rfl
    · rfl
    · rfl
  rows := ⟨lowRows, by decide, by decide⟩

theorem compacts_low {c : Compilation} (hc : LowOrHigh c) :
    Compacts LowOrHigh [copiedFile c.contract.contractHash] lowFiles where
  stamped := by
    refine ⟨c, hc, fun f hf => ?_⟩
    obtain rfl := List.mem_singleton.1 hf
    rfl
  under f hf h hunder g hg := by
    obtain rfl := List.mem_singleton.1 hf
    rcases List.mem_pair.1 hg with rfl | rfl
    · exact hunder
    · exact hunder
  rows _ := rfl

/-- The table is written at one engine under the low limit, and compacted at the other under a version. -/
def compactsAmounts (c : Compilation) : List ColumnAction :=
  [.registers 0 ⟨lowLimit⟩, .begins 0 0 (limitWrite lowLimit .append "w0"), .writes 0 givenRows lowFiles,
    .stores writtenTable, .ends 0, .registers 1 ⟨c⟩, .begins 1 1 (limitWrite c .rewrite "w1"),
    .compacts 1 [copiedFile c.contract.contractHash] lowFiles, .stores (compactedTable c), .ends 1]

theorem compactsAmounts_run {c : Compilation} (hc : LowOrHigh c) :
    ∃ τ, Run (ColumnStep limitRuntime LowOrHigh) limitFleet (compactsAmounts c) τ ∧ τ.storage = compactedTable c ∧
      τ.engines 1 = freshEngine (Contents.empty.put ⟨c⟩) fun _ => some (.iceberg "amounts") := by
  refine ⟨_, .cons (.registers (.inl rfl)) (.cons (.begins rfl rfl) (.cons (.writes rfl (by decide) rfl laid_low)
    (.cons (.stores fun l f hf => ?_) (.cons (.ends 0) (.cons (.registers hc) (.cons (.begins ?_ rfl)
      (.cons (.compacts rfl rfl ?_ (compacts_low hc)) (.cons (.stores fun l f hf => ?_)
        (.cons (.ends 1) (.nil _)))))))))), rfl, rfl⟩
  · obtain ⟨-, sn, hsn, hf⟩ := live_emptyStorage hf
    obtain rfl := List.mem_singleton.1 hsn
    exact .inr (.inl ⟨0, _, rfl, hf⟩)
  · rcases hc with rfl | rfl
    · rfl
    · rfl
  · intro g hg
    exact ⟨.iceberg "amounts", _, _, rfl, List.mem_singleton_self _, hg⟩
  · obtain ⟨rfl, sn, hsn, hf⟩ := live_emptyStorage hf
    rcases List.mem_pair.1 hsn with rfl | rfl
    · exact .inl ⟨_, _, rfl, List.mem_singleton_self _, hf⟩
    · exact .inr (.inl ⟨1, _, rfl, hf⟩)

/-- The engine that compacted the table, over it. -/
def compactedNode (c : Compilation) : Node :=
  ⟨freshEngine (Contents.empty.put ⟨c⟩) fun _ => some (.iceberg "amounts"), compactedTable c, 9, []⟩

/-- Under the high limit it reads the stored columns, and the live rules release what these do not. -/
theorem high_read : ∃ a m n view live, resolveAt limitRuntime "acme/amounts" globexCaller .exclude none
    (compactedNode highLimit) = .ok (a, m) n ∧ a.flagsMaterialised = true ∧
      contractViewFor limitRuntime "acme/amounts" globexCaller a n = .ok view n ∧
      contractViewFor limitRuntime "acme/amounts" globexCaller { a with flagsMaterialised := false } n = .ok live n ∧
      ¬ SameView limitRuntime.kernel view live := by
  refine ⟨_, _, _, _, _, rfl, by decide, rfl, rfl, fun hsame => ?_⟩
  have hrows := (hsame lowRows givenRows (by decide) (by decide)).val
  exact absurd hrows (by decide)

/-- **A compaction has flags of the version before it read as its own**: the amount of 3, above the low limit and not
the high one, is released under the high limit. -/
theorem copied_flags_release : ∃ τ a m n view live,
    Run (ColumnStep limitRuntime LowOrHigh) limitFleet (compactsAmounts highLimit) τ ∧
      resolveAt limitRuntime "acme/amounts" globexCaller .exclude none (τ.node 1 9) = .ok (a, m) n ∧
      a.flagsMaterialised = true ∧
      contractViewFor limitRuntime "acme/amounts" globexCaller a n = .ok view n ∧
      contractViewFor limitRuntime "acme/amounts" globexCaller { a with flagsMaterialised := false } n = .ok live n ∧
      ¬ SameView limitRuntime.kernel view live := by
  obtain ⟨τ, hrun, hs, he⟩ := compactsAmounts_run (.inr rfl)
  obtain ⟨a, m, n, view, live, hread⟩ := high_read
  have hnode : τ.node 1 9 = compactedNode highLimit := by
    unfold Fleet.node compactedNode
    rw [he, hs]
  rw [← hnode] at hread
  exact ⟨τ, a, m, n, view, live, hrun, hread⟩

/-- Under the low limit it reads them too: of the amounts, the one above the limit, with its half. -/
theorem low_read : ∃ a m n view, resolveAt limitRuntime "acme/amounts" globexCaller .exclude none
    (compactedNode lowLimit) = .ok (a, m) n ∧
      resolution limitRuntime n.engine ⟨lowLimit⟩ globexCaller .exclude m = .ok a ∧
      a.flagsMaterialised = true ∧ a.contractHash = "c1" ∧ a.snapshotId = some 2 ∧
      m.files.map FileEntry.stamp = [("c", "c1")] ∧
      contractViewFor limitRuntime "acme/amounts" globexCaller a (compactedNode lowLimit) =
        .ok view (compactedNode lowLimit) ∧
      (view.1.run ⟨limitRuntime.kernel, fun _ _ => lowRows⟩ []).val = [[("amount", .int 3), ("half", .int 1)]] :=
  ⟨_, _, _, _, rfl, rfl, by decide, rfl, rfl, by decide, rfl, by decide⟩

theorem unwritten_limit : limitFleet.Unwritten LowOrHigh where
  compiled _ _ hreg := nomatch hreg
  files l f hf := by
    cases l with
    | localDir root => cases hf
    | object url => cases hf
    | iceberg table =>
      obtain ⟨t, sn, ht, -⟩ := hf
      cases ht
  idle _ := rfl

/-- The two versions differ in either hash. -/
theorem lowOrHigh_eq (hash : Compilation → String) (hne : hash lowLimit ≠ hash highLimit) (c c' : Compilation)
    (hc : LowOrHigh c) (hc' : LowOrHigh c') (h : hash c = hash c') : c = c' := by
  rcases hc with rfl | rfl <;> rcases hc' with rfl | rfl
  · rfl
  · exact absurd h hne
  · exact absurd h.symm hne
  · rfl

/-- A compaction under the low limit makes files of it. -/
theorem apt_copied (f : StoredFile) (hf : f ∈ [copiedFile "c1"]) : f.Apt LowOrHigh := by
  obtain rfl := List.mem_singleton.1 hf
  rintro c (rfl | rfl) hstamp
  · rfl
  · exact absurd (show "c1" = "c2" from hstamp) (by decide)

/-- What it reads is of the table's files. -/
theorem views_compacted {τ : Fleet} (hnode : τ.node 1 9 = compactedNode lowLimit) {a : Resolution} {m : Manifest}
    (hhash : a.contractHash = "c1") (hsnapshot : a.snapshotId = some 2)
    (hlist : m.files.map FileEntry.stamp = [("c", "c1")]) : τ.Views 1 "acme/amounts" a m := by
  have hengine : τ.engines 1 = (compactedNode lowLimit).engine := congrArg Node.engine hnode
  have hstorage : τ.storage = compactedTable lowLimit := congrArg Node.storage hnode
  intro reg hreg
  rw [hengine] at hreg ⊢
  cases hreg
  refine ⟨hhash.symm, .iceberg "amounts", rfl, fun f hf => ?_⟩
  rw [hstorage, hsnapshot] at hf
  obtain rfl := List.mem_singleton.1 (show f ∈ [copiedFile "c1"] from hf)
  rw [hlist]
  exact List.mem_singleton_self _

theorem stored_view_is_live_amounts : ∃ τ a m n view live,
    Run (Guarded Fleet.Settles (ColumnStep limitRuntime LowOrHigh)) limitFleet
        (compactsAmounts lowLimit ++ [.registers 0 ⟨highLimit⟩]) τ ∧
      resolveAt limitRuntime "acme/amounts" globexCaller .exclude none (τ.node 1 9) = .ok (a, m) n ∧
      a.flagsMaterialised = true ∧
      contractViewFor limitRuntime "acme/amounts" globexCaller a (τ.node 1 9) = .ok view (τ.node 1 9) ∧
      (view.1.run ⟨limitRuntime.kernel, fun _ _ => lowRows⟩ []).val = [[("amount", .int 3), ("half", .int 1)]] ∧
      contractViewFor limitRuntime "acme/amounts" globexCaller { a with flagsMaterialised := false } (τ.node 1 9) =
        .ok live (τ.node 1 9) ∧ SameView limitRuntime.kernel view live := by
  obtain ⟨τ, hrun, hs, he⟩ := compactsAmounts_run (.inl rfl)
  have hregisters : ColumnStep limitRuntime LowOrHigh τ (.registers 0 ⟨highLimit⟩)
      (τ.withStore 0 ((τ.engines 0).store.put ⟨highLimit⟩)) := .registers (.inr rfl)
  have hrun := hrun.snoc hregisters
  have hcopies : (compactsAmounts lowLimit ++ [ColumnAction.registers 0 ⟨highLimit⟩]).flatMap ColumnAction.copies =
      [copiedFile "c1"] := rfl
  have hsettles := unwritten_limit.settles (lowOrHigh_eq (fun c => c.contract.contractHash) (by decide))
    (hrun.guarded fun a ha f hf => apt_copied f (hcopies ▸ List.mem_flatMap.2 ⟨a, ha, hf⟩))
  generalize hτ : τ.withStore 0 ((τ.engines 0).store.put ⟨highLimit⟩) = υ at hsettles
  have hnode : υ.node 1 9 = compactedNode lowLimit := by
    subst hτ
    unfold Fleet.node compactedNode
    rw [Fleet.withStore_of_ne (by decide), he, ← hs]
    rfl
  obtain ⟨a, m, n, view, hread, hresolution, hstored, hhash, hsnapshot, hlist, hview, hrows⟩ := low_read
  have hviews := views_compacted hnode hhash hsnapshot hlist
  rw [← hnode] at hread hview
  obtain ⟨live, hlive, hsame⟩ := (stored_view_is_live (lowOrHigh_eq (fun c => c.contract.compilationHash) (by decide))
    stores_lowOrHigh unwritten_limit hsettles).2 1 "acme/amounts" globexCaller .exclude _ _ m a hresolution hstored
      hviews _ _ view rfl rfl hview
  exact ⟨υ, a, m, n, view, live, hsettles, hread, hstored, hview, hrows, hlive, hsame⟩

end Peql
