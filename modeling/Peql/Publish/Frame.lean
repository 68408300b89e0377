import Peql.Engine.Query
import Peql.Publish.Left

/-!
# What a write touches

Contracts share data only when their locations have one key, while a binding lists every file below its root. So a write
leaves another contract's data alone exactly when none of the files it moves or deletes is under that contract's root;
and the contracts it records facts of have facts that describe the files, when those carried on did.
-/

namespace Peql

open Effects

/-- The live files of a binding, as entries and data hashes name them. -/
def Tree.live (t : Tree) (root : Address) : List (String × String) :=
  (t.listFiles root).map fun f => (root.nameUnder f.1, f.2.entry.sha256)

/-- A manifest's file list is exactly the live files. -/
def Manifest.Describes (m : Manifest) (t : Tree) (root : Address) : Prop :=
  (m.files.map fun e => (e.path, e.sha256)).Perm (t.live root)

/-- The files a binding lists are what they were, and the contract's manifest describes them if it did. -/
def Untouched (t t' : Tree) (root : Address) (contract : String) : Prop :=
  t'.listFiles root = t.listFiles root ∧
    ∀ m, t.recorded root contract = .facts m → m.Describes t root →
      ∃ m', t'.recorded root contract = .facts m' ∧ m'.Describes t' root

/-- A contract's manifest was removed, or describes the live files. -/
def Truthful (t : Tree) (root : Address) (contract : String) : Prop :=
  t.recorded root contract = .absent ∨ ∃ m, t.recorded root contract = .facts m ∧ m.Describes t root

namespace Writing

variable [ObjectPaths] {R : Runtime} {fails : PublishStep → Option PeqlError} {w : Writing} {store : Contents}
  {location : CompiledContract → Option Address} {writtenAt : Int} {t t' : Tree} {bound : List Registered}
  {done : List PublishStep}

/-- None of the files moved or deleted is one a binding at `root` lists. -/
structure Outside (w : Writing) (done : List PublishStep) (t : Tree) (root : Address) : Prop where
  moved : ∀ f ∈ w.staged, PublishStep.moves (w.dest f.1) ∈ done → root.covers (w.dest f.1) = false
  deleted : ∀ f ∈ t.files, PublishStep.deletes f.1 ∈ done → root.covers f.1 = false

/-- The files of the data a write has not deleted, by name. -/
def remaining (w : Writing) (done : List PublishStep) (t : Tree) : List (String × String) :=
  ((t.listFiles w.place).filter fun f => PublishStep.deletes f.1 ∉ done).map fun f =>
    (w.place.nameUnder f.1, f.2.entry.sha256)

/-- A staged file is among the data: moved to a place the binding lists. -/
def arrived (w : Writing) (done : List PublishStep) (f : List String × StoredFile) : Bool :=
  PublishStep.moves (w.dest f.1) ∈ done && w.place.covers (w.dest f.1)

/-- Staged files by name. -/
def names (files : List (List String × StoredFile)) : List (String × String) :=
  files.map fun f => (relativePath f.1, f.2.entry.sha256)

/-- Staged files by the names the binding has for them in their places. -/
def landed (w : Writing) (files : List (List String × StoredFile)) : List (String × String) :=
  files.map fun f => (w.place.nameUnder (w.dest f.1), f.2.entry.sha256)

/-- A file goes to its place under its own name: for an object, none of its characters but the separators is encoded. -/
def KeepsName (w : Writing) (path : List String) : Prop :=
  match w.place.backend with
  | .localFiles => True
  | .object _ => ∀ c ∈ (relativePath path).toList, c ≠ '/' → ObjectPaths.reserved c = false

omit [ObjectPaths] in
/-- The entries of a write name its files. -/
theorem names_entries (w : Writing) (cc : CompiledContract) :
    ((w.entries cc).map fun e => (e.path, e.sha256)) = names w.staged := by
  unfold entries names
  rw [List.map_map]
  rfl

/-! ## Files and manifests elsewhere -/

/-- Other data is untouched when the changes are outside its root. -/
theorem Left.untouched_iff (h : w.Left bound done t t') (hfresh : w.Fresh t) {root : Address} (hne : root ≠ w.place)
    {contract : String} : Untouched t t' root contract ↔ w.Outside done t root := by
  constructor
  · rintro ⟨hfiles, _⟩
    constructor
    · -- A file that has come is listed, and was not.
      intro f hf hmoved
      by_contra hcovers
      rw [Bool.not_eq_false] at hcovers
      have hmem : (w.dest f.1, f.2) ∈ t'.listFiles root := by
        refine Tree.mem_listFiles.2 ⟨?_, hcovers⟩
        rw [h.files]
        exact List.mem_append_right _ (List.mem_map.2 ⟨f, List.mem_filter.2 ⟨hf, decide_eq_true hmoved⟩, rfl⟩)
      rw [hfiles] at hmem
      exact hfresh.unused f hf _ (Tree.mem_listFiles.1 hmem).1 rfl
    · -- A file that has gone was listed, and is not.
      intro f hf hdeleted
      by_contra hcovers
      rw [Bool.not_eq_false] at hcovers
      have hmem : f ∈ t'.listFiles root := by
        rw [hfiles]
        exact Tree.mem_listFiles.2 ⟨hf, hcovers⟩
      have hmem := (Tree.mem_listFiles.1 hmem).1
      rw [h.files] at hmem
      rcases List.mem_append.1 hmem with hmem | hmem
      · exact of_decide_eq_true (List.mem_filter.1 hmem).2 hdeleted
      · obtain ⟨g, hg, rfl⟩ := List.mem_map.1 hmem
        exact hfresh.unused g (List.mem_filter.1 hg).1 _ hf rfl
  · intro hout
    have hfiles : t'.listFiles root = t.listFiles root := by
      refine Tree.listFiles_congr ?_
      rw [h.files, List.filter_append, List.filter_filter]
      have hnew : (((w.staged.filter fun f => PublishStep.moves (w.dest f.1) ∈ done).map fun f =>
          (w.dest f.1, f.2)).filter fun f => root.covers f.1) = [] := by
        refine List.filter_eq_nil_iff.2 fun f hf hcovers => ?_
        obtain ⟨g, hg, rfl⟩ := List.mem_map.1 hf
        obtain ⟨hg, hmoved⟩ := List.mem_filter.1 hg
        have hnot := hout.moved g hg (of_decide_eq_true hmoved)
        exact absurd (hnot.symm.trans hcovers) (by simp)
      rw [hnew, List.append_nil]
      refine List.filter_congr fun f hf => ?_
      by_cases hdeleted : PublishStep.deletes f.1 ∈ done
      · simp [hout.deleted f hf hdeleted]
      · simp [hdeleted]
    refine ⟨hfiles, fun m hm hdescribes => ⟨m, (h.elsewhere root contract hne).trans hm, ?_⟩⟩
    unfold Manifest.Describes Tree.live at hdescribes ⊢
    rwa [hfiles]

/-! ## The data written -/

/-- The live files after are those that remain and those that arrived. -/
theorem Left.live_perm (h : w.Left bound done t t') :
    (t'.live w.place).Perm (w.remaining done t ++ w.landed (w.staged.filter (w.arrived done))) := by
  unfold Tree.live Tree.listFiles
  refine ((List.mergeSort_perm _ _).map _).trans ?_
  rw [h.files, List.filter_append, List.map_append]
  refine List.Perm.append ?_ (List.Perm.of_eq ?_)
  · unfold remaining Tree.listFiles
    rw [List.filter_filter]
    have hcomm : (t.files.filter fun f => w.place.covers f.1 && decide (PublishStep.deletes f.1 ∉ done)) =
        (t.files.filter fun f => w.place.covers f.1).filter fun f => decide (PublishStep.deletes f.1 ∉ done) := by
      rw [List.filter_filter]
      exact List.filter_congr fun f _ => Bool.and_comm _ _
    rw [hcomm]
    exact (((List.mergeSort_perm _ _).filter _).map _).symm
  · rw [List.filter_map, List.map_map, List.filter_filter]
    unfold landed
    have hfilter : (w.staged.filter fun f => ((fun f => w.place.covers f.1) ∘ fun f => (w.dest f.1, f.2)) f &&
        decide (PublishStep.moves (w.dest f.1) ∈ done)) = w.staged.filter (w.arrived done) := by
      exact List.filter_congr fun f _ => Bool.and_comm _ _
    rw [hfilter]
    rfl

/-- A staged file's name is not one of the data's. -/
theorem Fresh.not_mem_live (h : w.Fresh t) {f : List String × StoredFile} (hf : f ∈ w.staged) :
    (relativePath f.1, f.2.entry.sha256) ∉ t.live w.place := by
  intro hmem
  obtain ⟨g, hg, hname⟩ := List.mem_map.1 hmem
  exact h.unlisted f hf g hg (Prod.mk.inj hname).1

/-- Nor is the name it gets. -/
theorem Fresh.landed_not_mem_live (h : w.Fresh t) {f : List String × StoredFile} (hf : f ∈ w.staged) :
    (w.place.nameUnder (w.dest f.1), f.2.entry.sha256) ∉ t.live w.place := by
  intro hmem
  obtain ⟨g, hg, hname⟩ := List.mem_map.1 hmem
  exact h.unlanded f hf g hg (Prod.mk.inj hname).1

omit [ObjectPaths] in
/-- What remains was there. -/
theorem remaining_subset (w : Writing) (done : List PublishStep) (t : Tree) : w.remaining done t ⊆ t.live w.place :=
  (List.filter_sublist.map _).subset

/-- Where every staged name is the name of a file in its place, every file has its own. -/
theorem Fresh.keepsName (h : w.Fresh t)
    (hnames : ∀ f ∈ w.staged, ∃ g ∈ w.staged, w.place.nameUnder (w.dest g.1) = relativePath f.1) :
    ∀ f ∈ w.staged, w.KeepsName f.1 := by
  intro f hf
  unfold KeepsName
  cases hb : w.place.backend with
  | localFiles => exact trivial
  | object url =>
    intro c hc hslash
    have hmem : f.1 ∈ w.staged.map Prod.fst := List.mem_map_of_mem hf
    refine plain_of_encoded ?_ ?_ hmem hc hslash
    · intro _ hmem
      obtain ⟨g, hg, rfl⟩ := List.mem_map.1 hmem
      exact h.plain g hg
    · intro _ hmem
      obtain ⟨g, hg, rfl⟩ := List.mem_map.1 hmem
      obtain ⟨k, hk, hname⟩ := hnames g hg
      rw [w.nameUnder_dest (h.named k hk) (h.plain k hk)] at hname
      unfold encoded at hname
      rw [hb] at hname
      exact ⟨k.1, List.mem_map_of_mem hk, hname⟩

/-- A file that keeps its name is not encoded. -/
theorem KeepsName.encoded_eq {path : List String} (h : w.KeepsName path) (hplain : ∀ part ∈ path, PlainPart part) :
    w.encoded path = path := by
  unfold KeepsName at h
  unfold encoded
  cases hb : w.place.backend with
  | localFiles => rfl
  | object url =>
    rw [hb] at h
    dsimp only at h ⊢
    refine (List.map_congr_left fun part hp => Percent.encode_of_plain fun c hc => ?_).trans (List.map_id _)
    have hslash : c ≠ '/' := fun heq => hplain part hp (heq ▸ hc)
    exact h c (mem_relativePath hp hc) hslash

/-- Files that keep their names have them in their places. -/
theorem Fresh.landed_eq (h : w.Fresh t) {files : List (List String × StoredFile)} (hsub : files ⊆ w.staged)
    (hkept : ∀ f ∈ files, w.KeepsName f.1) : w.landed files = names files := by
  refine List.map_congr_left fun f hf => ?_
  have hstaged := hsub hf
  rw [w.nameUnder_dest (h.named f hstaged) (h.plain f hstaged), (hkept f hf).encoded_eq (h.plain f hstaged)]

/-- A list of the files carried on and of all those staged is the live files exactly when all have come under their own
names, and the files carried on are those left. -/
theorem Fresh.perm_iff (h : w.Fresh t) {files : List (String × String)} :
    (files ++ names w.staged).Perm (w.remaining done t ++ w.landed (w.staged.filter (w.arrived done))) ↔
      (∀ f ∈ w.staged, w.arrived done f = true ∧ w.KeepsName f.1) ∧ files.Perm (w.remaining done t) := by
  constructor
  · intro hperm
    have hcome : ∀ f ∈ w.staged, ∃ g ∈ w.staged, w.arrived done g = true ∧
        w.place.nameUnder (w.dest g.1) = relativePath f.1 := by
      intro f hf
      have hmem : (relativePath f.1, f.2.entry.sha256) ∈ files ++ names w.staged :=
        List.mem_append_right _ (List.mem_map_of_mem hf)
      rcases List.mem_append.1 (hperm.subset hmem) with hmem | hmem
      · exact absurd (w.remaining_subset done t hmem) (h.not_mem_live hf)
      · obtain ⟨g, hg, hname⟩ := List.mem_map.1 hmem
        obtain ⟨hg, harrived⟩ := List.mem_filter.1 hg
        exact ⟨g, hg, harrived, (Prod.mk.inj hname).1⟩
    have hkept : ∀ f ∈ w.staged, w.KeepsName f.1 := h.keepsName fun f hf => by
      obtain ⟨g, hg, _, hname⟩ := hcome f hf
      exact ⟨g, hg, hname⟩
    have hall : ∀ f ∈ w.staged, w.arrived done f = true := by
      intro f hf
      obtain ⟨g, hg, harrived, hname⟩ := hcome f hf
      rw [w.nameUnder_dest (h.named g hg) (h.plain g hg), (hkept g hg).encoded_eq (h.plain g hg)] at hname
      rwa [List.inj_on_of_nodup_map h.distinct hg hf hname] at harrived
    rw [List.filter_eq_self.2 hall, h.landed_eq (List.Subset.refl _) hkept] at hperm
    exact ⟨fun f hf => ⟨hall f hf, hkept f hf⟩, (List.perm_append_right_iff _).1 hperm⟩
  · rintro ⟨hall, hfiles⟩
    rw [List.filter_eq_self.2 fun f hf => (hall f hf).1, h.landed_eq (List.Subset.refl _) fun f hf => (hall f hf).2]
    exact hfiles.append_right _

/-- The facts recorded of a contract describe the files when all staged files have come under their own names, and the
entries carried on are those of the files left. -/
def Rightly (w : Writing) (done : List PublishStep) (t : Tree) (r : Registered) : Prop :=
  ∀ files, w.carried t r = some files →
    (∀ f ∈ w.staged, w.arrived done f = true ∧ w.KeepsName f.1) ∧
      (files.map fun e => (e.path, e.sha256)).Perm (w.remaining done t)

/-- What a write records is true when what it carries on was, and its files keep their names. -/
theorem Left.recorded_iff (h : w.Left bound done t t') (hfresh : w.Fresh t) {contract : String} {r : Registered}
    (hlast : lastIn done bound contract = some r) : Truthful t' w.place contract ↔ w.Rightly done t r := by
  have hrecorded := h.recorded contract r hlast
  unfold Truthful Rightly
  cases hc : w.carried t r with
  | none =>
    simp only [hc] at hrecorded
    constructor
    · intro _ files hfiles
      cases hfiles
    · intro _
      exact .inl hrecorded
  | some files =>
    simp only [hc] at hrecorded
    obtain ⟨m, hm, hfiles⟩ := hrecorded
    have hentries : (m.files.map fun e => (e.path, e.sha256)).Perm
        ((files.map fun e => (e.path, e.sha256)) ++ names w.staged) := by
      have hmap := hfiles.map fun e : FileEntry => (e.path, e.sha256)
      rwa [List.map_append, names_entries] at hmap
    have hiff : m.Describes t' w.place ↔ (∀ f ∈ w.staged, w.arrived done f = true ∧ w.KeepsName f.1) ∧
        (files.map fun e => (e.path, e.sha256)).Perm (w.remaining done t) := by
      rw [← hfresh.perm_iff]
      unfold Manifest.Describes
      constructor
      · intro hdescribes
        exact hentries.symm.trans (hdescribes.trans (h.live_perm))
      · intro hperm
        exact hentries.trans (hperm.trans (h.live_perm).symm)
    constructor
    · rintro (habsent | ⟨m', hm', hdescribes⟩)
      · cases hm.symm.trans habsent
      · obtain rfl := Recorded.facts.inj (hm.symm.trans hm')
        rintro _ ⟨⟩
        exact hiff.1 hdescribes
    · intro hright
      exact .inr ⟨m, hm, hiff.2 (hright files rfl)⟩

/-! ## A write that ends well -/

/-- The last contract whose manifest is kept in the file that `contract`'s is. -/
def lastKept (bound : List Registered) (contract : String) : Option Registered :=
  (bound.filter fun r => manifestFile r.name = manifestFile contract).getLast?

omit [ObjectPaths] in
/-- A contract bound has a last one of its file. -/
theorem lastKept_of_mem {r : Registered} (h : r ∈ bound) : ∃ last, lastKept bound r.name = some last := by
  have hmem : r ∈ bound.filter fun r' => manifestFile r'.name = manifestFile r.name :=
    List.mem_filter.2 ⟨h, decide_eq_true rfl⟩
  unfold lastKept
  cases hl : (bound.filter fun r' => manifestFile r'.name = manifestFile r.name).getLast? with
  | some last => exact ⟨last, rfl⟩
  | none =>
    rw [List.getLast?_eq_none_iff] at hl
    rw [hl] at hmem
    exact absurd hmem List.not_mem_nil

/-- A contract's facts before are carried on only if they described the files, and what is written is listed under the
names it was written with. -/
structure CarriesOn (w : Writing) (t : Tree) (r : Registered) : Prop where
  listed : (w.carried t r).isSome → ∀ f ∈ w.staged, w.place.covers (w.dest f.1) = true ∧ w.KeepsName f.1
  described : (w.carried t r).isSome → ∀ b, w.knew t r = some (some b) → b.Describes t w.place

/-- Every old file is deleted, and every staged one moved. -/
structure Published (w : Writing) (old : List Address) (done : List PublishStep) : Prop where
  deleted : ∀ a, PublishStep.deletes a ∈ done ↔ a ∈ old
  moved : ∀ f ∈ w.staged, PublishStep.moves (w.dest f.1) ∈ done

/-- All its changes publish a write. -/
theorem published_changes (w : Writing) (old : List Address) (bound : List Registered) :
    w.Published old (w.changes old bound) where
  deleted a := by simp [changes]
  moved f hf := List.mem_append_left _ (List.mem_append_right _
    (List.mem_map_of_mem (f := fun f : List String × StoredFile => PublishStep.moves (w.dest f.1)) hf))

/-- The last record of a file is of the last contract kept there. -/
theorem lastIn_changes (w : Writing) (old : List Address) (bound : List Registered) (contract : String) :
    lastIn (w.changes old bound) bound contract = lastKept bound contract := by
  unfold lastIn lastKept
  congr 1
  refine List.filter_congr fun r hr => ?_
  have hmem : PublishStep.records r.name ∈ w.changes old bound :=
    List.mem_append_right _ (List.mem_map_of_mem (f := fun r : Registered => PublishStep.records r.name) hr)
  simp [hmem]

/-- A published file arrives when the binding lists its place. -/
theorem Published.arrived_eq {old : List Address} (h : w.Published old done) {f : List String × StoredFile}
    (hf : f ∈ w.staged) : w.arrived done f = w.place.covers (w.dest f.1) := by
  simp [arrived, h.moved f hf]

/-- What is left of the data: nothing after an overwrite, all of it after an append. -/
theorem Published.remaining_eq {old : List Address} (h : w.Published old done) (hw : w.written ≠ .rewrite)
    (hold : w.oldFiles fails t = .ok old) :
    w.remaining done t = if w.written = .overwrite then [] else t.live w.place := by
  unfold oldFiles at hold
  unfold remaining
  simp only [h.deleted]
  cases hwr : w.written with
  | rewrite => exact absurd hwr hw
  | append =>
    rw [hwr] at hold
    obtain rfl := Except.ok.inj hold
    simp [Tree.live]
  | overwrite =>
    rw [hwr] at hold
    obtain ⟨files, hfiles, hold⟩ := Peql.bind_eq_ok.1 hold
    obtain rfl := Except.ok.inj (looks_ok hfiles)
    obtain rfl := Except.ok.inj hold
    rw [List.filter_eq_nil_iff.2]
    · rfl
    · intro f hf hnot
      exact of_decide_eq_true hnot (List.mem_map_of_mem hf)

omit [ObjectPaths] in
/-- What is carried on, against what is left of the data. -/
theorem carried_perm (hw : w.written ≠ .rewrite) {r : Registered} {files : List FileEntry}
    (hc : w.carried t r = some files) :
    (files.map fun e => (e.path, e.sha256)).Perm (if w.written = .overwrite then [] else t.live w.place) ↔
      ∀ b, w.knew t r = some (some b) → b.Describes t w.place := by
  unfold carried at hc
  cases hk : w.knew t r with
  | none =>
    rw [hk] at hc
    cases hc
  | some b =>
    rw [hk] at hc
    cases b with
    | none =>
      obtain rfl := Option.some.inj hc
      have hnone : (if w.written = .overwrite then [] else t.live w.place) = [] := by
        unfold knew at hk
        cases hwr : w.written with
        | rewrite => exact absurd hwr hw
        | overwrite => rfl
        | append =>
          rw [hwr] at hk
          unfold Tree.live
          cases hr : t.recorded w.place r.name with
          | facts m =>
            simp only [hr] at hk
            cases hk
          | _ =>
            simp only [hr] at hk
            cases hl : t.listFiles w.place with
            | nil => rfl
            | cons f fs =>
              simp only [hl, List.isEmpty_cons] at hk
              cases hk
      rw [hnone]
      simp
    | some b =>
      have hnot : w.written ≠ .overwrite := by
        intro hwr
        unfold knew at hk
        rw [hwr] at hk
        cases hk
      dsimp only at hc
      split at hc
      · obtain rfl := Option.some.inj hc
        rw [if_neg hnot]
        constructor
        · rintro hperm _ ⟨⟩
          exact hperm
        · intro h
          exact h b rfl
      · cases hc

/-- A published write is right when it carries on what was so. -/
theorem Published.rightly_iff {old : List Address} (h : w.Published old done) (hw : w.written ≠ .rewrite)
    (hold : w.oldFiles fails t = .ok old) (r : Registered) : w.Rightly done t r ↔ w.CarriesOn t r := by
  unfold Rightly
  rw [h.remaining_eq hw hold]
  constructor
  · intro hright
    constructor
    · intro hsome f hf
      obtain ⟨files, hc⟩ := Option.isSome_iff_exists.1 hsome
      obtain ⟨harrived, hkept⟩ := (hright files hc).1 f hf
      exact ⟨(h.arrived_eq hf).symm.trans harrived, hkept⟩
    · intro hsome
      obtain ⟨files, hc⟩ := Option.isSome_iff_exists.1 hsome
      exact (carried_perm hw hc).1 (hright files hc).2
  · intro hcarries files hc
    have hsome : (w.carried t r).isSome := by
      rw [hc]
      rfl
    refine ⟨fun f hf => ?_, (carried_perm hw hc).2 (hcarries.described hsome)⟩
    obtain ⟨hcovers, hkept⟩ := hcarries.listed hsome f hf
    exact ⟨(h.arrived_eq hf).trans hcovers, hkept⟩

/-- A write leaves other data and their facts alone, and facts of its own data that are so, exactly when none of the
files it moves or deletes is under another contract's root, and the facts it carries on were so. -/
theorem frame_iff_outside (R : Runtime) (fails : PublishStep → Option PeqlError) (store : Contents)
    (location : CompiledContract → Option Address) (writtenAt : Int) (w : Writing)
    (hw : w.written ≠ .rewrite) (d : Disk)
    (hfresh : w.Fresh d.tree) :
    ((∀ other ∈ store.list, other.name ≠ w.reg.name → ∀ root, location other.compilation.contract = some root →
          root ≠ w.place →
            Untouched d.tree (final (w.finishWrite R fails store location writtenAt) d).tree root other.name) ∧
        ∀ report d', w.finishWrite R fails store location writtenAt d = .ok report d' →
          ∀ r ∈ w.bound store location, Truthful d'.tree w.place r.name) ↔
      (∀ other ∈ store.list, other.name ≠ w.reg.name → ∀ root, location other.compilation.contract = some root →
          root ≠ w.place → w.Outside (w.made R fails store location writtenAt d.tree) d.tree root) ∧
        ∀ report d', w.finishWrite R fails store location writtenAt d = .ok report d' →
          ∀ r ∈ w.bound store location, ∀ last, lastKept (w.bound store location) r.name = some last →
            w.CarriesOn d.tree last := by
  have hleft : w.Left (w.bound store location) (w.made R fails store location writtenAt d.tree) d.tree
      (final (w.finishWrite R fails store location writtenAt) d).tree := finishWrite_left hw hfresh
  refine and_congr ?_ ?_
  · refine forall₂_congr fun other _ => forall₂_congr fun _ root => forall₂_congr fun _ hne => ?_
    exact hleft.untouched_iff hfresh hne
  · refine forall₂_congr fun report d' => forall_congr' fun hok => forall₂_congr fun r hr => ?_
    obtain ⟨old, hold, hleft⟩ := finishWrite_ok_left hw hfresh hok
    obtain ⟨last, hlast⟩ := lastKept_of_mem hr
    have hiff : Truthful d'.tree w.place r.name ↔ w.CarriesOn d.tree last :=
      (hleft.recorded_iff hfresh ((lastIn_changes w old _ r.name).trans hlast)).trans
        ((w.published_changes old _).rightly_iff hw hold last)
    constructor
    · intro htruthful last' hlast'
      obtain rfl := Option.some.inj (hlast.symm.trans hlast')
      exact hiff.1 htruthful
    · intro hcarries
      exact hiff.2 (hcarries last hlast)

end Writing

/-! ## Two contracts of one directory and a part of it -/

/-- The characters `object_store` encodes. -/
instance storePaths : ObjectPaths := ⟨storeReserved, by decide⟩

/-- A contract of the amounts of a region. -/
def regionContract (name : String) : Compilation :=
  { amountContract with contract := { amountContract.contract with name := name } }

def regions : Contents := (Contents.empty.put ⟨regionContract "acme/all"⟩).put ⟨regionContract "acme/eu"⟩

/-- One region in its directory, and the other contract in another. -/
def regionAt (all : List String) (cc : CompiledContract) : Option Address :=
  some ⟨.localFiles, if cc.name = "acme/eu" then ["data", "eu"] else all⟩

def noFiles : Disk := ⟨⟨[], fun _ => .absent⟩, Lookup.empty⟩

/-- An append of one file to the region's data. -/
def euAppend : Writing where
  reg := ⟨regionContract "acme/eu"⟩
  place := ⟨.localFiles, ["data", "eu"]⟩
  written := .append
  onViolation := .warn
  rows := 1
  rowsExcluded := 0
  excluded := []
  staged := [(["a.parquet"], storedAmount "a.parquet" 1)]

theorem fresh_euAppend : euAppend.Fresh noFiles.tree where
  named := by decide
  plain := by
    intro f hf part hp
    obtain rfl := List.mem_singleton.1 hf
    obtain rfl := List.mem_singleton.1 hp
    unfold PlainPart
    decide
  distinct := by decide
  unused := by
    intro f _ g hg
    exact absurd hg List.not_mem_nil
  unlisted := by
    intro f _ g hg
    exact absurd (Tree.mem_listFiles.1 hg).1 List.not_mem_nil
  unlanded := by
    intro f _ g hg
    exact absurd (Tree.mem_listFiles.1 hg).1 List.not_mem_nil

theorem regions_list : regions.list = [⟨regionContract "acme/all"⟩, ⟨regionContract "acme/eu"⟩] := rfl

theorem bound_euAppend {all : List String} (h : all ≠ ["data", "eu"]) :
    euAppend.bound regions (regionAt all) = [⟨regionContract "acme/eu"⟩] := by
  unfold Writing.bound
  rw [regions_list]
  have hothers : ([⟨regionContract "acme/all"⟩, ⟨regionContract "acme/eu"⟩].filter fun other : Registered =>
      other.name ≠ euAppend.reg.name && regionAt all other.compilation.contract = some euAppend.place) = [] := by
    refine List.filter_eq_nil_iff.2 fun other hother hbound => ?_
    obtain ⟨hname, hplace⟩ := Bool.and_eq_true_iff.1 hbound
    rcases List.mem_pair.1 hother with rfl | rfl
    · exact h (Address.mk.inj (Option.some.inj (of_decide_eq_true hplace))).2
    · exact of_decide_eq_true hname rfl
  rw [hothers]
  rfl

theorem euAppend_ok {all : List String} (h : all ≠ ["data", "eu"]) :
    ∃ report d', euAppend.finishWrite amountsRuntime (fun _ => none) regions (regionAt all) 5 noFiles =
      .ok report d' := by
  have hp : ∃ prepared, euAppend.prepare amountsRuntime (euAppend.bound regions (regionAt all)) 5 = .ok prepared := by
    rw [bound_euAppend h]
    exact ⟨_, rfl⟩
  obtain ⟨prepared, hp⟩ := hp
  have hknown : (euAppend.bound regions (regionAt all)).mapM (euAppend.before (fun _ => none) noFiles.tree) =
      .ok [some none] := by
    rw [bound_euAppend h]
    simp [Writing.before, euAppend, looks, Dir.load, Tree.dirAt, noFiles, Dir.recorded, Recorded.load, Tree.listFiles,
      bind, pure, Except.bind, Except.pure]
  exact Writing.finishWrite_goes (by decide) hp hknown rfl (fun _ _ => rfl)

/-- The parent's binding lists what is appended to the region below it. -/
theorem nested_append_listed :
    euAppend.Fresh noFiles.tree ∧ ∃ report d',
      euAppend.finishWrite amountsRuntime (fun _ => none) regions (regionAt ["data"]) 5 noFiles = .ok report d' ∧
        ∃ other ∈ regions.list, other.name ≠ euAppend.reg.name ∧ ∃ root,
          regionAt ["data"] other.compilation.contract = some root ∧ root ≠ euAppend.place ∧
            d'.tree.listFiles root ≠ noFiles.tree.listFiles root := by
  refine ⟨fresh_euAppend, ?_⟩
  obtain ⟨report, d', hok⟩ := @euAppend_ok ["data"] (by decide)
  refine ⟨report, d', hok, ⟨regionContract "acme/all"⟩, by simp [regions_list], by decide, ⟨.localFiles, ["data"]⟩, rfl,
    by decide, ?_⟩
  intro hsame
  obtain ⟨old, _, hleft⟩ := Writing.finishWrite_ok_left (by decide) fresh_euAppend hok
  have hmem :
      (euAppend.dest ["a.parquet"], storedAmount "a.parquet" 1) ∈ d'.tree.listFiles ⟨.localFiles, ["data"]⟩ := by
    refine Tree.mem_listFiles.2 ⟨?_, by decide⟩
    rw [hleft.files]
    simp [Writing.changes, euAppend]
  rw [hsame] at hmem
  exact absurd (Tree.mem_listFiles.1 hmem).1 List.not_mem_nil

/-- A region's write leaves a contract of another directory alone. -/
theorem sibling_append_untouched :
    (∀ other ∈ regions.list, other.name ≠ euAppend.reg.name → ∀ root,
        regionAt ["data", "us"] other.compilation.contract = some root → root ≠ euAppend.place →
          Untouched noFiles.tree (final (euAppend.finishWrite amountsRuntime (fun _ => none) regions
            (regionAt ["data", "us"]) 5) noFiles).tree root other.name) ∧
      ∀ report d', euAppend.finishWrite amountsRuntime (fun _ => none) regions (regionAt ["data", "us"]) 5 noFiles =
        .ok report d' → ∀ r ∈ euAppend.bound regions (regionAt ["data", "us"]),
          Truthful d'.tree euAppend.place r.name := by
  refine (Writing.frame_iff_outside amountsRuntime (fun _ => none) regions (regionAt ["data", "us"]) 5 euAppend
    (by decide)
    noFiles fresh_euAppend).2 ⟨?_, ?_⟩
  · intro other hother hname root hroot _
    rw [regions_list] at hother
    rcases List.mem_pair.1 hother with rfl | rfl
    · obtain rfl := Option.some.inj hroot
      constructor
      · intro f hf _
        obtain rfl := List.mem_singleton.1 hf
        decide
      · intro f hf
        exact absurd hf List.not_mem_nil
    · exact absurd rfl hname
  · intro _ _ _ r _ last hlast
    obtain rfl : last = ⟨regionContract "acme/eu"⟩ := by
      rw [bound_euAppend (by decide)] at hlast
      exact List.mem_singleton.1 (List.mem_filter.1 (List.mem_of_getLast? hlast)).1
    constructor
    · intro _ f hf
      obtain rfl := List.mem_singleton.1 hf
      exact ⟨by decide, trivial⟩
    · intro _ b hb
      simp [Writing.knew, euAppend, noFiles, Tree.recorded, Tree.listFiles] at hb

end Peql
