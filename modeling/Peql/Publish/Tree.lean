import Peql.Engine.Facts
import Peql.Manifest.Owned

/-!
# Files by their paths

Bindings name directories of one file system and prefixes of object stores, and one may be inside another. A `Tree` is
every data file and every recorded manifest by where it is. A binding lists the files below its root, skipping `_peql/`
(`binding::list_files`, `ObjectLocation::list_files`), and what is listed changes only with a file its root covers.
-/

namespace Peql

/-- The local file system, or an object store. -/
inductive Backend
  | localFiles
  | object (url : String)
deriving DecidableEq

/-- Where a file, a directory or a prefix is: two locations are one exactly when their keys are. -/
structure Address where
  backend : Backend
  path : List String
deriving DecidableEq

namespace Address

/-- A path below this one. -/
def join (a : Address) (path : List String) : Address := { a with path := a.path ++ path }

/-- `MANIFEST_DIR`, and a contract's manifest in it. -/
def manifestAt (root : Address) (file : String) : Address := root.join ["_peql", "manifests", file]

/-- Below a directory or a prefix, at the path it gives. -/
def below (root a : Address) : Option (List String) :=
  if a.backend = root.backend ∧ root.path <+: a.path ∧ a.path ≠ root.path then some (a.path.drop root.path.length)
  else none

/-- The part of a name after its last dot. -/
def extension (path : List String) : Option String :=
  match path.getLast? with
  | none => none
  | some name =>
    match (name.splitOn ".").reverse with
    | ext :: _ :: _ => some ext
    | _ => none

/-- Whether a binding at this root lists a data file at `a`. The walk of a directory skips those named `_peql`; the list
of a prefix skips every path that has a part so named, and a prefix that is the name of one file lists that file. -/
def covers (root a : Address) : Bool :=
  match root.backend with
  | .localFiles =>
    a = root || (match root.below a with
      | some path => "_peql" ∉ path.dropLast
      | none => false)
  | .object _ =>
    if extension root.path = some "parquet" then a = root
    else (root.below a).isSome && "_peql" ∉ a.path

theorem below_join (root : Address) {path : List String} (h : path ≠ []) : root.below (root.join path) = some path := by
  unfold below join
  have hne : root.path ++ path ≠ root.path := by
    intro heq
    exact h (List.append_cancel_left (heq.trans (List.append_nil _).symm))
  rw [if_pos ⟨rfl, List.prefix_append _ _, hne⟩]
  simp

theorem join_injective (root : Address) {p q : List String} (h : root.join p = root.join q) : p = q := by
  unfold join at h
  exact List.append_cancel_left (Address.mk.inj h).2

/-- Manifests are kept apart by their roots and their files. -/
theorem manifestAt_inj {root root' : Address} {file file' : String}
    (h : root.manifestAt file = root'.manifestAt file') : root = root' ∧ file = file' := by
  unfold manifestAt join at h
  obtain ⟨hb, hp⟩ := Address.mk.inj h
  have hlen : root.path.length = root'.path.length := by
    have hl := congrArg List.length hp
    simpa using hl
  obtain ⟨hpath, hrest⟩ := List.append_inj hp hlen
  obtain ⟨b, p⟩ := root
  obtain ⟨b', p'⟩ := root'
  refine ⟨?_, by simpa using hrest⟩
  simp only at hb hpath
  rw [hb, hpath]

end Address

/-- A data file under a name of its own. -/
def StoredFile.named (f : StoredFile) (path : String) : StoredFile :=
  { f with entry := { f.entry with path := path } }

/-- Paths as entries and data hashes name files. -/
def relativePath (path : List String) : String := "/".intercalate path

/-- Where a directory or a prefix keeps facts. -/
def Address.home (root : Address) : Home :=
  match root.backend with
  | .localFiles => .files (relativePath root.path)
  | .object _ => .objects root.path

/-- A tree has one manifest of two contracts exactly when they have one file, or one object. -/
theorem Address.manifestAt_eq_iff {reserved : Char → Bool} (hpercent : reserved '%' = true) (root : Address)
    (a b : String) : root.manifestAt (manifestFile a) = root.manifestAt (manifestFile b) ↔
      root.home.path reserved .data a = root.home.path reserved .data b := by
  have hpath : ∃ p, root.home.path reserved .data b = some p := by
    unfold home
    cases root.backend <;> exact ⟨_, rfl⟩
  obtain ⟨p, hp⟩ := hpath
  rw [hp, Home.path_eq_iff hpercent hp]
  constructor
  · intro h
    exact ⟨rfl, encodeName_inj_of_manifestFile (manifestAt_inj h).2⟩
  · rintro ⟨_, hname⟩
    unfold manifestFile
    rw [hname]

/-- The name of a listed file under its root; a root that is a file has it for its own. -/
def Address.nameUnder (root a : Address) : String :=
  match root.below a, root.backend with
  | some path, _ => relativePath path
  | none, .localFiles => ""
  | none, .object _ => a.path.getLastD ""

/-- What a manifest file holds after a contract's facts are recorded, or removed. -/
def Recorded.ofOption {α : Type} : Option α → Recorded α
  | some a => .facts a
  | none => .absent

/-- Every data file, and what is recorded in every manifest file. -/
structure Tree where
  files : List (Address × StoredFile)
  manifests : Address → Recorded Manifest

/-- Files in the order of their paths. -/
def addressLe (a b : Address × StoredFile) : Bool := a.1.path ≤ b.1.path

namespace Tree

/-- `list_files`. -/
def listFiles (t : Tree) (root : Address) : List (Address × StoredFile) :=
  (t.files.filter fun f => root.covers f.1).mergeSort addressLe

/-- The files of a binding by their names under it, and the manifests beside them. -/
def dirAt (t : Tree) (root : Address) : Dir StoredFile where
  files := (t.listFiles root).map fun f => f.2.named (root.nameUnder f.1)
  manifests file := t.manifests (root.manifestAt file)

/-- A file is deleted. -/
def delete (t : Tree) (a : Address) : Tree := { t with files := t.files.filter fun f => f.1 ≠ a }

/-- A file is moved to a place, over what was there. -/
def put (t : Tree) (f : Address × StoredFile) : Tree :=
  { t with files := (t.files.filter fun g => g.1 ≠ f.1) ++ [f] }

/-- What is recorded of a contract's data. -/
def recorded (t : Tree) (root : Address) (contract : String) : Recorded Manifest :=
  t.manifests (root.manifestAt (manifestFile contract))

/-- A contract's manifest is written, under the name it says, or removed. -/
def record (t : Tree) (root : Address) (contract : String) (after : Option Manifest) : Tree :=
  let name := match after with
    | some m => m.contract
    | none => contract
  { t with manifests := Function.update t.manifests (root.manifestAt (manifestFile name)) (.ofOption after) }

/-! ## What changes with what -/

variable {t : Tree} {root : Address}

theorem mem_listFiles {f : Address × StoredFile} : f ∈ t.listFiles root ↔ f ∈ t.files ∧ root.covers f.1 = true := by
  unfold listFiles
  rw [List.mem_mergeSort, List.mem_filter]

/-- What a root covers of the files is all its list says. -/
theorem listFiles_congr {t' : Tree}
    (h : (t'.files.filter fun f => root.covers f.1) = t.files.filter fun f => root.covers f.1) :
    t'.listFiles root = t.listFiles root := by
  unfold listFiles
  rw [h]

@[simp] theorem files_record (t : Tree) (root : Address) (contract : String) (after : Option Manifest) :
    (t.record root contract after).files = t.files := rfl

@[simp] theorem listFiles_record (t : Tree) (root root' : Address) (contract : String) (after : Option Manifest) :
    (t.record root contract after).listFiles root' = t.listFiles root' := rfl

@[simp] theorem manifests_delete (t : Tree) (a : Address) : (t.delete a).manifests = t.manifests := rfl

@[simp] theorem manifests_put (t : Tree) (f : Address × StoredFile) : (t.put f).manifests = t.manifests := rfl

/-- Records at one root leave those at another. -/
theorem recorded_record_of_ne {root' : Address} (h : root' ≠ root) (contract contract' : String)
    (after : Option Manifest) :
    (t.record root contract after).recorded root' contract' = t.recorded root' contract' :=
  Function.update_of_ne (fun heq => h (Address.manifestAt_inj heq).1) _ _

/-- A contract's record is of what the write left of it, and of no contract kept in another file. -/
theorem recorded_record {contract contract' : String} {after : Option Manifest}
    (hname : ∀ m, after = some m → m.contract = contract) :
    (t.record root contract after).recorded root contract' =
      if manifestFile contract' = manifestFile contract then .ofOption after else t.recorded root contract' := by
  have hinj : ∀ file, root.manifestAt (manifestFile contract') = root.manifestAt file ↔ manifestFile contract' = file :=
    fun file => ⟨fun heq => (Address.manifestAt_inj heq).2, fun heq => by rw [heq]⟩
  unfold recorded record
  cases after with
  | some m =>
    dsimp only
    rw [hname m rfl, Function.update_apply]
    simp only [hinj]
  | none =>
    dsimp only
    rw [Function.update_apply]
    simp only [hinj]

end Tree

end Peql
