import Mathlib.Data.List.Basic
import Peql.Facts
import Peql.Files.Dir
import Peql.Lib.Debug
import Peql.Lib.Percent
import Peql.Lib.Runs

/-!
# Whose facts a file holds

Over one location every contract keeps its facts in files named after it: a manifest beside local files or objects, and
beside an Iceberg table the facts of each snapshot and of each write. Next to the files runs a record of what was last
saved for each contract. A `/` in a name is written as `__`, so that two names may have one file; where no name in use
shares its file with a contract whose facts are saved, each contract loads what was last saved for it, and otherwise one
loads another's (`owned_iff`).
-/

namespace Peql

/-! ## Paths -/

def manifestDir : String := "_peql/manifests"

def factsDir : String := "metadata/peql"

def writesDir : String := "metadata/peql/writes"

/-- Where one contract keeps facts: the file, the object by its parts, or the location of a table's file. -/
inductive FactsPath
  | file (path : String)
  | object (parts : List String)
  | uri (path : String)
deriving DecidableEq

/-- Where the data of a location is, and the facts with it. -/
inductive Home
  | files (root : String)
  | objects (path : List String)
  | table (location : String)

/-- What facts describe: the data as it is, a snapshot, or the rows of a write. -/
inductive Slot
  | data
  | snapshot (id : Int)
  | write (id : String)
deriving DecidableEq

/-- `trim_end_matches('/')`. -/
def trimSlashes (s : String) : String := String.ofList (s.toList.reverse.dropWhile (· = '/')).reverse

/-- `object_store`'s `Path::join`: the part is encoded. -/
def joinPart (reserved : Char → Bool) (p : List String) (part : String) : List String :=
  p ++ [Percent.encode reserved part]

/-- `Manifest::path`. -/
def manifestPath (root contract : String) : String := root ++ "/" ++ manifestDir ++ "/" ++ manifestFile contract

/-- `ObjectLocation::manifest_path`. -/
def objectManifestPath (reserved : Char → Bool) (p : List String) (contract : String) : List String :=
  joinPart reserved (["_peql", "manifests"].foldl (joinPart reserved) p) (manifestFile contract)

/-- `facts_path`. -/
def snapshotFactsPath (location : String) (snapshot : Int) (contract : String) : String :=
  trimSlashes location ++ "/" ++ factsDir ++ "/" ++ toString snapshot ++ "/" ++ manifestFile contract

/-- `write_facts_path`. -/
def writeFactsPath (location write contract : String) : String :=
  trimSlashes location ++ "/" ++ writesDir ++ "/" ++ write ++ "/" ++ manifestFile contract

/-- The file of one contract's facts, where a location has facts of that kind. -/
def Home.path (reserved : Char → Bool) : Home → Slot → String → Option FactsPath
  | .files root, .data, c => some (.file (manifestPath root c))
  | .objects p, .data, c => some (.object (objectManifestPath reserved p c))
  | .table location, .snapshot s, c => some (.uri (snapshotFactsPath location s c))
  | .table location, .write w, c => some (.uri (writeFactsPath location w c))
  | _, _, _ => none

theorem encodeName_inj_of_manifestFile {a b : String} (h : manifestFile a = manifestFile b) :
    encodeName a = encodeName b :=
  (String.append_left_inj _).1 h

/-- A file's name has no `/`. -/
theorem slash_notMem_manifestFile (c : String) : '/' ∉ (manifestFile c).toList := by
  unfold manifestFile encodeName
  rw [String.toList_append, String.toList_ofList, List.mem_append, not_or]
  exact ⟨slash_notMem_encode _, by decide⟩

/-- A directory and a file of it are read off the path. -/
theorem path_inj {d d' c c' : String} (h : d ++ "/" ++ manifestFile c = d' ++ "/" ++ manifestFile c') :
    d = d' ∧ encodeName c = encodeName c' := by
  have hlist := congrArg String.toList h
  simp only [String.toList_append, List.append_assoc] at hlist
  obtain ⟨hd, hf⟩ := Debug.cut_last (slash_notMem_manifestFile c) (slash_notMem_manifestFile c') hlist
  exact ⟨String.toList_inj.1 hd, encodeName_inj_of_manifestFile (String.toList_inj.1 hf)⟩

/-- Facts of a snapshot are in no directory of a write's. -/
theorem snapshot_dir_ne_write_dir (d : String) (snapshot : Int) (write : String) :
    d ++ "/" ++ factsDir ++ "/" ++ toString snapshot ≠ d ++ "/" ++ writesDir ++ "/" ++ write := by
  intro h
  have hlist := congrArg String.toList h
  simp only [String.toList_append, List.append_assoc] at hlist
  have hwrites : writesDir.toList = factsDir.toList ++ '/' :: "writes".toList := by decide
  rw [hwrites, List.append_assoc, List.append_cancel_left_eq, List.append_cancel_left_eq,
    List.append_cancel_left_eq] at hlist
  have hcut : (toString snapshot).toList = "writes".toList ++ '/' :: write.toList := (List.cons.inj hlist).2
  exact Debug.notMem_toString rfl (by decide) snapshot (hcut ▸ List.mem_append_right _ List.mem_cons_self)

/-- Two contracts' facts of a location are in one file when they describe the same and the names have one encoding. -/
theorem Home.path_eq_iff {reserved : Char → Bool} (hpercent : reserved '%' = true) {home : Home} {s s' : Slot}
    {c c' : String} {p : FactsPath} (h : home.path reserved s c = some p) :
    home.path reserved s' c' = some p ↔ s' = s ∧ encodeName c' = encodeName c := by
  constructor
  · intro h'
    have heq : home.path reserved s' c' = home.path reserved s c := h'.trans h.symm
    cases home with
    | files root =>
      cases s <;> cases s' <;> simp only [Home.path, Option.some.injEq, reduceCtorEq, FactsPath.file.injEq] at h h' heq
      exact ⟨rfl, (path_inj heq).2⟩
    | objects parts =>
      cases s <;> cases s' <;> simp only [Home.path, Option.some.injEq, reduceCtorEq,
        FactsPath.object.injEq] at h h' heq
      unfold objectManifestPath joinPart at heq
      have hlast := List.cons.inj (List.append_cancel_left heq)
      exact ⟨rfl, encodeName_inj_of_manifestFile (Percent.encode_injective hpercent hlast.1)⟩
    | table location =>
      cases s <;> cases s' <;> simp only [Home.path, Option.some.injEq, reduceCtorEq, FactsPath.uri.injEq] at h h' heq
      · obtain ⟨hdir, hname⟩ := path_inj heq
        rw [Debug.toString_int_inj ((String.append_right_inj _).1 hdir)]
        exact ⟨rfl, hname⟩
      · exact absurd (path_inj heq).1.symm (snapshot_dir_ne_write_dir _ _ _)
      · exact absurd (path_inj heq).1 (snapshot_dir_ne_write_dir _ _ _)
      · obtain ⟨hdir, hname⟩ := path_inj heq
        rw [(String.append_right_inj _).1 hdir]
        exact ⟨rfl, hname⟩
  · rintro ⟨rfl, hname⟩
    have hfile : manifestFile c' = manifestFile c := congrArg (· ++ ".json") hname
    rw [← h]
    cases home <;> cases s' <;>
      simp only [Home.path, manifestPath, objectManifestPath, snapshotFactsPath, writeFactsPath, hfile]

/-! ## What is saved, and what is loaded -/

/-- What a facts file holds, read back as it was encoded. -/
inductive FactsDoc
  | manifest (m : Manifest)
  | write (w : WriteFacts)

/-- The contract whose facts they are. -/
def FactsDoc.contract : FactsDoc → String
  | .manifest m => m.contract
  | .write w => w.facts.contract

/-- Facts are saved where facts of their kind are: `save_facts` takes the snapshot from the facts. -/
def FactsDoc.Fits : FactsDoc → Slot → Prop
  | .manifest _, .data => True
  | .manifest m, .snapshot s => m.snapshotId = some s
  | .write _, .write _ => True
  | _, _ => False

/-- The facts files of a location, and of every contract what was last saved. -/
structure FactsFiles where
  files : Lookup FactsPath FactsDoc
  last : Lookup (Slot × String) FactsDoc

namespace FactsFiles

/-- A location before anything is saved. -/
def new : FactsFiles := ⟨Lookup.empty, Lookup.empty⟩

section Loads

variable (reserved : Char → Bool) (home : Home)

/-- The file of one contract's facts, if it is there. -/
def read (s : FactsFiles) (slot : Slot) (contract : String) : Option FactsDoc :=
  (home.path reserved slot contract).bind s.files

/-- `Manifest::load`, `load_manifest`. -/
def loadManifest (s : FactsFiles) (contract : String) : Except PeqlError (Option FactsDoc) :=
  match s.read reserved home .data contract with
  | none => .ok none
  | some (.manifest m) => .ok (some (.manifest m))
  | some (.write _) => .error (.invalid s!"manifest of `{contract}`: missing field")

/-- `load_facts`: facts that describe another snapshot are refused. -/
def loadFacts (table : String) (s : FactsFiles) (snapshot : Int) (contract : String) :
    Except PeqlError (Option FactsDoc) :=
  match s.read reserved home (.snapshot snapshot) contract with
  | none => .ok none
  | some (.manifest m) =>
    if m.snapshotId = some snapshot then .ok (some (.manifest m))
    else .error
      (.invalid (s!"the facts of `{contract}` filed under snapshot {snapshot} of {table} describe snapshot " ++
      (match m.snapshotId with | some s => s!"Some({s})" | none => "None")))
  | some (.write _) => .error (.invalid s!"facts of `{contract}` for snapshot {snapshot} of {table}: missing field")

/-- `load_write_facts`, where each snapshot the table has says the write that made it, if peQL did. -/
def loadWriteFacts (table : String) (writeIds : Lookup Int (Option String)) (s : FactsFiles) (snapshot : Int)
    (contract : String) : Except PeqlError (Option FactsDoc) :=
  match writeIds snapshot with
  | none => .error (.invalid s!"{table} has no snapshot {snapshot}")
  | some none => .ok none
  | some (some write) =>
    match s.read reserved home (.write write) contract with
    | none => .ok none
    | some (.write w) => .ok (some (.write w))
    | some (.manifest _) => .error (.invalid s!"facts of `{contract}` for write {write} of {table}: missing field")

end Loads

/-- `save`, `save_manifest`, `save_facts`, `save_write_facts`: in the file of the contract the facts name. -/
def save (s : FactsFiles) (p : FactsPath) (slot : Slot) (f : FactsDoc) : FactsFiles where
  files := s.files.insert p f
  last := s.last.insert (slot, f.contract) f

/-- `Manifest::remove`, `remove_manifest`. -/
def remove (s : FactsFiles) (p : FactsPath) (contract : String) : FactsFiles where
  files := s.files.erase p
  last := s.last.erase (.data, contract)

end FactsFiles

/-! ## Saves and removals, in any order -/

inductive FactsAction
  | saves (slot : Slot) (f : FactsDoc)
  | removes (contract : String)

section System

variable (reserved : Char → Bool) (home : Home) (names : Set String)

/-- Facts of a contract in use are saved, or its manifest is removed. -/
inductive FactsStep : FactsFiles → FactsAction → FactsFiles → Prop
  | saves (s : FactsFiles) {slot : Slot} {f : FactsDoc} {p : FactsPath} (hn : f.contract ∈ names) (hf : f.Fits slot)
      (hp : home.path reserved slot f.contract = some p) : FactsStep s (.saves slot f) (s.save p slot f)
  | removes (s : FactsFiles) {contract : String} {p : FactsPath} (hn : contract ∈ names)
      (hp : home.path reserved .data contract = some p) : FactsStep s (.removes contract) (s.remove p contract)

/-- Every contract in use loads the facts last saved for it, whichever they are, or none. -/
structure FactsFiles.Owned (s : FactsFiles) : Prop where
  manifest : ∀ c ∈ names, s.loadManifest reserved home c = .ok (s.last (.data, c))
  facts : ∀ table snapshot, ∀ c ∈ names,
    s.loadFacts reserved home table snapshot c = .ok (s.last (.snapshot snapshot, c))
  writes : ∀ table writeIds snapshot, ∀ c ∈ names, writeIds snapshot ≠ none →
    s.loadWriteFacts reserved home table writeIds snapshot c =
      .ok ((writeIds snapshot).join.bind fun w => s.last (.write w, c))

/-- Of the contracts in use only the one whose facts are saved has its facts in that file. -/
def SavesAlone : FactsFiles → FactsAction → Prop
  | _, .saves _ f => ∀ c ∈ names, encodeName c = encodeName f.contract → c = f.contract
  | _, .removes _ => True

end System

section Owned

variable {reserved : Char → Bool} {home : Home} {names : Set String}

theorem FactsStep.eq {s t t' : FactsFiles} {a : FactsAction} (h : FactsStep reserved home names s a t)
    (h' : FactsStep reserved home names s a t') : t = t' := by
  cases h with
  | saves hn hf hp =>
    cases h' with
    | saves hn' hf' hp' => rw [Option.some.inj (hp.symm.trans hp')]
  | removes hn hp =>
    cases h' with
    | removes hn' hp' => rw [Option.some.inj (hp.symm.trans hp')]

/-- Every file holds facts of its kind, and what is recorded as saved for a contract names it. -/
structure FactsFiles.Stored (reserved : Char → Bool) (home : Home) (s : FactsFiles) : Prop where
  files : ∀ slot c p f, home.path reserved slot c = some p → s.files p = some f → f.Fits slot
  last : ∀ slot c f, s.last (slot, c) = some f → f.contract = c ∧ f.Fits slot

/-- Each contract's file holds what was last saved for it. -/
def FactsFiles.Reads (reserved : Char → Bool) (home : Home) (names : Set String) (s : FactsFiles) : Prop :=
  ∀ slot, ∀ c ∈ names, s.read reserved home slot c = s.last (slot, c)

theorem stored_new : FactsFiles.new.Stored reserved home := by
  constructor
  · intro slot c p f _ h
    cases h
  · intro slot c f h
    cases h

theorem reads_new : FactsFiles.new.Reads reserved home names := by
  intro slot c _
  unfold FactsFiles.read FactsFiles.new
  cases home.path reserved slot c <;> rfl

theorem FactsFiles.Stored.fits {s : FactsFiles} (hs : s.Stored reserved home) {slot : Slot} {c : String} {f : FactsDoc}
    (h : s.read reserved home slot c = some f) : f.Fits slot := by
  obtain ⟨p, hp, hf⟩ := Option.bind_eq_some_iff.1 h
  exact hs.files slot c p f hp hf

/-- Facts of the kind asked for are what loading gives. -/
theorem FactsFiles.Stored.loadManifest {s : FactsFiles} (hs : s.Stored reserved home) (c : String) :
    s.loadManifest reserved home c = .ok (s.read reserved home .data c) := by
  unfold FactsFiles.loadManifest
  cases h : s.read reserved home .data c with
  | none => rfl
  | some f =>
    cases f with
    | manifest m => rfl
    | write w => exact absurd (hs.fits h) id

theorem FactsFiles.Stored.loadFacts {s : FactsFiles} (hs : s.Stored reserved home) (table : String) (snapshot : Int)
    (c : String) :
    s.loadFacts reserved home table snapshot c = .ok (s.read reserved home (.snapshot snapshot) c) := by
  unfold FactsFiles.loadFacts
  cases h : s.read reserved home (.snapshot snapshot) c with
  | none => rfl
  | some f =>
    cases f with
    | manifest m => exact if_pos (hs.fits h)
    | write w => exact absurd (hs.fits h) id

theorem FactsFiles.Stored.loadWriteFacts {s : FactsFiles} (hs : s.Stored reserved home) (table : String)
    {writeIds : Lookup Int (Option String)} {snapshot : Int} {write : Option String} (c : String)
    (hw : writeIds snapshot = some write) :
    s.loadWriteFacts reserved home table writeIds snapshot c =
      .ok (write.bind fun w => s.read reserved home (.write w) c) := by
  unfold FactsFiles.loadWriteFacts
  rw [hw]
  cases write with
  | none => rfl
  | some w =>
    change (match s.read reserved home (.write w) c with
      | none => _ | some (.write w) => _ | some (.manifest _) => _) = Except.ok (s.read reserved home (.write w) c)
    cases h : s.read reserved home (.write w) c with
    | none => rfl
    | some f =>
      cases f with
      | manifest m => exact absurd (hs.fits h) id
      | write _ => rfl

/-- Contracts load their own facts when their files hold them. -/
theorem FactsFiles.Stored.owned_iff_reads {s : FactsFiles} (hs : s.Stored reserved home) :
    s.Owned reserved home names ↔ s.Reads reserved home names := by
  constructor
  · intro h slot c hc
    cases slot with
    | data => exact Except.ok.inj ((hs.loadManifest c).symm.trans (h.manifest c hc))
    | snapshot n => exact Except.ok.inj ((hs.loadFacts "" n c).symm.trans (h.facts "" n c hc))
    | write w =>
      have hload := h.writes "" (fun _ => some (some w)) 0 c hc (Option.some_ne_none _)
      rw [hs.loadWriteFacts "" c rfl] at hload
      exact Except.ok.inj hload
  · intro h
    constructor
    · intro c hc
      rw [hs.loadManifest, h .data c hc]
    · intro table snapshot c hc
      rw [hs.loadFacts, h (.snapshot snapshot) c hc]
    · intro table writeIds snapshot c hc hw
      obtain ⟨write, hwrite⟩ := Option.ne_none_iff_exists'.1 hw
      rw [hs.loadWriteFacts table c hwrite, hwrite]
      congr 1
      cases write with
      | none => rfl
      | some w => exact h (.write w) c hc

/-! ### One step -/

theorem FactsFiles.Stored.save (hpercent : reserved '%' = true) {s : FactsFiles} (hs : s.Stored reserved home)
    {slot : Slot} {f : FactsDoc} {p : FactsPath} (hf : f.Fits slot)
    (hp : home.path reserved slot f.contract = some p) : (s.save p slot f).Stored reserved home := by
  constructor
  · intro slot' c q g hq hg
    by_cases hqp : q = p
    · subst hqp
      obtain rfl := Option.some.inj ((Lookup.insert_self s.files q f).symm.trans hg)
      rw [((Home.path_eq_iff hpercent hp).1 hq).1]
      exact hf
    · exact hs.files slot' c q g hq ((Lookup.insert_of_ne s.files f hqp).symm.trans hg)
  · intro slot' c g hg
    by_cases hk : (slot', c) = (slot, f.contract)
    · rw [hk] at hg
      obtain rfl := Option.some.inj ((Lookup.insert_self s.last (slot, f.contract) f).symm.trans hg)
      obtain ⟨rfl, rfl⟩ := Prod.mk.inj hk
      exact ⟨rfl, hf⟩
    · exact hs.last slot' c g ((Lookup.insert_of_ne s.last f hk).symm.trans hg)

theorem FactsFiles.Stored.remove {s : FactsFiles} (hs : s.Stored reserved home) (p : FactsPath) (contract : String) :
    (s.remove p contract).Stored reserved home := by
  constructor
  · intro slot c q g hq hg
    by_cases hqp : q = p
    · subst hqp
      exact absurd hg (by simp [FactsFiles.remove])
    · exact hs.files slot c q g hq ((Lookup.erase_of_ne s.files hqp).symm.trans hg)
  · intro slot c g hg
    by_cases hk : (slot, c) = (.data, contract)
    · rw [hk] at hg
      exact absurd hg (by simp [FactsFiles.remove])
    · exact hs.last slot c g ((Lookup.erase_of_ne s.last hk).symm.trans hg)

theorem FactsStep.stored (hpercent : reserved '%' = true) {s t : FactsFiles} {a : FactsAction}
    (hs : s.Stored reserved home) (h : FactsStep reserved home names s a t) : t.Stored reserved home := by
  cases h with
  | saves hn hf hp => exact hs.save hpercent hf hp
  | removes hn hp => exact hs.remove _ _

/-- Where facts are read after some are saved. -/
theorem FactsFiles.read_save (hpercent : reserved '%' = true) {s : FactsFiles} {slot slot' : Slot} {f : FactsDoc}
    {p : FactsPath} {c : String} (hp : home.path reserved slot f.contract = some p) :
    (s.save p slot f).read reserved home slot' c =
      if slot' = slot ∧ encodeName c = encodeName f.contract then some f else s.read reserved home slot' c := by
  unfold FactsFiles.read FactsFiles.save
  split
  · next hsame =>
    rw [(Home.path_eq_iff hpercent hp).2 hsame]
    exact Lookup.insert_self s.files p f
  · next hother =>
    cases hq : home.path reserved slot' c with
    | none => rfl
    | some q =>
      have hqp : q ≠ p := by
        rintro rfl
        exact hother ((Home.path_eq_iff hpercent hp).1 hq)
      exact Lookup.insert_of_ne s.files f hqp

theorem FactsFiles.read_remove (hpercent : reserved '%' = true) {s : FactsFiles} {slot : Slot} {contract c : String}
    {p : FactsPath} (hp : home.path reserved .data contract = some p) :
    (s.remove p contract).read reserved home slot c =
      if slot = .data ∧ encodeName c = encodeName contract then none else s.read reserved home slot c := by
  unfold FactsFiles.read FactsFiles.remove
  split
  · next hsame =>
    rw [(Home.path_eq_iff hpercent hp).2 hsame]
    exact Lookup.erase_self s.files p
  · next hother =>
    cases hq : home.path reserved slot c with
    | none => rfl
    | some q =>
      have hqp : q ≠ p := by
        rintro rfl
        exact hother ((Home.path_eq_iff hpercent hp).1 hq)
      exact Lookup.erase_of_ne s.files hqp

/-- A save leaves every contract its own facts when no other in use has the file. -/
theorem FactsFiles.Stored.reads_save_iff (hpercent : reserved '%' = true) {s : FactsFiles}
    (hs : s.Stored reserved home) (hr : s.Reads reserved home names) {slot : Slot} {f : FactsDoc} {p : FactsPath}
    (hp : home.path reserved slot f.contract = some p) :
    (s.save p slot f).Reads reserved home names ↔ SavesAlone names s (.saves slot f) := by
  constructor
  · intro h c hc hname
    by_contra hne
    -- The other contract is read what was saved for this one, and none such was ever saved for it.
    have hread := h slot c hc
    rw [FactsFiles.read_save hpercent hp, if_pos ⟨rfl, hname⟩] at hread
    have hkey : (slot, c) ≠ (slot, f.contract) := fun hk => hne (Prod.mk.inj hk).2
    have hlast : s.last (slot, c) = some f := (Lookup.insert_of_ne s.last f hkey).symm.trans hread.symm
    exact hne (hs.last slot c f hlast).1.symm
  · intro h slot' c hc
    rw [FactsFiles.read_save hpercent hp]
    split
    · next hsame =>
      obtain ⟨rfl, hname⟩ := hsame
      rw [h c hc hname]
      exact (Lookup.insert_self s.last (slot', f.contract) f).symm
    · next hother =>
      have hkey : (slot', c) ≠ (slot, f.contract) := by
        intro hk
        obtain ⟨rfl, rfl⟩ := Prod.mk.inj hk
        exact hother ⟨rfl, rfl⟩
      rw [hr slot' c hc]
      exact (Lookup.insert_of_ne s.last f hkey).symm

/-- A removal takes no other contract's facts: had another the file too, they would be its own and this one's. -/
theorem FactsFiles.Stored.reads_remove (hpercent : reserved '%' = true) {s : FactsFiles}
    (hs : s.Stored reserved home) (hr : s.Reads reserved home names) {contract : String} {p : FactsPath}
    (hn : contract ∈ names) (hp : home.path reserved .data contract = some p) :
    (s.remove p contract).Reads reserved home names := by
  intro slot c hc
  rw [FactsFiles.read_remove hpercent hp]
  by_cases hkey : (slot, c) = (.data, contract)
  · obtain ⟨rfl, rfl⟩ := Prod.mk.inj hkey
    rw [if_pos ⟨rfl, rfl⟩]
    exact (Lookup.erase_self s.last (.data, c)).symm
  · have hlast : (s.remove p contract).last (slot, c) = s.last (slot, c) := Lookup.erase_of_ne s.last hkey
    rw [hlast]
    split
    · next hsame =>
      obtain ⟨rfl, hname⟩ := hsame
      cases hf : s.last (.data, c) with
      | none => rfl
      | some f =>
        have hpath := (Home.path_eq_iff hpercent hp).2 ⟨rfl, hname⟩
        have hread : s.read reserved home .data contract = s.read reserved home .data c := by
          unfold FactsFiles.read
          rw [hp, hpath]
        have hother : s.last (.data, contract) = some f := by
          rw [← hr .data contract hn, hread, hr .data c hc, hf]
        have hown := (hs.last .data c f hf).1
        rw [← (hs.last .data contract f hother).1, hown] at hkey
        exact absurd rfl hkey
    · exact hr slot c hc

/-- A step leaves every contract its own facts when it saves none in a file another has. -/
theorem FactsStep.owned_iff_meets (hpercent : reserved '%' = true) {s t : FactsFiles} {a : FactsAction}
    (hs : s.Stored reserved home) (ho : s.Owned reserved home names) (h : FactsStep reserved home names s a t) :
    t.Owned reserved home names ↔ SavesAlone names s a := by
  have hr := hs.owned_iff_reads.1 ho
  rw [(h.stored hpercent hs).owned_iff_reads]
  cases h with
  | saves hn hf hp => exact hs.reads_save_iff hpercent hr hp
  | removes hn hp => exact ⟨fun _ => trivial, fun _ => hs.reads_remove hpercent hr hn hp⟩

/-! ### Runs -/

/-- Through a run over a location each contract in use always loads what was last saved for it exactly when all that is
saved are facts of contracts that share their file with no other in use. -/
theorem owned_iff (reserved : Char → Bool) (hpercent : reserved '%' = true) (home : Home) (names : Set String)
    {as : List FactsAction} {t : FactsFiles} (h : Runs.Run (FactsStep reserved home names) .new as t) :
    (∀ bs u, bs <+: as → Runs.Run (FactsStep reserved home names) .new bs u → u.Owned reserved home names) ↔
      Runs.Run (Runs.Guarded (SavesAlone names) (FactsStep reserved home names)) .new as t := by
  have hnew : FactsFiles.new.Owned reserved home names := stored_new.owned_iff_reads.2 reads_new
  exact (h.guarded_iff (I := fun s => s.Stored reserved home) (fun _ _ _ _ h h' => h.eq h')
    (fun _ _ _ hs h => h.stored hpercent hs)
    (fun _ _ _ hs ho h => h.owned_iff_meets hpercent hs ho) stored_new hnew).symm

end Owned

/-- What is recorded of data without files under a contract. -/
def noFilesManifest (contract : String) : Manifest :=
  ⟨contract, "h1", "c1", 0, 0, Lookup.empty, true, [], Lookup.empty, Lookup.empty, "", [], [], none⟩

def twoContracts : Set String := {"acme/eu", "acme/us"}

/-- Neither has the other's file. -/
theorem saves_two (s : FactsFiles) {c : String} (hc : c ∈ twoContracts) :
    Runs.Guarded (SavesAlone twoContracts) (FactsStep (· == '%') (.files "data") twoContracts) s
      (.saves .data (.manifest (noFilesManifest c)))
      (s.save (.file (manifestPath "data" c)) .data (.manifest (noFilesManifest c))) := by
  refine ⟨fun c' hc' heq => ?_, .saves s hc trivial rfl⟩
  change encodeName c' = encodeName c at heq
  show c' = c
  rcases hc with rfl | rfl <;> rcases hc' with rfl | rfl
  · rfl
  · exact absurd heq (by decide)
  · exact absurd heq (by decide)
  · rfl

/-- Two contracts over local files: each keeps its manifest, until that of one is removed. -/
theorem two_owned :
    ∃ t, Runs.Run (FactsStep (· == '%') (.files "data") twoContracts) .new
        [.saves .data (.manifest (noFilesManifest "acme/eu")), .saves .data (.manifest (noFilesManifest "acme/us")),
          .removes "acme/eu"] t ∧
      t.last (.data, "acme/eu") = none ∧
        t.last (.data, "acme/us") = some (.manifest (noFilesManifest "acme/us")) ∧
          t.Owned (· == '%') (.files "data") twoContracts := by
  have heu : "acme/eu" ∈ twoContracts := .inl rfl
  have hus : "acme/us" ∈ twoContracts := .inr rfl
  have hremove : ∀ s, FactsStep (· == '%') (.files "data") twoContracts s (.removes "acme/eu")
      (s.remove (.file (manifestPath "data" "acme/eu")) "acme/eu") := fun s => .removes s heu rfl
  have hrun := Runs.Run.cons (saves_two .new heu).2 (.cons (saves_two _ hus).2 (.cons (hremove _) (.nil _)))
  refine ⟨_, hrun, rfl, rfl, (owned_iff (· == '%') rfl (.files "data") twoContracts hrun).2 ?_ _ _ List.prefix_rfl hrun⟩
  exact .cons (saves_two _ heu) (.cons (saves_two _ hus) (.cons ⟨trivial, hremove _⟩ (.nil _)))

/-- The manifest of `acme/eu` is loaded as that of `acme__eu`, for which none was ever saved. -/
theorem other_name_loads_it :
    ∃ t, Runs.Run (FactsStep (· == '%') (.files "data") Set.univ) .new
        [.saves .data (.manifest (noFilesManifest "acme/eu"))] t ∧
      t.last (.data, "acme__eu") = none ∧
        t.loadManifest (· == '%') (.files "data") "acme__eu" = .ok (some (.manifest (noFilesManifest "acme/eu"))) ∧
          ¬ t.Owned (· == '%') (.files "data") Set.univ := by
  have hload : (FactsFiles.new.save (.file (manifestPath "data" "acme/eu")) .data
      (.manifest (noFilesManifest "acme/eu"))).loadManifest (· == '%') (.files "data") "acme__eu" =
        .ok (some (.manifest (noFilesManifest "acme/eu"))) := rfl
  refine ⟨_, .cons (.saves _ trivial trivial rfl) (.nil _), rfl, hload, fun howned => ?_⟩
  have hnone := hload.symm.trans (howned.manifest "acme__eu" trivial)
  cases hnone

end Peql
