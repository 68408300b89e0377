import Mathlib.Data.List.AList
import Mathlib.Data.List.Sort
import Peql.Error
import Peql.Store

/-!
# The contract store on disk

`DirStore`: the maps in memory, and under `_peql/contracts` a directory for each contract, named after it, that holds a
bundle for each version and the audiences the contract is published to. Opening reads every bundle that loads into
memory and sets the others aside. What a file holds is given as what reading it finds.
-/

namespace Peql

/-! ## Names and directories -/

/-- `name.replace('/', "__")`. -/
def encodeName (name : String) : String :=
  String.ofList (name.toList.flatMap fun c => if c = '/' then ['_', '_'] else [c])

/-- `replace("__", "/")`, from the left. -/
def decodeChars : List Char → List Char
  | [] => []
  | [c] => [c]
  | a :: b :: cs => if a = '_' ∧ b = '_' then '/' :: decodeChars cs else a :: decodeChars (b :: cs)

/-- `decode`. -/
def decodeName (d : String) : String := String.ofList (decodeChars d.toList)

/-- Where a contract's directory is: among the directories opening reads, or at them, or above them. -/
inductive Place
  | child (d : String)
  | here
  | above
  deriving DecidableEq

/-- `contract_dir`. Joining nothing, or `.`, to a path leads where the path leads. -/
def contractDir (name : String) : Place :=
  let d := encodeName name
  if d = "" ∨ d = "." then .here
  else if d = ".." then .above
  else .child d

/-- No `/` is left. -/
theorem slash_notMem_encode (cs : List Char) : '/' ∉ cs.flatMap fun c => if c = '/' then ['_', '_'] else [c] := by
  intro h
  obtain ⟨c, _, hc⟩ := List.mem_flatMap.1 h
  split at hc
  · simp at hc
  · next hne => exact hne (List.mem_singleton.1 hc).symm

/-- Encoding undoes decoding, where no `/` is in the way. -/
theorem encode_decodeChars {cs : List Char} (h : '/' ∉ cs) :
    ((decodeChars cs).flatMap fun c => if c = '/' then ['_', '_'] else [c]) = cs := by
  induction cs using decodeChars.induct with
  | case1 => rfl
  | case2 c =>
    have hc : c ≠ '/' := fun hc => h (hc ▸ List.mem_cons_self)
    simp [decodeChars, hc]
  | case3 a b cs hab ih =>
    obtain ⟨rfl, rfl⟩ := hab
    have hcs : '/' ∉ cs := fun hcs => h (List.mem_cons_of_mem _ (List.mem_cons_of_mem _ hcs))
    rw [decodeChars, if_pos ⟨rfl, rfl⟩, List.flatMap_cons, ih hcs]
    rfl
  | case4 a b cs hab ih =>
    have ha : a ≠ '/' := fun ha => h (ha ▸ List.mem_cons_self)
    have hcs : '/' ∉ b :: cs := fun hcs => h (List.mem_cons_of_mem _ hcs)
    rw [decodeChars, if_neg hab, List.flatMap_cons, ih hcs, if_neg ha]
    rfl

/-- A directory that is a contract's is the directory of the contract it is read as. -/
theorem encode_decode_encode (name : String) : encodeName (decodeName (encodeName name)) = encodeName name := by
  unfold decodeName encodeName
  simp only [String.toList_ofList]
  rw [encode_decodeChars (slash_notMem_encode _)]

theorem contractDir_child {name d : String} (h : contractDir name = .child d) : d = encodeName name := by
  unfold contractDir at h
  simp only at h
  split at h
  · cases h
  split at h
  · cases h
  · exact (Place.child.inj h).symm

theorem contractDir_congr {name name' : String} (h : encodeName name = encodeName name') :
    contractDir name = contractDir name' := by
  unfold contractDir
  rw [h]

/-- The contract a directory is read as has it for its directory. -/
theorem contractDir_decode {name d : String} (h : contractDir name = .child d) :
    contractDir (decodeName d) = .child d := by
  rw [← h]
  apply contractDir_congr
  rw [contractDir_child h]
  exact encode_decode_encode name

/-! ## The files -/

/-- A bundle file, as `load` finds it. -/
inductive Bundle
  | loads (r : Registered)
  | spoiled (cause : String)

/-- `published.json`, as reading it finds it: half of a file is an error. -/
inductive AudienceFile
  | names (audiences : List String)
  | torn (e : PeqlError)

/-- A contract's directory: `v<version>.peql.json` under each version, and `published.json`. -/
structure ContractDir where
  bundles : AList fun _ : Nat => Bundle
  audiences : Option AudienceFile

/-- A directory with nothing in it is as one that is not there. -/
def ContractDir.empty : ContractDir := ⟨∅, none⟩

/-- The directories of contracts. -/
abbrev ContractDirs := AList fun _ : Place => ContractDir

namespace ContractDirs

def dirAt (k : ContractDirs) (p : Place) : ContractDir := (k.lookup p).getD .empty

def bundle (k : ContractDirs) (p : Place) (version : Nat) : Option Bundle := (k.dirAt p).bundles.lookup version

def audiences (k : ContractDirs) (p : Place) : Option AudienceFile := (k.dirAt p).audiences

def putBundle (k : ContractDirs) (p : Place) (version : Nat) (b : Bundle) : ContractDirs :=
  k.insert p { k.dirAt p with bundles := (k.dirAt p).bundles.insert version b }

def putAudiences (k : ContractDirs) (p : Place) (f : AudienceFile) : ContractDirs :=
  k.insert p { k.dirAt p with audiences := some f }

/-- What `read_dir` lists, in some order: the directories beside one another, not those elsewhere. -/
def children (k : ContractDirs) : List (String × ContractDir) :=
  k.entries.filterMap fun e => match e.1 with | .child d => some (d, e.2) | _ => none

theorem dirAt_insert (k : ContractDirs) (p q : Place) (c : ContractDir) :
    dirAt (k.insert p c) q = if q = p then c else k.dirAt q := by
  unfold dirAt
  split
  · next h => rw [h, AList.lookup_insert]; rfl
  · next h => rw [AList.lookup_insert_ne h]

theorem bundle_putBundle (k : ContractDirs) (p q : Place) (v w : Nat) (b : Bundle) :
    (k.putBundle p v b).bundle q w = if q = p ∧ w = v then some b else k.bundle q w := by
  unfold bundle putBundle
  rw [dirAt_insert]
  by_cases hq : q = p
  · by_cases hw : w = v
    · subst hq hw
      simp [AList.lookup_insert]
    · simp [hq, hw, AList.lookup_insert_ne hw]
  · simp [hq]

@[simp] theorem audiences_putBundle (k : ContractDirs) (p q : Place) (v : Nat) (b : Bundle) :
    (k.putBundle p v b).audiences q = k.audiences q := by
  unfold audiences putBundle
  rw [dirAt_insert]
  split
  · next h => rw [h]
  · rfl

theorem audiences_putAudiences (k : ContractDirs) (p q : Place) (f : AudienceFile) :
    (k.putAudiences p f).audiences q = if q = p then some f else k.audiences q := by
  unfold audiences putAudiences
  rw [dirAt_insert]
  split <;> rfl

@[simp] theorem bundle_putAudiences (k : ContractDirs) (p q : Place) (v : Nat) (f : AudienceFile) :
    (k.putAudiences p f).bundle q v = k.bundle q v := by
  unfold bundle putAudiences
  rw [dirAt_insert]
  split
  · next h => rw [h]
  · rfl

theorem mem_children {k : ContractDirs} {d : String} {c : ContractDir} :
    (d, c) ∈ k.children ↔ k.lookup (.child d) = some c := by
  unfold children
  rw [List.mem_filterMap]
  constructor
  · rintro ⟨⟨p, c'⟩, he, heq⟩
    cases p with
    | child d' =>
      obtain ⟨rfl, rfl⟩ := Prod.mk.inj (Option.some.inj heq)
      exact AList.mem_lookup_iff.2 he
    | here => cases heq
    | above => cases heq
  · intro h
    exact ⟨⟨.child d, c⟩, AList.mem_lookup_iff.1 h, rfl⟩

end ContractDirs

/-! ## The store -/

/-- A stored contract that did not load. -/
structure Stale where
  path : Place × Nat
  name : String
  version : Option Nat
  cause : String

/-- `DirStore`, with what is under its directory. -/
structure DirStore where
  disk : ContractDirs
  memory : Contents
  stale : List Stale

/-- One bundle file is read. -/
def readBundle (d : String) (s : DirStore) (version : Nat) : Bundle → DirStore
  | .loads r => { s with memory := s.memory.put r }
  | .spoiled cause => { s with stale := s.stale ++ [⟨(.child d, version), decodeName d, some version, cause⟩] }

/-- The bundle files of a directory, by their names. -/
def ContractDir.files (c : ContractDir) : List (Σ _ : Nat, Bundle) :=
  c.bundles.entries.insertionSort fun a b => a.1 ≤ b.1

/-- `published.json` is read, if it is there. -/
def readAudiences (d : String) (s : DirStore) : Option AudienceFile → Except PeqlError DirStore
  | none => .ok s
  | some (.torn e) => .error e
  | some (.names l) => .ok { s with memory := l.foldl (fun m a => m.publish (decodeName d) a) s.memory }

/-- One directory is read. -/
def readDir (s : DirStore) (entry : String × ContractDir) : Except PeqlError DirStore :=
  readAudiences entry.1 (entry.2.files.foldl (fun s f => readBundle entry.1 s f.1 f.2) s) entry.2.audiences

/-- `DirStore::open`, where `read_dir` lists the directories as `listed`. -/
def openStore (disk : ContractDirs) (listed : List (String × ContractDir)) : Except PeqlError DirStore :=
  listed.foldlM readDir ⟨disk, .empty, []⟩

/-- How writing `published.json` went: the file is not touched before it is opened, and holds half after it is. -/
inductive Save
  | done
  | kept (e : PeqlError)
  | torn (e cause : PeqlError)

namespace DirStore

/-- A store opened over a new directory. -/
def new : DirStore := ⟨∅, .empty, []⟩

/-- The current (latest registered) version. -/
def current (s : DirStore) (name : String) : Option Registered := s.memory.current name

/-- `put`: it fails before the bundle is renamed into place, or not at all. -/
def put (s : DirStore) (r : Registered) : Option PeqlError → DirStore × Except PeqlError Unit
  | some e => (s, .error e)
  | none =>
    let path := (contractDir r.name, r.version)
    ({ disk := s.disk.putBundle path.1 path.2 (.loads r)
       memory := s.memory.put r
       stale := s.stale.filter fun x => x.path ≠ path }, .ok ())

/-- `save_audiences`. -/
def saveAudiences (s : DirStore) (name : String) : Save → DirStore × Except PeqlError Unit
  | .done => ({ s with disk := s.disk.putAudiences (contractDir name) (.names (s.memory.audiences name)) }, .ok ())
  | .kept e => (s, .error e)
  | .torn e cause => ({ s with disk := s.disk.putAudiences (contractDir name) (.torn cause) }, .error e)

/-- In memory first, and then on disk. -/
def publish (s : DirStore) (name audience : String) (save : Save) : DirStore × Except PeqlError Unit :=
  { s with memory := s.memory.publish name audience }.saveAudiences name save

/-- In memory first, and then on disk. -/
def unpublish (s : DirStore) (name audience : String) (save : Save) : DirStore × Except PeqlError Unit :=
  { s with memory := s.memory.unpublish name audience }.saveAudiences name save

end DirStore

/-! ## Calls of a store, one after another -/

/-- A call of a store, with how its writes went; or another process opens the store in its place. -/
inductive DirAction
  | puts (r : Registered) (fault : Option PeqlError)
  | publishes (name audience : String) (save : Save)
  | unpublishes (name audience : String) (save : Save)
  | reopens (listed : List (String × ContractDir))

inductive DirStep : DirStore → DirAction → DirStore → Prop
  | puts (s : DirStore) (r : Registered) (fault : Option PeqlError) : DirStep s (.puts r fault) (s.put r fault).1
  | publishes (s : DirStore) (name audience : String) (save : Save) :
      DirStep s (.publishes name audience save) (s.publish name audience save).1
  | unpublishes (s : DirStore) (name audience : String) (save : Save) :
      DirStep s (.unpublishes name audience save) (s.unpublish name audience save).1
  | reopens {s t : DirStore} {listed : List (String × ContractDir)} (hl : listed.Perm s.disk.children)
      (ho : openStore s.disk listed = .ok t) : DirStep s (.reopens listed) t

/-- A call leads to one state. -/
theorem DirStep.eq {s t t' : DirStore} {a : DirAction} (h : DirStep s a t) (h' : DirStep s a t') : t = t' := by
  cases h with
  | puts r fault => cases h'; rfl
  | publishes name audience save => cases h'; rfl
  | unpublishes name audience save => cases h'; rfl
  | reopens hl ho =>
    cases h' with
    | reopens hl' ho' => exact Except.ok.inj (ho.symm.trans ho')

end Peql
