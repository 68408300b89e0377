import Peql.Facts.Fold
import Peql.Lib.Percent
import Peql.Manifest.Owned
import Peql.Publish.Tree

/-!
# A write's files, uploaded

A write stages its files in a local directory, by hive paths whose segments are encoded already.
`ObjectLocation::upload` puts each under the prefix at its path, through `Path::join`, which encodes every segment
once more. What is listed afterwards has the staged names when no segment has a character left to encode, no object
has such a name before, and the prefix is none of `_peql`'s; otherwise it does not (`upload_keeps_iff`).
-/

namespace Peql

/-! ## Names -/

/-- `rsplit_once('.')`: what is before the last dot, and after it. -/
def rsplitDot (name : String) : Option (String × String) :=
  match name.toList.reverse.dropWhile (· ≠ '.') with
  | [] => none
  | _ :: stem =>
    some (String.ofList stem.reverse, String.ofList (name.toList.reverse.takeWhile (· ≠ '.')).reverse)

/-- `std::path::Path::extension`: a name that begins with its only dot has none. -/
def fileExtension (name : String) : Option String :=
  match rsplitDot name with
  | some (stem, ext) => if stem = "" then none else some ext
  | none => none

/-- `object_store`'s `Path::extension`: a name that ends with a dot has none. -/
def objectExtension (name : String) : Option String :=
  match rsplitDot name with
  | some (_, ext) => if ext = "" then none else some ext
  | none => none

/-- A part of a path, as a directory or an object store has it. -/
def PlainPart (part : String) : Prop := '/' ∉ part.toList

/-- A Parquet file's name is an object's with that extension. -/
theorem objectExtension_of_file {name : String} (h : fileExtension name = some "parquet") :
    objectExtension name = some "parquet" := by
  unfold fileExtension at h
  unfold objectExtension
  cases hr : rsplitDot name with
  | none =>
    rw [hr] at h
    cases h
  | some parts =>
    rw [hr] at h
    simp only at h ⊢
    split at h
    · cases h
    · rw [Option.some.inj h]
      exact if_neg (by decide)

theorem toList_relativePath (parts : List String) :
    (relativePath parts).toList = ['/'].intercalate (parts.map String.toList) :=
  String.toList_intercalate

/-- A name has the characters of its parts. -/
theorem mem_relativePath {parts : List String} {part : String} {c : Char} (hp : part ∈ parts) (hc : c ∈ part.toList) :
    c ∈ (relativePath parts).toList := by
  rw [toList_relativePath]
  induction parts with
  | nil => cases hp
  | cons first parts ih =>
    cases parts with
    | nil =>
      obtain rfl := List.mem_singleton.1 hp
      simpa using hc
    | cons next parts =>
      simp only [List.map_cons, List.intercalate_cons_cons, List.mem_append] at ih ⊢
      rcases List.mem_cons.1 hp with rfl | hp
      · exact .inl (.inl hc)
      · exact .inr (ih hp)

/-- A name is of one path. -/
theorem relativePath_inj {ps qs : List String} (hp : ps ≠ []) (hq : qs ≠ []) (hps : ∀ p ∈ ps, PlainPart p)
    (hqs : ∀ q ∈ qs, PlainPart q) (h : relativePath ps = relativePath qs) : ps = qs := by
  have hlist := congrArg (fun s : String => s.toList.splitOn '/') h
  simp only [toList_relativePath] at hlist
  have hsplit : ∀ {rs : List String}, rs ≠ [] → (∀ r ∈ rs, PlainPart r) →
      (['/'].intercalate (rs.map String.toList)).splitOn '/' = rs.map String.toList := by
    intro rs hr hrs
    refine List.splitOn_intercalate _ (fun l hl => ?_) (by simpa using hr)
    obtain ⟨r, hmem, rfl⟩ := List.mem_map.1 hl
    exact hrs r hmem
  rw [hsplit hp hps, hsplit hq hqs] at hlist
  exact List.map_injective_iff.2 (fun _ _ => String.toList_inj.1) hlist

/-! ## The staged files, and the objects -/

/-- A Parquet file, as its footer and its bytes are read. -/
structure ParquetFile where
  rows : Int
  bytes : Nat
  contractHash : String
  flags : Lookup String FlagStatus
  nullCounts : Lookup String Int
  sha256 : String

/-- `entry_from_footer`. -/
def entryFromFooter (relative : String) (f : ParquetFile) (flagColumns : List String) : FileEntry :=
  ⟨relative, f.rows, f.bytes, f.contractHash, fun c => if c ∈ flagColumns then f.flags c else none,
    f.nullCounts, f.sha256⟩

/-- The files below a staged directory, by the components of their paths. -/
structure Staged where
  files : List (List String × ParquetFile)
  nodup : (files.map Prod.fst).Nodup
  nonempty : ∀ f ∈ files, f.1 ≠ []
  plain : ∀ f ∈ files, ∀ part ∈ f.1, PlainPart part

namespace Staged

/-- The walk skips directories named `_peql`. -/
def walked (f : List String × ParquetFile) : Bool :=
  "_peql" ∉ f.1.dropLast && fileExtension (f.1.getLastD "") == some "parquet"

/-- `binding::list_files`. -/
def listFiles (d : Staged) : List (List String × ParquetFile) :=
  (d.files.filter walked).mergeSort fun a b => a.1 ≤ b.1

/-- `binding::file_entry` of each, as `write_facts` records them. -/
def entries (d : Staged) (flagColumns : List String) : List FileEntry :=
  d.listFiles.map fun f => entryFromFooter (relativePath f.1) f.2 flagColumns

end Staged

/-- The objects of a store, by the parts of their paths. -/
abbrev Objects := AList fun _ : List String => ParquetFile

section Location

variable (reserved : Char → Bool) (path : List String)

/-- `is_single_file`. -/
def isSingleFile : Bool := objectExtension (path.getLastD "") == some "parquet"

/-- `ObjectLocation::relative`. -/
def relativeName (file : List String) : String :=
  if path <+: file ∧ isSingleFile path = false then relativePath (file.drop path.length) else file.getLastD ""

/-- What a list of the prefix keeps: Parquet objects below it, of whose path no part is `_peql`. -/
def keeps (file : List String) : Bool :=
  path <+: file && path != file && objectExtension (file.getLastD "") == some "parquet" && file.all (· != "_peql")

/-- `ObjectLocation::list_files`. -/
def Objects.listFiles (s : Objects) : List (Sigma fun _ : List String => ParquetFile) :=
  if isSingleFile path then
    match s.lookup path with
    | some f => [⟨path, f⟩]
    | none => []
  else (s.entries.filter fun o => keeps path o.1).mergeSort fun a b => relativePath a.1 ≤ relativePath b.1

/-- `ObjectLocation::file_entries` of what is listed, as a validation records them. -/
def Objects.fileEntries (s : Objects) (flagColumns : List String) : List FileEntry :=
  (s.listFiles path).map fun o => entryFromFooter (relativeName path o.1) o.2 flagColumns

/-- Where `upload` puts a file of this name. -/
def uploadPath (name : String) : List String :=
  ((name.toList.splitOn '/').map String.ofList).foldl (joinPart reserved) path

/-- `ObjectLocation::upload`. -/
def upload (staged : Staged) (s : Objects) : Objects :=
  staged.listFiles.foldl (fun s f => s.insert (uploadPath reserved path (relativePath f.1)) f.2) s

/-- The listing gains the staged files under their names, each with the partition values a reader takes from it, so that
the entries and the hash a write records are those of a validation. -/
structure UploadKeeps (staged : Staged) (s : Objects) : Prop where
  listed : (((upload reserved path staged s).listFiles path).map fun o => (relativeName path o.1, o.2)).Perm
    (((s.listFiles path).map fun o => (relativeName path o.1, o.2)) ++
      staged.listFiles.map fun f => (relativePath f.1, f.2))
  values : ∀ values : String → List String,
    (((upload reserved path staged s).listFiles path).map fun o => (values (relativeName path o.1), o.2)).Perm
      (((s.listFiles path).map fun o => (values (relativeName path o.1), o.2)) ++
        staged.listFiles.map fun f => (values (relativePath f.1), f.2))
  entries : ∀ flagColumns, ((upload reserved path staged s).fileEntries path flagColumns).Perm
    (s.fileEntries path flagColumns ++ staged.entries flagColumns)
  dataHash : ∀ sha256 flagColumns, dataHash sha256 ((upload reserved path staged s).fileEntries path flagColumns) =
    dataHash sha256 (s.fileEntries path flagColumns ++ staged.entries flagColumns)

/-- Nothing is staged; or the prefix is none of `_peql`'s, no staged name has a character left to encode but the
separators, and no object has such a name. -/
def UploadPlain (staged : Staged) (s : Objects) : Prop :=
  staged.listFiles = [] ∨ "_peql" ∉ path ∧
    (∀ f ∈ staged.listFiles, ∀ c ∈ (relativePath f.1).toList, c ≠ '/' → reserved c = false) ∧
    ∀ f ∈ staged.listFiles, relativePath f.1 ∉ (s.listFiles path).map fun o => relativeName path o.1

end Location

/-! ## Paths -/

section Upload

variable {reserved : Char → Bool} {path : List String}

/-- Joining parts encodes each. -/
theorem foldl_joinPart (parts : List String) (p : List String) :
    parts.foldl (joinPart reserved) p = p ++ parts.map (Percent.encode reserved) := by
  induction parts generalizing p with
  | nil => simp
  | cons part parts ih =>
    rw [List.foldl_cons, ih]
    simp [joinPart]

/-- A staged file goes under the prefix, each part encoded. -/
theorem uploadPath_relativePath {parts : List String} (hne : parts ≠ []) (h : ∀ part ∈ parts, PlainPart part) :
    uploadPath reserved path (relativePath parts) = path ++ parts.map (Percent.encode reserved) := by
  have hsplit : (['/'].intercalate (parts.map String.toList)).splitOn '/' = parts.map String.toList := by
    refine List.splitOn_intercalate _ (fun l hl => ?_) (by simpa using hne)
    obtain ⟨part, hmem, rfl⟩ := List.mem_map.1 hl
    exact h part hmem
  unfold uploadPath
  rw [toList_relativePath, hsplit, foldl_joinPart]
  simp [Function.comp_def]

/-- An encoded part is one part. -/
theorem plainPart_encode {part : String} (h : PlainPart part) : PlainPart (Percent.encode reserved part) := by
  unfold PlainPart
  rw [Percent.toList_encode]
  exact Percent.notMem_encodeChars (by decide) (by decide) h

/-- Encoding the parts is encoding the name, but for its separators. -/
theorem toList_relativePath_encode (reserved : Char → Bool) {parts : List String} (h : ∀ part ∈ parts, PlainPart part) :
    (relativePath (parts.map (Percent.encode reserved))).toList =
      Percent.encodeChars (fun c => reserved c && c != '/') (relativePath parts).toList := by
  have hone : ∀ part ∈ parts, (Percent.encode reserved part).toList =
      Percent.encodeChars (fun c => reserved c && c != '/') part.toList := by
    intro part hp
    rw [Percent.toList_encode]
    refine Percent.encodeChars_congr fun c hc => ?_
    have hslash : c ≠ '/' := fun heq => h part hp (heq ▸ hc)
    simp [hslash]
  rw [toList_relativePath, toList_relativePath]
  induction parts with
  | nil => rfl
  | cons part parts ih =>
    cases parts with
    | nil => simpa using hone part List.mem_cons_self
    | cons next parts =>
      have ih' := ih (fun p hp => h p (List.mem_cons_of_mem _ hp)) fun p hp => hone p (List.mem_cons_of_mem _ hp)
      simp only [List.map_cons, List.intercalate_cons_cons] at ih' ⊢
      have hslash : Percent.encodeChars (fun c => reserved c && c != '/') ['/'] = ['/'] :=
        Percent.encodeChars_of_plain (by simp)
      rw [Percent.encodeChars_append, Percent.encodeChars_append, ih', hone part List.mem_cons_self, hslash]

/-! ## What is listed -/

/-- An object's name under the prefix is its path below it. -/
theorem relativeName_append (hdir : isSingleFile path = false) (rest : List String) :
    relativeName path (path ++ rest) = relativePath rest := by
  unfold relativeName
  rw [if_pos ⟨List.prefix_append _ _, hdir⟩, List.drop_left]

/-- The objects listed are the Parquet files below the prefix, outside `_peql`. -/
theorem keeps_iff {file : List String} : keeps path file = true ↔
    ∃ rest, rest ≠ [] ∧ file = path ++ rest ∧ objectExtension (rest.getLastD "") = some "parquet" ∧ "_peql" ∉ path ∧
      "_peql" ∉ rest := by
  unfold keeps
  simp only [Bool.and_eq_true, decide_eq_true_eq, bne_iff_ne, beq_iff_eq, List.all_eq_true, ne_eq]
  constructor
  · rintro ⟨⟨⟨⟨rest, rfl⟩, hne⟩, hext⟩, hpeql⟩
    have hrest : rest ≠ [] := by
      rintro rfl
      exact hne (List.append_nil _).symm
    refine ⟨rest, hrest, rfl, ?_, fun hp => hpeql _ (List.mem_append_left _ hp) rfl,
      fun hp => hpeql _ (List.mem_append_right _ hp) rfl⟩
    rwa [List.getLastD_eq_getLast?, List.getLast?_append_of_ne_nil _ hrest, ← List.getLastD_eq_getLast?] at hext
  · rintro ⟨rest, hrest, rfl, hext, hpath, hpeql⟩
    refine ⟨⟨⟨List.prefix_append _ _, fun heq => hrest ?_⟩, ?_⟩, ?_⟩
    · exact List.append_cancel_left (heq.symm.trans (List.append_nil _).symm)
    · rwa [List.getLastD_eq_getLast?, List.getLast?_append_of_ne_nil _ hrest, ← List.getLastD_eq_getLast?]
    · rintro part hp rfl
      rcases List.mem_append.1 hp with hp | hp
      · exact hpath hp
      · exact hpeql hp

/-- Listing gives each of them once. -/
theorem Objects.listFiles_perm (hdir : isSingleFile path = false) (s : Objects) :
    (s.listFiles path).Perm (s.entries.filter fun o => keeps path o.1) := by
  unfold listFiles
  rw [hdir, if_neg Bool.false_ne_true]
  exact List.mergeSort_perm _ _

/-- The names of what is listed. -/
theorem Objects.mem_names (hdir : isSingleFile path = false) {s : Objects} {name : String} :
    (name ∈ (s.listFiles path).map fun o => relativeName path o.1) ↔
      ∃ rest, path ++ rest ∈ s ∧ keeps path (path ++ rest) = true ∧ relativePath rest = name := by
  rw [List.mem_map]
  constructor
  · rintro ⟨o, ho, rfl⟩
    obtain ⟨hmem, hkeeps⟩ := List.mem_filter.1 ((s.listFiles_perm hdir).mem_iff.1 ho)
    obtain ⟨rest, hrest, heq, hlast⟩ := keeps_iff.1 hkeeps
    have hkey : o.1 ∈ s := List.mem_map_of_mem hmem
    rw [heq] at hkey hkeeps ⊢
    exact ⟨rest, hkey, hkeeps, (relativeName_append hdir rest).symm⟩
  · rintro ⟨rest, hkey, hkeeps, rfl⟩
    obtain ⟨o, ho, heq⟩ := List.mem_map.1 hkey
    refine ⟨o, (s.listFiles_perm hdir).mem_iff.2 (List.mem_filter.2 ⟨ho, ?_⟩), ?_⟩
    · rwa [heq]
    · rw [heq]
      exact relativeName_append hdir rest

/-- The parts of paths below the prefix are plain, as `object_store`'s are. -/
def Objects.PlainBelow (path : List String) (s : Objects) : Prop :=
  ∀ rest, path ++ rest ∈ s → ∀ part ∈ rest, PlainPart part

/-- No two files are listed under one name. -/
theorem Objects.nodup_names (hdir : isSingleFile path = false) {s : Objects} (hs : s.PlainBelow path) :
    ((s.listFiles path).map fun o => relativeName path o.1).Nodup := by
  rw [((s.listFiles_perm hdir).map _).nodup_iff]
  refine List.Nodup.map_on ?_ (s.nodupKeys.nodup.filter _)
  intro o ho o' ho' hname
  obtain ⟨hmem, hkeeps⟩ := List.mem_filter.1 ho
  obtain ⟨hmem', hkeeps'⟩ := List.mem_filter.1 ho'
  obtain ⟨rest, hrest, heq, _⟩ := keeps_iff.1 hkeeps
  obtain ⟨rest', hrest', heq', _⟩ := keeps_iff.1 hkeeps'
  have hkey : path ++ rest ∈ s := heq ▸ List.mem_map_of_mem hmem
  have hkey' : path ++ rest' ∈ s := heq' ▸ List.mem_map_of_mem hmem'
  rw [heq, heq', relativeName_append hdir, relativeName_append hdir] at hname
  have hparts := relativePath_inj hrest hrest' (hs rest hkey) (hs rest' hkey') hname
  exact s.nodupKeys.eq_of_fst_eq hmem hmem' (by rw [heq, heq', hparts])

/-! ## What an upload leaves -/

variable {α : Type} {key : α → List String} {val : α → ParquetFile}

/-- What is put is there. -/
theorem mem_foldl_insert {l : List α} {s : Objects} {k : List String} :
    k ∈ l.foldl (fun s x => s.insert (key x) (val x)) s ↔ k ∈ s ∨ ∃ x ∈ l, k = key x := by
  induction l generalizing s with
  | nil => simp
  | cons x l ih =>
    rw [List.foldl_cons, ih, AList.mem_insert]
    simp only [List.exists_mem_cons_iff]
    tauto

/-- Under new names nothing is replaced. -/
theorem entries_foldl_insert (val : α → ParquetFile) {l : List α} {s : Objects} (hn : (l.map key).Nodup)
    (hs : ∀ x ∈ l, key x ∉ s) :
    (l.foldl (fun s x => s.insert (key x) (val x)) s).entries.Perm (s.entries ++ l.map fun x => ⟨key x, val x⟩) := by
  induction l generalizing s with
  | nil => simp
  | cons x l ih =>
    rw [List.map_cons, List.nodup_cons] at hn
    rw [List.foldl_cons, List.map_cons]
    refine (ih hn.2 fun y hy hmem => ?_).trans ?_
    · rcases AList.mem_insert s |>.1 hmem with heq | hmem
      · exact hn.1 (heq ▸ List.mem_map_of_mem hy)
      · exact hs y (List.mem_cons_of_mem _ hy) hmem
    · rw [AList.entries_insert_of_notMem (hs x List.mem_cons_self), List.cons_append]
      exact List.perm_middle.symm

namespace Staged

/-- A staged file listed is staged. -/
theorem mem_of_listed {d : Staged} {f : List String × ParquetFile} (h : f ∈ d.listFiles) :
    f ∈ d.files ∧ walked f = true :=
  List.mem_filter.1 (List.mem_mergeSort.1 h)

/-- It is uploaded with its parts encoded. -/
theorem uploadPath_of_listed {d : Staged} {f : List String × ParquetFile} (h : f ∈ d.listFiles) :
    uploadPath reserved path (relativePath f.1) = path ++ f.1.map (Percent.encode reserved) :=
  uploadPath_relativePath (d.nonempty f (mem_of_listed h).1) (d.plain f (mem_of_listed h).1)

end Staged

/-- Uploads leave plain paths below the prefix. -/
theorem plainBelow_upload (reserved : Char → Bool) {s : Objects} (hs : s.PlainBelow path) (staged : Staged) :
    (upload reserved path staged s).PlainBelow path := by
  intro rest hkey part hp
  rcases mem_foldl_insert.1 hkey with hkey | ⟨f, hf, heq⟩
  · exact hs rest hkey part hp
  · rw [Staged.uploadPath_of_listed hf] at heq
    obtain rfl := List.append_cancel_left heq
    obtain ⟨part, hpart, rfl⟩ := List.mem_map.1 hp
    exact plainPart_encode (staged.plain f (Staged.mem_of_listed hf).1 part hpart)

/-- Where the listing gains the staged files at their paths, all that is read from it is as the write recorded it. -/
theorem keeps_of_listing (hdir : isSingleFile path = false) {s : Objects} {staged : Staged} (hs : s.PlainBelow path)
    (h : ((upload reserved path staged s).listFiles path).Perm
      (s.listFiles path ++ staged.listFiles.map fun f => ⟨path ++ f.1, f.2⟩)) : UploadKeeps reserved path staged s := by
  have hread : ∀ {β : Type} (read : String → ParquetFile → β),
      (((upload reserved path staged s).listFiles path).map fun o => read (relativeName path o.1) o.2).Perm
        (((s.listFiles path).map fun o => read (relativeName path o.1) o.2) ++
          staged.listFiles.map fun f => read (relativePath f.1) f.2) := by
    intro β read
    have hmap := h.map fun o => read (relativeName path o.1) o.2
    simpa only [List.map_append, List.map_map, Function.comp_def, relativeName_append hdir] using hmap
  have hentries : ∀ flagColumns, ((upload reserved path staged s).fileEntries path flagColumns).Perm
      (s.fileEntries path flagColumns ++ staged.entries flagColumns) :=
    fun flagColumns => hread fun name f => entryFromFooter name f flagColumns
  refine ⟨hread Prod.mk, fun values => hread fun name f => (values name, f), hentries, fun sha256 flagColumns => ?_⟩
  refine dataHash_eq_of_perm (hentries flagColumns) ?_
  have hnames := Objects.nodup_names hdir (plainBelow_upload reserved hs staged)
  unfold Objects.fileEntries
  rw [List.map_map]
  exact hnames

/-- Files whose names need no encoding, where no object has their names, are listed at their paths. -/
theorem listing_upload (hdir : isSingleFile path = false) {s : Objects} {staged : Staged}
    (h : UploadPlain reserved path staged s) : ((upload reserved path staged s).listFiles path).Perm
      (s.listFiles path ++ staged.listFiles.map fun f => ⟨path ++ f.1, f.2⟩) := by
  rcases h with hnone | ⟨hpeql, hplain, hnew⟩
  · unfold upload
    rw [hnone]
    simp
  have hpath : ∀ f ∈ staged.listFiles, uploadPath reserved path (relativePath f.1) = path ++ f.1 := by
    intro f hf
    rw [Staged.uploadPath_of_listed hf]
    congr 1
    refine (List.map_congr_left fun part hp => Percent.encode_of_plain fun c hc => ?_).trans (List.map_id _)
    have hslash : c ≠ '/' := fun heq => staged.plain f (Staged.mem_of_listed hf).1 part hp (heq ▸ hc)
    refine hplain f hf c ?_ hslash
    exact mem_relativePath hp hc
  have hkeeps : ∀ f ∈ staged.listFiles, keeps path (path ++ f.1) = true := by
    intro f hf
    obtain ⟨hmem, hwalked⟩ := Staged.mem_of_listed hf
    simp only [Staged.walked, Bool.and_eq_true, decide_eq_true_eq, beq_iff_eq] at hwalked
    refine keeps_iff.2 ⟨f.1, staged.nonempty f hmem, rfl, objectExtension_of_file hwalked.2, hpeql, fun hp => ?_⟩
    rw [← List.dropLast_append_getLast (staged.nonempty f hmem), List.mem_append, List.mem_singleton] at hp
    rcases hp with hp | hp
    · exact hwalked.1 hp
    · have hlast := hwalked.2
      rw [List.getLastD_eq_getLast?, List.getLast?_eq_some_getLast (staged.nonempty f hmem), ← hp] at hlast
      exact absurd hlast (by decide)
  have hfresh : ∀ f ∈ staged.listFiles, uploadPath reserved path (relativePath f.1) ∉ s := by
    intro f hf hkey
    rw [hpath f hf] at hkey
    exact hnew f hf ((Objects.mem_names hdir).2 ⟨f.1, hkey, hkeeps f hf, rfl⟩)
  have hdistinct : (staged.listFiles.map fun f => uploadPath reserved path (relativePath f.1)).Nodup := by
    rw [List.map_congr_left hpath]
    have hfiles : (staged.listFiles.map Prod.fst).Nodup := by
      refine (((List.mergeSort_perm _ _).map Prod.fst).nodup_iff).2 ?_
      exact staged.nodup.sublist (List.filter_sublist.map _)
    have hjoin := hfiles.map (List.append_right_injective path)
    rwa [List.map_map] at hjoin
  have hentries := entries_foldl_insert Prod.snd hdistinct hfresh
  refine (Objects.listFiles_perm hdir _).trans ((hentries.filter _).trans ?_)
  rw [List.filter_append]
  refine ((Objects.listFiles_perm hdir s).symm).append ?_
  rw [List.filter_eq_self.2, List.map_congr_left fun f hf => by rw [hpath f hf]]
  intro o ho
  obtain ⟨f, hf, rfl⟩ := List.mem_map.1 ho
  change keeps path (uploadPath reserved path (relativePath f.1)) = true
  rw [hpath f hf]
  exact hkeeps f hf

/-! ## When names are kept -/

/-- Where every name is that of some path encoded, none has anything to encode: the path has nothing to encode, or its
own name is shorter. -/
theorem plain_of_encoded {fs : List (List String)} (hplain : ∀ f ∈ fs, ∀ part ∈ f, PlainPart part)
    (h : ∀ f ∈ fs, ∃ g ∈ fs, relativePath (g.map (Percent.encode reserved)) = relativePath f) {f : List String}
    (hf : f ∈ fs) {c : Char} (hc : c ∈ (relativePath f).toList) (hslash : c ≠ '/') : reserved c = false := by
  induction hlen : (relativePath f).toList.length using Nat.strong_induction_on generalizing f c with
  | _ n ih =>
    obtain ⟨g, hg, hname⟩ := h f hf
    have hencoded := toList_relativePath_encode reserved (hplain g hg)
    rw [hname] at hencoded
    by_cases hnone : ∀ d ∈ (relativePath g).toList, (reserved d && d != '/') = false
    · -- The name encoded is this one, so this one has nothing to encode.
      rw [Percent.encodeChars_of_plain hnone] at hencoded
      have hcg := hnone c (hencoded ▸ hc)
      simpa [hslash] using hcg
    · -- It is shorter, and what it has to encode it has not.
      have hex : ∃ d ∈ (relativePath g).toList, (reserved d && d != '/') = true := by
        simpa only [not_forall, Bool.not_eq_false, exists_prop] using hnone
      have hlt := Percent.length_lt_encodeChars hex
      rw [← hencoded, hlen] at hlt
      obtain ⟨d, hd, hres⟩ := hex
      simp only [Bool.and_eq_true, bne_iff_ne] at hres
      have hfalse := ih _ hlt hg hd hres.2 rfl
      rw [hfalse] at hres
      exact absurd hres.1 Bool.false_ne_true

/-- A staged name that is listed is a staged name encoded. -/
theorem plain_of_listed (hdir : isSingleFile path = false) {s : Objects} {staged : Staged}
    (hnew : ∀ f ∈ staged.listFiles, relativePath f.1 ∉ (s.listFiles path).map fun o => relativeName path o.1)
    (hlisted : ∀ f ∈ staged.listFiles,
      relativePath f.1 ∈ ((upload reserved path staged s).listFiles path).map fun o => relativeName path o.1)
    {f : List String × ParquetFile} (hf : f ∈ staged.listFiles) {c : Char} (hc : c ∈ (relativePath f.1).toList)
    (hslash : c ≠ '/') : reserved c = false := by
  refine plain_of_encoded ?_ ?_ (List.mem_map_of_mem hf) hc hslash
  · intro _ hmem
    obtain ⟨g, hg, rfl⟩ := List.mem_map.1 hmem
    exact staged.plain g (Staged.mem_of_listed hg).1
  · intro _ hmem
    obtain ⟨g, hg, rfl⟩ := List.mem_map.1 hmem
    obtain ⟨rest, hkey, hkeeps, hname⟩ := (Objects.mem_names hdir).1 (hlisted g hg)
    rcases mem_foldl_insert.1 hkey with hkey | ⟨k, hk, heq⟩
    · exact absurd ((Objects.mem_names hdir).2 ⟨rest, hkey, hkeeps, hname⟩) (hnew g hg)
    · rw [Staged.uploadPath_of_listed hk] at heq
      obtain rfl := List.append_cancel_left heq
      exact ⟨k.1, List.mem_map_of_mem hk, hname⟩

/-- An upload that keeps its files' names has plain names. -/
theorem UploadKeeps.plain (hdir : isSingleFile path = false) {s : Objects} {staged : Staged} (hs : s.PlainBelow path)
    (h : UploadKeeps reserved path staged s) : UploadPlain reserved path staged s := by
  by_cases hnone : staged.listFiles = []
  · exact .inl hnone
  have hperm : (((upload reserved path staged s).listFiles path).map fun o => relativeName path o.1).Perm
      (((s.listFiles path).map fun o => relativeName path o.1) ++ staged.listFiles.map fun f => relativePath f.1) := by
    have hmap := h.listed.map Prod.fst
    simpa only [List.map_append, List.map_map, Function.comp_def] using hmap
  have hlisted : ∀ f ∈ staged.listFiles,
      relativePath f.1 ∈ ((upload reserved path staged s).listFiles path).map fun o => relativeName path o.1 :=
    fun f hf => hperm.mem_iff.2 (List.mem_append_right _ (List.mem_map_of_mem hf))
  have hnew : ∀ f ∈ staged.listFiles, relativePath f.1 ∉ (s.listFiles path).map fun o => relativeName path o.1 := by
    intro f hf hmem
    have hnodup := hperm.nodup_iff.1 (Objects.nodup_names hdir (plainBelow_upload reserved hs staged))
    exact (List.nodup_append.1 hnodup).2.2 _ hmem _ (List.mem_map_of_mem hf) rfl
  refine .inr ⟨fun hpeql => ?_, fun f hf c hc hslash => plain_of_listed hdir hnew hlisted hf hc hslash, hnew⟩
  obtain ⟨f, hf⟩ := List.exists_mem_of_ne_nil _ hnone
  obtain ⟨rest, _, hkeeps, _⟩ := (Objects.mem_names hdir).1 (hlisted f hf)
  obtain ⟨_, _, _, _, hpath, _⟩ := keeps_iff.1 hkeeps
  exact hpath hpeql

/-- An upload keeps the staged files' names, and all that is read from them, exactly when nothing is left to encode in
them, no object is listed under one of them before, and no part of the prefix is `_peql`; or nothing is staged. -/
theorem upload_keeps_iff (reserved : Char → Bool) (path : List String) (hdir : isSingleFile path = false)
    (staged : Staged) (s : Objects) (hs : s.PlainBelow path) :
    UploadKeeps reserved path staged s ↔ UploadPlain reserved path staged s :=
  ⟨fun h => h.plain hdir hs, fun h => keeps_of_listing hdir hs (listing_upload hdir h)⟩

end Upload

/-- The characters `object_store` encodes. -/
def storeReserved (c : Char) : Bool :=
  c.toNat < 32 || 126 < c.toNat || "/\\\x7b^\x7d%\x60]\">[~<#|*?".toList.contains c

/-- One file of no rows under a partition value. -/
def stagedUnder (value : String) (h : PlainPart value) : Staged where
  files := [(["region=" ++ value, "w_0.parquet"], ⟨0, 0, "h1", Lookup.empty, Lookup.empty, "00"⟩)]
  nodup := List.nodup_singleton _
  nonempty := by simp
  plain := by
    intro f hf part hp
    obtain rfl := List.mem_singleton.1 hf
    simp only [List.mem_cons, List.not_mem_nil, or_false] at hp
    rcases hp with rfl | rfl
    · unfold PlainPart
      rw [String.toList_append, List.mem_append, not_or]
      exact ⟨by decide, h⟩
    · unfold PlainPart
      decide

theorem listFiles_stagedUnder {value : String} (h : PlainPart value) (hpeql : "region=" ++ value ≠ "_peql") :
    (stagedUnder value h).listFiles = (stagedUnder value h).files := by
  unfold Staged.listFiles stagedUnder
  rw [List.filter_cons_of_pos, List.filter_nil, List.mergeSort_singleton]
  have hname : fileExtension "w_0.parquet" = some "parquet" := by decide
  simpa [Staged.walked, hname] using hpeql.symm

theorem plainBelow_empty (path : List String) : (∅ : Objects).PlainBelow path :=
  fun _ h => absurd h (AList.notMem_empty _)

/-- A partition value of plain characters is kept. -/
theorem plain_value_kept :
    UploadKeeps storeReserved ["sales"] (stagedUnder "eu" (by unfold PlainPart; decide)) ∅ := by
  refine (upload_keeps_iff storeReserved ["sales"] (by decide) _ ∅ (plainBelow_empty _)).2 (.inr ⟨by decide, ?_, ?_⟩)
  · rw [listFiles_stagedUnder _ (by decide)]
    intro f hf c hc hslash
    obtain rfl := List.mem_singleton.1 hf
    have hall :
        (relativePath ["region=eu", "w_0.parquet"]).toList.all (fun c => c == '/' || !storeReserved c) = true := by
      decide
    have hc' := List.all_eq_true.1 hall c hc
    simpa [hslash] using hc'
  · intro f _ hmem
    obtain ⟨_, hkey, _⟩ := (Objects.mem_names (by decide)).1 hmem
    exact absurd hkey (AList.notMem_empty _)

/-- The value `a/b` is staged as `a%2Fb`, and is not kept. -/
theorem escaped_value_renamed :
    isSingleFile ["sales"] = false ∧ (∅ : Objects).PlainBelow ["sales"] ∧
      uploadPath storeReserved ["sales"] "region=a%2Fb/w_0.parquet" = ["sales", "region=a%252Fb", "w_0.parquet"] ∧
        ¬ UploadKeeps storeReserved ["sales"] (stagedUnder "a%2Fb" (by unfold PlainPart; decide)) ∅ := by
  refine ⟨by decide, plainBelow_empty _, by decide, fun h => ?_⟩
  rcases h.plain (by decide) (plainBelow_empty _) with hnone | ⟨_, hplain, _⟩
  · rw [listFiles_stagedUnder _ (by decide)] at hnone
    cases hnone
  · rw [listFiles_stagedUnder _ (by decide)] at hplain
    exact absurd (hplain _ List.mem_cons_self '%' (by decide) (by decide)) (by decide)

end Peql
