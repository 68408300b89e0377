import Mathlib.Data.List.Perm.Basic
import Peql.Lib.Tagged
import Peql.Manifest

/-!
# What a data hash names

`data_hash` signs one line for each file, in path order: its path, `:`, the sha256 of its bytes and a newline. A path
may hold `:` and newlines, so a path may begin with the whole line of another file; lists with such paths can be
`Mistaken` for one another, and then share their hash.
-/

namespace Peql

variable {sha256 : String → String} {xs ys : List FileEntry}

/-- 64 hex digits. -/
structure IsSha256 (s : String) : Prop where
  length : s.toList.length = 64
  hex : ∀ c ∈ s.toList, c.isHexDigit = true

namespace FileEntry

/-- What a data hash names a file by. -/
def named (f : FileEntry) : String × String := (f.path, f.sha256)

def line (f : FileEntry) : Tagged.Line Char := ⟨f.path.toList, f.sha256.toList⟩

end FileEntry

/-- The files in path order, as `data_hash` lists them. -/
def signedLines (files : List FileEntry) : List (Tagged.Line Char) := (files.mergeSort pathLe).map FileEntry.line

/-- In path order the two lists agree up to a file of one whose path begins with a whole line of the other, and what is
left of both reads alike. -/
def Mistaken (xs ys : List FileEntry) : Prop := Tagged.Confused ':' '\n' (signedLines xs) (signedLines ys)

/-- The hashes listed under a path, in the order of the list. -/
def hashesUnder (path : String) (files : List FileEntry) : List String :=
  (files.filter fun f => f.path = path).map FileEntry.sha256

/-- The same pairs, but some path is listed more than once, and not with its hashes in the same order. -/
def Reordered (xs ys : List FileEntry) : Prop :=
  (xs.map FileEntry.named).Perm (ys.map FileEntry.named) ∧ ∃ path, hashesUnder path xs ≠ hashesUnder path ys

/-! ## What is hashed -/

/-- The text hashed is the lines one after another. -/
theorem toList_foldl_lines (files : List FileEntry) (acc : String) :
    (files.foldl (fun acc f => acc ++ f.path ++ ":" ++ f.sha256 ++ "\n") acc).toList =
      acc.toList ++ Tagged.text ':' '\n' (files.map FileEntry.line) := by
  induction files generalizing acc with
  | nil => simp
  | cons f files ih =>
    rw [List.foldl_cons, ih, List.map_cons, Tagged.text_cons]
    simp [FileEntry.line, Tagged.Line.text]

/-- Without collisions of sha256, the hash is as good as the text. -/
theorem dataHash_eq_iff (h : Function.Injective sha256) :
    dataHash sha256 xs = dataHash sha256 ys ↔
      Tagged.text ':' '\n' (signedLines xs) = Tagged.text ':' '\n' (signedLines ys) := by
  have htext : ∀ files : List FileEntry,
      ((files.mergeSort pathLe).foldl (fun acc f => acc ++ f.path ++ ":" ++ f.sha256 ++ "\n") "").toList =
        Tagged.text ':' '\n' (signedLines files) := fun files => toList_foldl_lines _ _
  unfold dataHash
  rw [h.eq_iff, ← String.toList_inj, htext, htext]

/-- A line with a sha256 is a proper one. -/
theorem IsSha256.proper {f : FileEntry} (h : IsSha256 f.sha256) : f.line.Proper ':' 64 where
  length := h.length
  plain hmem := absurd (h.hex _ hmem) (by decide)

theorem proper_signedLines (h : ∀ f ∈ xs, IsSha256 f.sha256) : ∀ l ∈ signedLines xs, l.Proper ':' 64 := by
  intro l hl
  obtain ⟨f, hf, rfl⟩ := List.mem_map.1 hl
  exact (h f (List.mem_mergeSort.1 hf)).proper

/-! ## What path order keeps -/

theorem filter_mergeSort (path : String) (files : List FileEntry) :
    (files.mergeSort pathLe).filter (fun f => f.path = path) = files.filter fun f => f.path = path := by
  have hsame : (files.filter fun f => f.path = path).Pairwise fun a b => pathLe a b := by
    refine List.pairwise_of_forall_mem_list fun a ha b hb => ?_
    have hap := (List.mem_filter.1 ha).2
    have hbp := (List.mem_filter.1 hb).2
    simp only [decide_eq_true_eq] at hap hbp
    simp [pathLe, hap, hbp]
  -- The sort is stable: entries of one path stay in their order.
  have hsub := (List.sublist_mergeSort pathLe_trans pathLe_total hsame List.filter_sublist).filter
    fun f => decide (f.path = path)
  rw [List.filter_filter] at hsub
  simp only [Bool.and_self] at hsub
  exact (hsub.eq_of_length_le ((List.mergeSort_perm files pathLe).filter _).length_eq.le).symm

/-- Sorting leaves the hashes under a path. -/
theorem hashesUnder_mergeSort (path : String) (files : List FileEntry) :
    hashesUnder path (files.mergeSort pathLe) = hashesUnder path files := by
  unfold hashesUnder
  rw [filter_mergeSort]

/-- A path named has hashes. -/
theorem hashesUnder_ne_nil {f : FileEntry} (hf : f ∈ xs) : hashesUnder f.path xs ≠ [] := by
  intro hnil
  have hmem : f ∈ xs.filter fun g => g.path = f.path := List.mem_filter.2 ⟨hf, by simp⟩
  rw [List.map_eq_nil_iff.1 hnil] at hmem
  cases hmem

/-- One with hashes is named. -/
theorem mem_of_hashesUnder {path : String} (h : hashesUnder path xs ≠ []) : ∃ f ∈ xs, f.path = path := by
  obtain ⟨s, hs⟩ := List.exists_mem_of_ne_nil _ h
  obtain ⟨f, hf, _⟩ := List.mem_map.1 hs
  obtain ⟨hmem, hpath⟩ := List.mem_filter.1 hf
  exact ⟨f, hmem, of_decide_eq_true hpath⟩

/-- Lists in path order with the same hashes under every path have the same lines. -/
theorem lines_of_hashesUnder (hx : xs.Pairwise fun a b => pathLe a b) (hy : ys.Pairwise fun a b => pathLe a b)
    (h : ∀ path, hashesUnder path xs = hashesUnder path ys) : xs.map FileEntry.line = ys.map FileEntry.line := by
  induction xs generalizing ys with
  | nil =>
    cases ys with
    | nil => rfl
    | cons y ys => exact absurd (h y.path).symm (hashesUnder_ne_nil List.mem_cons_self)
  | cons x xs ih =>
    cases ys with
    | nil => exact absurd (h x.path) (hashesUnder_ne_nil List.mem_cons_self)
    | cons y ys =>
      -- The first entries have one path: each is the least.
      have hxy : x.path ≤ y.path := by
        obtain ⟨f, hf, hpath⟩ := mem_of_hashesUnder ((h y.path).symm ▸ hashesUnder_ne_nil List.mem_cons_self)
        rw [← hpath]
        rcases List.mem_cons.1 hf with rfl | hf
        · exact le_rfl
        · simpa [pathLe] using List.rel_of_pairwise_cons hx hf
      have hyx : y.path ≤ x.path := by
        obtain ⟨f, hf, hpath⟩ := mem_of_hashesUnder (h x.path ▸ hashesUnder_ne_nil List.mem_cons_self)
        rw [← hpath]
        rcases List.mem_cons.1 hf with rfl | hf
        · exact le_rfl
        · simpa [pathLe] using List.rel_of_pairwise_cons hy hf
      have hpath : x.path = y.path := le_antisymm hxy hyx
      have hhead : x.sha256 = y.sha256 := by
        have hfirst := h x.path
        unfold hashesUnder at hfirst
        rw [List.filter_cons_of_pos (by simp), List.filter_cons_of_pos (by simp [hpath])] at hfirst
        exact (List.cons.inj hfirst).1
      have htail : ∀ path, hashesUnder path xs = hashesUnder path ys := by
        intro path
        have hall := h path
        unfold hashesUnder at hall ⊢
        by_cases hp : x.path = path
        · rw [List.filter_cons_of_pos (by simp [hp]), List.filter_cons_of_pos (by simp [← hpath, hp])] at hall
          exact (List.cons.inj hall).2
        · rwa [List.filter_cons_of_neg (by simp [hp]), List.filter_cons_of_neg (by simp [← hpath, hp])] at hall
      have hline : x.line = y.line := by
        unfold FileEntry.line
        rw [hpath, hhead]
      rw [List.map_cons, List.map_cons, hline, ih (List.pairwise_cons.1 hx).2 (List.pairwise_cons.1 hy).2 htail]

/-- Lists of the same lines hold the same pairs, with the hashes of each path in the same order. -/
theorem hashesUnder_of_lines (h : xs.map FileEntry.line = ys.map FileEntry.line) (path : String) :
    hashesUnder path xs = hashesUnder path ys := by
  induction xs generalizing ys with
  | nil =>
    cases ys with
    | nil => rfl
    | cons y ys => cases h
  | cons x xs ih =>
    cases ys with
    | nil => cases h
    | cons y ys =>
      obtain ⟨hline, htail⟩ := List.cons.inj h
      have hpath : x.path = y.path := String.toList_inj.1 (congrArg Tagged.Line.name hline)
      have hsha : x.sha256 = y.sha256 := String.toList_inj.1 (congrArg Tagged.Line.tag hline)
      have hrest := ih htail
      unfold hashesUnder at hrest ⊢
      by_cases hp : x.path = path
      · rw [List.filter_cons_of_pos (by simp [hp]), List.filter_cons_of_pos (by simp [← hpath, hp]), List.map_cons,
          List.map_cons, hsha, hrest]
      · rw [List.filter_cons_of_neg (by simp [hp]), List.filter_cons_of_neg (by simp [← hpath, hp]), hrest]

/-- Two lists sign alike when they have the same hashes under each path, in order. -/
theorem signedLines_eq_iff :
    signedLines xs = signedLines ys ↔ ∀ path, hashesUnder path xs = hashesUnder path ys := by
  constructor
  · intro h path
    rw [← hashesUnder_mergeSort path xs, ← hashesUnder_mergeSort path ys, hashesUnder_of_lines h]
  · intro h
    refine lines_of_hashesUnder (List.pairwise_mergeSort pathLe_trans pathLe_total xs)
      (List.pairwise_mergeSort pathLe_trans pathLe_total ys) fun path => ?_
    rw [hashesUnder_mergeSort, hashesUnder_mergeSort, h]

theorem named_of_line {f g : FileEntry} (h : f.line = g.line) : f.named = g.named :=
  Prod.ext (String.toList_inj.1 (congrArg Tagged.Line.name h)) (String.toList_inj.1 (congrArg Tagged.Line.tag h))

/-- Then they name the same data. -/
theorem perm_of_signedLines (h : signedLines xs = signedLines ys) :
    (xs.map FileEntry.named).Perm (ys.map FileEntry.named) := by
  have hnamed : (xs.mergeSort pathLe).map FileEntry.named = (ys.mergeSort pathLe).map FileEntry.named := by
    refine List.ext_getElem? fun i => ?_
    have hi := congrArg (fun ls : List (Tagged.Line Char) => ls[i]?) h
    simp only [signedLines, List.getElem?_map] at hi ⊢
    cases hx : (xs.mergeSort pathLe)[i]? <;> cases hy : (ys.mergeSort pathLe)[i]? <;> simp [hx, hy] at hi ⊢
    exact named_of_line hi
  exact ((List.mergeSort_perm xs pathLe).map _).symm.trans
    (hnamed ▸ (List.mergeSort_perm ys pathLe).map FileEntry.named)

/-- Lists of the same pairs have the same paths, in path order. -/
theorem names_of_perm (h : (xs.map FileEntry.named).Perm (ys.map FileEntry.named)) :
    (signedLines xs).map Tagged.Line.name = (signedLines ys).map Tagged.Line.name := by
  have hpaths : ((xs.mergeSort pathLe).map FileEntry.path).Perm ((ys.mergeSort pathLe).map FileEntry.path) := by
    have hall := h.map Prod.fst
    rw [List.map_map, List.map_map] at hall
    exact (((List.mergeSort_perm xs pathLe).map _).trans hall).trans ((List.mergeSort_perm ys pathLe).map _).symm
  have hsorted : ∀ files : List FileEntry, ((files.mergeSort pathLe).map FileEntry.path).Pairwise (· ≤ ·) :=
    fun files => List.pairwise_map.2 ((List.pairwise_mergeSort pathLe_trans pathLe_total files).imp fun {a b} hab => by
      simpa [pathLe] using hab)
  have heq := hpaths.eq_of_pairwise (fun a b _ _ hab hba => le_antisymm hab hba) (hsorted xs) (hsorted ys)
  unfold signedLines
  rw [List.map_map, List.map_map]
  have hmap := congrArg (List.map String.toList) heq
  rwa [List.map_map, List.map_map] at hmap

/-! ## What the hash names -/

/-- The data hash tells two lists of files apart exactly when they hold different pairs of path and hash, unless one is
mistaken for the other, or lists a path twice with its hashes in another order. -/
theorem dataHash_names_iff (hinj : Function.Injective sha256) (hx : ∀ f ∈ xs, IsSha256 f.sha256)
    (hy : ∀ f ∈ ys, IsSha256 f.sha256) :
    (dataHash sha256 xs = dataHash sha256 ys ↔ (xs.map FileEntry.named).Perm (ys.map FileEntry.named)) ↔
      ¬ Mistaken xs ys ∧ ¬ Reordered xs ys := by
  have hhash : dataHash sha256 xs = dataHash sha256 ys ↔ signedLines xs = signedLines ys ∨ Mistaken xs ys := by
    rw [dataHash_eq_iff hinj, Tagged.text_eq_iff (by decide) (proper_signedLines hx) (proper_signedLines hy),
      Tagged.alike_iff]
    rfl
  constructor
  · intro h
    constructor
    · intro hm
      exact hm.names_ne (names_of_perm (h.1 (hhash.2 (.inr hm))))
    · rintro ⟨hperm, path, hne⟩
      rcases hhash.1 (h.2 hperm) with hlines | hm
      · exact hne (signedLines_eq_iff.1 hlines path)
      · exact hm.names_ne (names_of_perm hperm)
  · rintro ⟨hm, hr⟩
    constructor
    · intro h
      exact perm_of_signedLines ((hhash.1 h).resolve_right hm)
    · intro hperm
      refine hhash.2 (.inl (signedLines_eq_iff.2 fun path => ?_))
      by_contra hne
      exact hr ⟨hperm, path, hne⟩

/-- One file whose path is a whole line of `f` and then the path of `g`. -/
def joined (f g : FileEntry) : FileEntry := { g with path := f.path ++ ":" ++ f.sha256 ++ "\n" ++ g.path }

/-- Any two files have the hash of one file. -/
theorem dataHash_joined {f g : FileEntry} (h : f.path ≤ g.path) :
    dataHash sha256 [joined f g] = dataHash sha256 [f, g] := by
  have hsorted : [f, g].mergeSort pathLe = [f, g] :=
    List.mergeSort_of_pairwise (List.pairwise_pair.2 (by simpa [pathLe] using h))
  unfold dataHash
  rw [hsorted, List.mergeSort_singleton]
  simp [joined, String.append_assoc]

/-- A file of no rows, whose bytes have the hash of 64 zeros. -/
def zerosFile (path : String) : FileEntry :=
  ⟨path, 0, 0, "h1", Lookup.empty, Lookup.empty, String.ofList (List.replicate 64 '0')⟩

theorem isSha256_zerosFile (path : String) : IsSha256 (zerosFile path).sha256 where
  length := by simp [zerosFile]
  hex c hc := by
    simp only [zerosFile, String.toList_ofList] at hc
    rw [List.eq_of_mem_replicate hc]
    decide

theorem a_le_b : (zerosFile "a.parquet").path ≤ (zerosFile "b.parquet").path := by decide

/-- Two files in any order have one hash. -/
theorem two_files_named :
    dataHash id [zerosFile "a.parquet", zerosFile "b.parquet"] =
        dataHash id [zerosFile "b.parquet", zerosFile "a.parquet"] ↔
      ([zerosFile "a.parquet", zerosFile "b.parquet"].map FileEntry.named).Perm
        ([zerosFile "b.parquet", zerosFile "a.parquet"].map FileEntry.named) := by
  have hall : ∀ f ∈ [zerosFile "a.parquet", zerosFile "b.parquet"], IsSha256 f.sha256 := by
    simp [isSha256_zerosFile]
  have hrev : ∀ f ∈ [zerosFile "b.parquet", zerosFile "a.parquet"], IsSha256 f.sha256 := by
    simp [isSha256_zerosFile]
  refine (dataHash_names_iff Function.injective_id hall hrev).2 ⟨fun hm => ?_, ?_⟩
  · exact hm.names_ne (names_of_perm (List.Perm.swap _ _ _))
  · rintro ⟨_, path, hne⟩
    refine hne ?_
    unfold hashesUnder
    by_cases ha : "a.parquet" = path
    · subst ha
      simp [zerosFile]
    · simp [zerosFile, List.filter_cons, ha]

/-- The two files and the one file of their joined lines are signed by one certificate. -/
theorem joined_file_mistaken :
    (∀ f ∈ [joined (zerosFile "a.parquet") (zerosFile "b.parquet")], IsSha256 f.sha256) ∧
      (∀ f ∈ [zerosFile "a.parquet", zerosFile "b.parquet"], IsSha256 f.sha256) ∧
        dataHash id [joined (zerosFile "a.parquet") (zerosFile "b.parquet")] =
            dataHash id [zerosFile "a.parquet", zerosFile "b.parquet"] ∧
          ¬ ([joined (zerosFile "a.parquet") (zerosFile "b.parquet")].map FileEntry.named).Perm
            ([zerosFile "a.parquet", zerosFile "b.parquet"].map FileEntry.named) := by
  refine ⟨?_, by simp [isSha256_zerosFile], dataHash_joined a_le_b, fun hperm => ?_⟩
  · intro f hf
    obtain rfl := List.mem_singleton.1 hf
    exact isSha256_zerosFile "b.parquet"
  · have hlen := hperm.length_eq
    simp at hlen

end Peql
