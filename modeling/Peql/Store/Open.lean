import Peql.Lib.Runs
import Peql.Store.Dir

/-!
# What opening a store reads

Opening fails on half an audience file, and otherwise gives in memory exactly the versions that load and the audiences
that are named, whatever order the directories are listed in (`openStore_spec`). For this each bundle must be where
its contract's bundles are kept (`Placed`), which every step of a store keeps.
-/

namespace Peql

/-! ## Several versions put one after another -/

/-- Putting versions no two of which are kept under one key leaves them, and those under other keys. -/
theorem mem_foldl_insertVersion {l xs : List Registered} {x : Registered} (hxs : xs.Pairwise Registered.before)
    (hl : ∀ y ∈ l, ∀ z ∈ l, y.key = z.key → y = z) :
    x ∈ l.foldl (fun ys r => insertVersion r ys) xs ↔ x ∈ l ∨ x ∈ xs ∧ ∀ r ∈ l, x.key ≠ r.key := by
  induction l generalizing xs with
  | nil => simp
  | cons r l ih =>
    have hr := hl r List.mem_cons_self
    have hl' : ∀ y ∈ l, ∀ z ∈ l, y.key = z.key → y = z := fun y hy z hz =>
      hl y (List.mem_cons_of_mem r hy) z (List.mem_cons_of_mem r hz)
    rw [List.foldl_cons, ih (sorted_insertVersion r hxs) hl', mem_insertVersion_iff hxs]
    constructor
    · rintro (hx | ⟨hx | ⟨hx, hk⟩, hall⟩)
      · exact .inl (List.mem_cons_of_mem r hx)
      · exact .inl (hx ▸ List.mem_cons_self)
      · exact .inr ⟨hx, fun y hy => by
          rcases List.mem_cons.1 hy with rfl | hy
          · exact hk
          · exact hall y hy⟩
    · rintro (hx | ⟨hx, hall⟩)
      · rcases List.mem_cons.1 hx with rfl | hx
        · -- `x` itself is put first; it is there still, or put again.
          by_cases hmem : x ∈ l
          · exact .inl hmem
          · refine .inr ⟨.inl rfl, fun y hy hk => hmem ?_⟩
            rwa [hr y (List.mem_cons_of_mem x hy) hk]
        · exact .inl hx
      · exact .inr ⟨.inr ⟨hx, hall r List.mem_cons_self⟩, fun y hy => hall y (List.mem_cons_of_mem r hy)⟩

/-! ## One directory -/

/-- The contracts of the bundles that load. -/
def loadedOf (fs : List (Σ _ : Nat, Bundle)) : List Registered :=
  fs.filterMap fun f => match f.2 with | .loads r => some r | .spoiled _ => none

namespace ContractDir

def loaded (c : ContractDir) : List Registered := loadedOf c.files

/-- The audiences named. -/
def named (c : ContractDir) : List String :=
  match c.audiences with
  | some (.names l) => l
  | _ => []

/-- A contract loaded is in one of the bundles. -/
theorem mem_loaded {c : ContractDir} {r : Registered} : r ∈ c.loaded ↔ ∃ v, c.bundles.lookup v = some (.loads r) := by
  unfold loaded loadedOf files
  rw [List.mem_filterMap]
  constructor
  · rintro ⟨⟨v, b⟩, hmem, hb⟩
    cases b with
    | loads r' =>
      obtain rfl := Option.some.inj hb
      exact ⟨v, AList.mem_lookup_iff.2 ((List.mem_insertionSort _).1 hmem)⟩
    | spoiled cause => cases hb
  · rintro ⟨v, hv⟩
    exact ⟨⟨v, .loads r⟩, (List.mem_insertionSort _).2 (AList.mem_lookup_iff.1 hv), rfl⟩

/-- An audience named is in the file. -/
theorem mem_named {c : ContractDir} {a : String} : a ∈ c.named ↔ ∃ l, c.audiences = some (.names l) ∧ a ∈ l := by
  unfold named
  cases c.audiences with
  | none => simp
  | some f => cases f <;> simp

end ContractDir

/-- Reading bundles puts those that load. -/
theorem foldl_readBundle (d : String) (fs : List (Σ _ : Nat, Bundle)) (s : DirStore) :
    let t := fs.foldl (fun s f => readBundle d s f.1 f.2) s
    t.disk = s.disk ∧ t.memory.audiences = s.memory.audiences ∧
      t.memory.versions = (loadedOf fs).foldl (fun ys r => insertVersion r ys) s.memory.versions := by
  induction fs generalizing s with
  | nil => exact ⟨rfl, rfl, rfl⟩
  | cons f fs ih =>
    obtain ⟨v, b⟩ := f
    obtain ⟨hdisk, haud, hver⟩ := ih (readBundle d s v b)
    rw [List.foldl_cons]
    refine ⟨hdisk.trans ?_, haud.trans ?_, hver.trans ?_⟩
    · cases b <;> rfl
    · cases b <;> rfl
    · cases b <;> rfl

/-- Publishing leaves the versions. -/
theorem versions_foldl_publish (name : String) (l : List String) (m : Contents) :
    (l.foldl (fun m a => m.publish name a) m).versions = m.versions := by
  induction l generalizing m with
  | nil => rfl
  | cons a l ih => exact ih (m.publish name a)

/-- An audience is one published, or one there was. -/
theorem mem_publish {m : Contents} {name n audience a : String} :
    a ∈ (m.publish name audience).audiences n ↔ a ∈ m.audiences n ∨ n = name ∧ a = audience := by
  unfold Contents.publish
  by_cases hn : n = name
  · subst hn
    simp [or_comm]
  · simp [hn]

/-- One withdrawn is gone. -/
theorem mem_unpublish {m : Contents} {name n audience a : String} :
    a ∈ (m.unpublish name audience).audiences n ↔ a ∈ m.audiences n ∧ ¬ (n = name ∧ a = audience) := by
  unfold Contents.unpublish
  by_cases hn : n = name
  · subst hn
    simp
  · simp [hn]

theorem mem_foldl_publish {name n a : String} {l : List String} {m : Contents} :
    a ∈ (l.foldl (fun m a => m.publish name a) m).audiences n ↔ a ∈ m.audiences n ∨ name = n ∧ a ∈ l := by
  induction l generalizing m with
  | nil => simp
  | cons b l ih =>
    rw [List.foldl_cons, ih, mem_publish, List.mem_cons]
    constructor
    · rintro ((h | ⟨rfl, rfl⟩) | ⟨rfl, h⟩)
      · exact .inl h
      · exact .inr ⟨rfl, .inl rfl⟩
      · exact .inr ⟨rfl, .inr h⟩
    · rintro (h | ⟨rfl, rfl | h⟩)
      · exact .inl (.inl h)
      · exact .inl (.inr ⟨rfl, rfl⟩)
      · exact .inr ⟨rfl, h⟩

/-- What reading a directory does, when its audiences can be read. -/
theorem readDir_eq_ok {s t : DirStore} {e : String × ContractDir} (h : readDir s e = .ok t) :
    t.disk = s.disk ∧
      t.memory.versions = e.2.loaded.foldl (fun ys r => insertVersion r ys) s.memory.versions ∧
      ∀ n a, a ∈ t.memory.audiences n ↔ a ∈ s.memory.audiences n ∨ decodeName e.1 = n ∧ a ∈ e.2.named := by
  obtain ⟨hdisk, haud, hver⟩ := foldl_readBundle e.1 e.2.files s
  unfold readDir at h
  unfold ContractDir.named
  cases hf : e.2.audiences with
  | none =>
    rw [hf] at h
    obtain rfl := Except.ok.inj h
    refine ⟨hdisk, hver, fun n a => ?_⟩
    rw [haud]
    simp
  | some f =>
    rw [hf] at h
    cases f with
    | torn c => cases h
    | names l =>
      obtain rfl := Except.ok.inj h
      refine ⟨hdisk, ?_, fun n a => ?_⟩
      · rw [versions_foldl_publish]
        exact hver
      · rw [mem_foldl_publish, haud]

/-- A directory fails to open for a torn audience file alone. -/
theorem readDir_fails (s : DirStore) (e : String × ContractDir) :
    (∃ t, readDir s e = .ok t) ↔ ∀ c, e.2.audiences ≠ some (.torn c) := by
  unfold readDir
  cases e.2.audiences with
  | none => exact ⟨fun _ _ => nofun, fun _ => ⟨_, rfl⟩⟩
  | some f =>
    cases f with
    | torn c => exact ⟨fun ⟨_, h⟩ => (nomatch h), fun h => absurd rfl (h c)⟩
    | names l => exact ⟨fun _ _ => nofun, fun _ => ⟨_, rfl⟩⟩

/-! ## All of them -/

/-- What reading the directories one after another does. -/
theorem foldlM_readDir {listed : List (String × ContractDir)} {s t : DirStore}
    (h : listed.foldlM readDir s = .ok t) :
    t.disk = s.disk ∧
      t.memory.versions =
        (listed.flatMap fun e => e.2.loaded).foldl (fun ys r => insertVersion r ys) s.memory.versions ∧
      ∀ n a, a ∈ t.memory.audiences n ↔
        a ∈ s.memory.audiences n ∨ ∃ e ∈ listed, decodeName e.1 = n ∧ a ∈ e.2.named := by
  induction listed generalizing s with
  | nil =>
    obtain rfl := Except.ok.inj h
    exact ⟨rfl, rfl, by simp⟩
  | cons e listed ih =>
    rw [List.foldlM_cons] at h
    obtain ⟨u, hu, h⟩ := bind_eq_ok.1 h
    obtain ⟨hdisk, hver, haud⟩ := readDir_eq_ok hu
    obtain ⟨hdisk', hver', haud'⟩ := ih h
    refine ⟨hdisk'.trans hdisk, ?_, fun n a => ?_⟩
    · rw [List.flatMap_cons, List.foldl_append, ← hver]
      exact hver'
    · rw [haud', haud, or_assoc, List.exists_mem_cons_iff]

/-- So does the store. -/
theorem foldlM_readDir_fails (listed : List (String × ContractDir)) (s : DirStore) :
    (∃ t, listed.foldlM readDir s = .ok t) ↔ ∀ e ∈ listed, ∀ c, e.2.audiences ≠ some (.torn c) := by
  induction listed generalizing s with
  | nil => exact ⟨fun _ _ => nofun, fun _ => ⟨s, rfl⟩⟩
  | cons e listed ih =>
    rw [List.foldlM_cons, List.forall_mem_cons, ← readDir_fails s e]
    constructor
    · rintro ⟨t, ht⟩
      obtain ⟨u, hu, ht⟩ := bind_eq_ok.1 ht
      exact ⟨⟨u, hu⟩, (ih u).1 ⟨t, ht⟩⟩
    · rintro ⟨⟨u, hu⟩, hall⟩
      obtain ⟨t, ht⟩ := (ih u).2 hall
      exact ⟨t, bind_eq_ok.2 ⟨u, hu, ht⟩⟩

namespace ContractDirs

/-- A bundle among the directories opening reads loads as `r`. -/
def Holds (k : ContractDirs) (r : Registered) : Prop := ∃ d v, k.bundle (.child d) v = some (.loads r)

/-- An audience file among them, of a directory read as `name`, names `a`. -/
def Names (k : ContractDirs) (name a : String) : Prop :=
  ∃ d l, decodeName d = name ∧ k.audiences (.child d) = some (.names l) ∧ a ∈ l

/-- No audience file among them is half written. -/
def Whole (k : ContractDirs) : Prop := ∀ d c, k.audiences (.child d) ≠ some (.torn c)

/-- Bundles and audiences are in the directory of their contract, a bundle under its version. -/
structure Placed (k : ContractDirs) : Prop where
  bundles : ∀ p v r, k.bundle p v = some (.loads r) → contractDir r.name = p ∧ r.version = v
  audiences : ∀ d f, k.audiences (.child d) = some f → contractDir (decodeName d) = .child d

/-- One key, one bundle. -/
theorem Placed.eq_of_key {k : ContractDirs} (h : k.Placed) {r r' : Registered} (hr : k.Holds r) (hr' : k.Holds r')
    (hk : r.key = r'.key) : r = r' := by
  obtain ⟨d, v, hb⟩ := hr
  obtain ⟨d', v', hb'⟩ := hr'
  obtain ⟨hname, hversion⟩ := Registered.key_eq.1 hk
  obtain ⟨hd, hv⟩ := h.bundles _ _ _ hb
  obtain ⟨hd', hv'⟩ := h.bundles _ _ _ hb'
  rw [← hd, ← hv, hname, hversion, hd', hv', hb'] at hb
  exact (Bundle.loads.inj (Option.some.inj hb)).symm

/-- The one directory a contract's audiences are read from. -/
theorem Placed.names_iff {k : ContractDirs} (h : k.Placed) {name a d : String} (hd : contractDir name = .child d) :
    k.Names name a ↔ decodeName d = name ∧ ∃ l, k.audiences (.child d) = some (.names l) ∧ a ∈ l := by
  constructor
  · rintro ⟨d', l, rfl, hl, ha⟩
    have hd' := h.audiences d' _ hl
    obtain rfl := Place.child.inj (hd'.symm.trans hd)
    exact ⟨rfl, l, hl, ha⟩
  · rintro ⟨hname, l, hl, ha⟩
    exact ⟨d, l, hname, hl, ha⟩

theorem Placed.empty : Placed ∅ := ⟨fun _ _ _ => nofun, fun _ _ => nofun⟩

/-- A bundle is put where its contract's are. -/
theorem Placed.putBundle {k : ContractDirs} (h : k.Placed) (r : Registered) :
    (k.putBundle (contractDir r.name) r.version (.loads r)).Placed where
  bundles := by
    intro p v r' hb
    rw [bundle_putBundle] at hb
    split at hb
    · next hat =>
      obtain rfl := Bundle.loads.inj (Option.some.inj hb)
      exact ⟨hat.1.symm, hat.2.symm⟩
    · exact h.bundles p v r' hb
  audiences := by
    intro d f hf
    rw [audiences_putBundle] at hf
    exact h.audiences d f hf

/-- So are audiences. -/
theorem Placed.putAudiences {k : ContractDirs} (h : k.Placed) (name : String) (f : AudienceFile) :
    (k.putAudiences (contractDir name) f).Placed where
  bundles := by
    intro p v r hb
    rw [bundle_putAudiences] at hb
    exact h.bundles p v r hb
  audiences := by
    intro d g hg
    rw [audiences_putAudiences] at hg
    split at hg
    · next hd => exact contractDir_decode hd.symm
    · exact h.audiences d g hg

variable {k : ContractDirs} {listed : List (String × ContractDir)}

/-- A directory with a bundle is there. -/
theorem lookup_of_bundle {d : String} {v : Nat} {b : Bundle} (h : k.bundle (.child d) v = some b) :
    k.lookup (.child d) = some (k.dirAt (.child d)) := by
  unfold bundle dirAt at h
  unfold dirAt
  cases hd : k.lookup (.child d) with
  | none =>
    rw [hd] at h
    cases h
  | some c => rfl

theorem lookup_of_audiences {d : String} {f : AudienceFile} (h : k.audiences (.child d) = some f) :
    k.lookup (.child d) = some (k.dirAt (.child d)) := by
  unfold audiences dirAt at h
  unfold dirAt
  cases hd : k.lookup (.child d) with
  | none =>
    rw [hd] at h
    cases h
  | some c => rfl

theorem mem_listed (hl : listed.Perm k.children) {d : String} {c : ContractDir} :
    (d, c) ∈ listed ↔ k.lookup (.child d) = some c := hl.mem_iff.trans mem_children

theorem dirAt_of_listed (hl : listed.Perm k.children) {d : String} {c : ContractDir} (h : (d, c) ∈ listed) :
    k.dirAt (.child d) = c := by
  unfold dirAt
  rw [(mem_listed hl).1 h]
  rfl

/-- What is loaded is what the directories hold. -/
theorem mem_loaded_iff (hl : listed.Perm k.children) {r : Registered} :
    (r ∈ listed.flatMap fun e => e.2.loaded) ↔ k.Holds r := by
  rw [List.mem_flatMap]
  constructor
  · rintro ⟨⟨d, c⟩, he, hr⟩
    obtain ⟨v, hv⟩ := ContractDir.mem_loaded.1 hr
    refine ⟨d, v, ?_⟩
    unfold bundle
    rw [dirAt_of_listed hl he]
    exact hv
  · rintro ⟨d, v, hb⟩
    exact ⟨(d, k.dirAt (.child d)), (mem_listed hl).2 (lookup_of_bundle hb), ContractDir.mem_loaded.2 ⟨v, hb⟩⟩

/-- Who is named is whom they name. -/
theorem exists_named_iff (hl : listed.Perm k.children) {n a : String} :
    (∃ e ∈ listed, decodeName e.1 = n ∧ a ∈ e.2.named) ↔ k.Names n a := by
  constructor
  · rintro ⟨⟨d, c⟩, he, hn, ha⟩
    obtain ⟨l, hl', ha⟩ := ContractDir.mem_named.1 ha
    refine ⟨d, l, hn, ?_, ha⟩
    unfold audiences
    rw [dirAt_of_listed hl he]
    exact hl'
  · rintro ⟨d, l, hn, hf, ha⟩
    exact ⟨(d, k.dirAt (.child d)), (mem_listed hl).2 (lookup_of_audiences hf), hn, ContractDir.mem_named.2 ⟨l, hf, ha⟩⟩

/-- The store opens when no audience file is torn. -/
theorem whole_iff (hl : listed.Perm k.children) :
    (∀ e ∈ listed, ∀ c, e.2.audiences ≠ some (.torn c)) ↔ k.Whole := by
  constructor
  · intro h d c hf
    exact h (d, k.dirAt (.child d)) ((mem_listed hl).2 (lookup_of_audiences hf)) c hf
  · rintro h ⟨d, c⟩ he cause hf
    refine h d cause ?_
    unfold audiences
    rw [dirAt_of_listed hl he]
    exact hf

end ContractDirs

open ContractDirs

/-- Opening succeeds exactly when no audience file is half written. -/
theorem exists_openStore_iff {k : ContractDirs} {listed : List (String × ContractDir)} (hl : listed.Perm k.children) :
    (∃ t, openStore k listed = .ok t) ↔ k.Whole :=
  (foldlM_readDir_fails listed _).trans (whole_iff hl)

/-- The store opened holds what is on disk, in whatever order it was read. -/
theorem openStore_spec {k : ContractDirs} {listed : List (String × ContractDir)} {t : DirStore} (hk : k.Placed)
    (hl : listed.Perm k.children) (h : openStore k listed = .ok t) :
    t.disk = k ∧ (∀ r, r ∈ t.memory.versions ↔ k.Holds r) ∧ ∀ n a, a ∈ t.memory.audiences n ↔ k.Names n a := by
  obtain ⟨hdisk, hver, haud⟩ := foldlM_readDir h
  refine ⟨hdisk, fun r => ?_, fun n a => ?_⟩
  · have honce : ∀ y ∈ listed.flatMap fun e => e.2.loaded, ∀ z ∈ listed.flatMap fun e => e.2.loaded,
        y.key = z.key → y = z := fun y hy z hz =>
      hk.eq_of_key ((mem_loaded_iff hl).1 hy) ((mem_loaded_iff hl).1 hz)
    rw [hver]
    refine (mem_foldl_insertVersion List.Pairwise.nil honce).trans ?_
    rw [mem_loaded_iff hl]
    simp
  · rw [haud, exists_named_iff hl]
    simp [Contents.empty]

/-! ## Every step of a store -/

theorem placed_saveAudiences {s : DirStore} (h : s.disk.Placed) (name : String) (save : Save) :
    (s.saveAudiences name save).1.disk.Placed := by
  cases save with
  | done => exact h.putAudiences name _
  | kept e => exact h
  | torn e cause => exact h.putAudiences name _

/-- A call leaves every file where its contract's files are. -/
theorem DirStep.placed {s t : DirStore} {a : DirAction} (hs : DirStep s a t) (h : s.disk.Placed) : t.disk.Placed := by
  cases hs with
  | puts r fault =>
    cases fault with
    | none => exact h.putBundle r
    | some e => exact h
  | publishes name audience save =>
    have hm : { s with memory := s.memory.publish name audience }.disk.Placed := h
    exact placed_saveAudiences hm name save
  | unpublishes name audience save =>
    have hm : { s with memory := s.memory.unpublish name audience }.disk.Placed := h
    exact placed_saveAudiences hm name save
  | reopens hl ho =>
    rw [(openStore_spec h hl ho).1]
    exact h

end Peql
