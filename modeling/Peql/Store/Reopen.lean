import Peql.Store.Open

/-!
# A store opened again

A store reopens when opening its directory gives, in whatever order it is listed, the versions and the audiences the
store has in memory (`DirStore.Reopens`). It does when the two representations mirror each other, and each call says
exactly when it keeps that (`Meets`): a contract's name must be the one its directory is read as, no other contract's
bundle may be in the way, and a publication whose file is not written must have changed nothing.
-/

namespace Peql

open ContractDirs

/-- The two stores tell every caller the same. -/
structure Contents.Same (m m' : Contents) : Prop where
  versions : m.versions = m'.versions
  current : ∀ name, m.current name = m'.current name
  audiences : ∀ name a, a ∈ m.audiences name ↔ a ∈ m'.audiences name

/-- Opening the directory gives the store back. -/
def DirStore.Reopens (s : DirStore) : Prop :=
  ∀ listed, listed.Perm s.disk.children → ∃ t, openStore s.disk listed = .ok t ∧ t.memory.Same s.memory

/-- When a call leaves a store that reopens so. -/
def Meets (s : DirStore) : DirAction → Prop
  | .puts r none =>
    (∃ d, contractDir r.name = .child d) ∧
      ∀ r', s.disk.bundle (contractDir r.name) r.version = some (.loads r') → r'.name = r.name
  | .puts _ (some _) => True
  | .publishes name _ .done => ∃ d, contractDir name = .child d ∧ decodeName d = name
  | .publishes name audience (.kept _) => audience ∈ s.memory.audiences name
  | .publishes _ _ (.torn _ _) => False
  | .unpublishes name _ .done =>
    ∀ d, contractDir name = .child d → decodeName d = name ∨ s.memory.audiences (decodeName d) = []
  | .unpublishes name audience (.kept _) => audience ∉ s.memory.audiences name
  | .unpublishes name _ (.torn _ _) => ∀ d, contractDir name ≠ .child d
  | .reopens _ => True

/-! ## Memory and disk -/

/-- Memory and disk say the same. -/
structure Mirrors (s : DirStore) : Prop where
  versions : ∀ r, r ∈ s.memory.versions ↔ s.disk.Holds r
  audiences : ∀ name a, a ∈ s.memory.audiences name ↔ s.disk.Names name a
  whole : s.disk.Whole

theorem Contents.same_of_mem {m m' : Contents} (hv : ∀ r, r ∈ m.versions ↔ r ∈ m'.versions)
    (ha : ∀ name a, a ∈ m.audiences name ↔ a ∈ m'.audiences name) : m.Same m' := by
  have hversions : m.versions = m'.versions := m.sorted.eq_of_mem_iff m'.sorted hv
  refine ⟨hversions, fun name => ?_, ha⟩
  unfold Contents.current
  rw [hversions]

/-- A store reopens exactly when memory and disk mirror each other. -/
theorem reopens_iff_mirrors {s : DirStore} (hk : s.disk.Placed) : s.Reopens ↔ Mirrors s := by
  constructor
  · intro h
    obtain ⟨t, ho, hsame⟩ := h s.disk.children (List.Perm.refl _)
    obtain ⟨_, hver, haud⟩ := openStore_spec hk (List.Perm.refl _) ho
    refine ⟨fun r => ?_, fun name a => ?_, (exists_openStore_iff (List.Perm.refl _)).1 ⟨t, ho⟩⟩
    · rw [← hver r, hsame.versions]
    · rw [← haud name a, hsame.audiences]
  · intro h listed hl
    obtain ⟨t, ho⟩ := (exists_openStore_iff hl).2 h.whole
    obtain ⟨_, hver, haud⟩ := openStore_spec hk hl ho
    refine ⟨t, ho, Contents.same_of_mem (fun r => ?_) fun name a => ?_⟩
    · rw [hver r, h.versions r]
    · rw [haud name a, h.audiences name a]

/-- A contract whose directory is not one that opening reads is published to no one. -/
theorem Mirrors.audiences_nil {s : DirStore} (h : Mirrors s) (hk : s.disk.Placed) {name : String}
    (hd : ∀ d, contractDir name = .child d → decodeName d ≠ name) : s.memory.audiences name = [] := by
  apply List.eq_nil_iff_forall_not_mem.2
  intro a ha
  obtain ⟨d, l, hname, hl, _⟩ := (h.audiences name a).1 ha
  have hd' := hk.audiences d _ hl
  rw [hname] at hd'
  exact hd d hd' hname

/-! ## A version is put -/

theorem holds_putBundle {k : ContractDirs} {r r' : Registered} {d : String} (hk : k.Placed)
    (hd : contractDir r.name = .child d) :
    (k.putBundle (.child d) r.version (.loads r)).Holds r' ↔
      r' = r ∨ k.Holds r' ∧ ¬ (contractDir r'.name = .child d ∧ r'.version = r.version) := by
  constructor
  · rintro ⟨d', v, hb⟩
    rw [bundle_putBundle] at hb
    split at hb
    · exact .inl (Bundle.loads.inj (Option.some.inj hb)).symm
    · next hne =>
      obtain ⟨hd', hv⟩ := hk.bundles _ _ _ hb
      refine .inr ⟨⟨d', v, hb⟩, fun hat => hne ?_⟩
      exact ⟨hd'.symm.trans hat.1, hv.symm.trans hat.2⟩
  · rintro (rfl | ⟨⟨d', v, hb⟩, hne⟩)
    · refine ⟨d, r'.version, ?_⟩
      rw [bundle_putBundle, if_pos ⟨rfl, rfl⟩]
    · obtain ⟨hd', hv⟩ := hk.bundles _ _ _ hb
      refine ⟨d', v, ?_⟩
      rw [bundle_putBundle, if_neg]
      · exact hb
      · rintro ⟨hat, rfl⟩
        exact hne ⟨hd'.trans hat, hv⟩

theorem holds_putBundle_other {k : ContractDirs} {r : Registered} {p : Place} {v : Nat} {b : Bundle}
    (hp : ∀ d, p ≠ .child d) : (k.putBundle p v b).Holds r ↔ k.Holds r := by
  unfold Holds
  refine exists_congr fun d => exists_congr fun w => ?_
  rw [bundle_putBundle, if_neg fun h => hp d h.1.symm]

/-- A version put keeps the mirror when its directory is read, and no other contract's bundle gives way to it. -/
theorem mirrors_put_iff {s : DirStore} (hk : s.disk.Placed) (h : Mirrors s) (r : Registered) :
    Mirrors (s.put r none).1 ↔ Meets s (.puts r none) := by
  have hmem : ∀ r', r' ∈ (s.put r none).1.memory.versions ↔ r' = r ∨ s.disk.Holds r' ∧ r'.key ≠ r.key := fun r' => by
    rw [← h.versions r']
    exact Contents.mem_put_iff
  have hholds : ∀ d, contractDir r.name = .child d → ∀ r', (s.put r none).1.disk.Holds r' ↔
      r' = r ∨ s.disk.Holds r' ∧ ¬ (contractDir r'.name = .child d ∧ r'.version = r.version) := fun d hd r' => by
    have hb : (s.disk.putBundle (.child d) r.version (.loads r)).Holds r' ↔ _ := holds_putBundle hk hd
    rw [← hd] at hb ⊢
    exact hb
  constructor
  · intro h'
    obtain ⟨d, hd⟩ : ∃ d, contractDir r.name = .child d := by
      by_contra hnone
      have hput := (h'.versions r).1 ((hmem r).2 (.inl rfl))
      have hold : s.disk.Holds r := (holds_putBundle_other fun d hd => hnone ⟨d, hd⟩).1 hput
      obtain ⟨d, v, hb⟩ := hold
      exact hnone ⟨d, (hk.bundles _ _ _ hb).1⟩
    refine ⟨⟨d, hd⟩, fun r' hb => ?_⟩
    by_contra hne
    -- The bundle written over is in memory still, and nowhere on disk.
    obtain ⟨hplace, hversion⟩ := hk.bundles _ _ _ hb
    have hold : s.disk.Holds r' := ⟨d, r.version, hd ▸ hb⟩
    have hin : r' ∈ (s.put r none).1.memory.versions :=
      (hmem r').2 (.inr ⟨hold, fun hkey => hne (Registered.key_eq.1 hkey).1⟩)
    rcases (hholds d hd r').1 ((h'.versions r').1 hin) with rfl | ⟨_, hapart⟩
    · exact hne rfl
    · exact hapart ⟨hplace.trans hd, hversion⟩
  · rintro ⟨⟨d, hd⟩, hfree⟩
    refine ⟨fun r' => ?_, fun name a => ?_, fun d' c => ?_⟩
    · rw [hmem r', hholds d hd r']
      refine or_congr_right (and_congr_right fun hold => not_congr ?_)
      rw [Registered.key_eq]
      constructor
      · rintro ⟨hname, hversion⟩
        exact ⟨hname ▸ hd, hversion⟩
      · rintro ⟨hplace, hversion⟩
        obtain ⟨d', v, hb⟩ := hold
        obtain ⟨hplace', hv⟩ := hk.bundles _ _ _ hb
        refine ⟨hfree r' ?_, hversion⟩
        rw [hd, ← hplace, hplace', ← hversion, hv]
        exact hb
    · have hsame : (s.put r none).1.disk.Names name a ↔ s.disk.Names name a := by
        unfold Names DirStore.put
        simp only [audiences_putBundle]
      rw [hsame]
      exact h.audiences name a
    · unfold DirStore.put
      rw [audiences_putBundle]
      exact h.whole d' c

/-! ## Audiences are saved -/

theorem holds_putAudiences {k : ContractDirs} {p : Place} {f : AudienceFile} {r : Registered} :
    (k.putAudiences p f).Holds r ↔ k.Holds r := by
  unfold Holds
  simp only [bundle_putAudiences]

/-- Audiences written in a directory are read as those of the contract it is read as. -/
theorem names_putAudiences {k : ContractDirs} {name n a d : String} {l : List String} (hk : k.Placed)
    (hd : contractDir name = .child d) :
    (k.putAudiences (.child d) (.names l)).Names n a ↔ if decodeName d = n then a ∈ l else k.Names n a := by
  have hk' : (k.putAudiences (.child d) (.names l)).Placed := hd ▸ hk.putAudiences name (.names l)
  split
  · next hn =>
    have hplace : contractDir n = .child d := hn ▸ contractDir_decode hd
    rw [hk'.names_iff hplace, audiences_putAudiences, if_pos rfl]
    constructor
    · rintro ⟨_, l', hl, ha⟩
      obtain rfl := AudienceFile.names.inj (Option.some.inj hl)
      exact ha
    · intro ha
      exact ⟨hn, l, rfl, ha⟩
  · next hn =>
    refine exists_congr fun d' => exists_congr fun l' => and_congr_right fun hn' => ?_
    have hne : Place.child d' ≠ .child d := fun heq => hn (Place.child.inj heq ▸ hn')
    rw [audiences_putAudiences, if_neg hne]

theorem names_putAudiences_other {k : ContractDirs} {p : Place} {f : AudienceFile} {n a : String}
    (hp : ∀ d, p ≠ .child d) : (k.putAudiences p f).Names n a ↔ k.Names n a := by
  refine exists_congr fun d' => exists_congr fun l' => and_congr_right fun _ => ?_
  rw [audiences_putAudiences, if_neg (hp d').symm]

theorem whole_putAudiences_other {k : ContractDirs} {p : Place} {f : AudienceFile} (hp : ∀ d, p ≠ .child d)
    (h : k.Whole) : (k.putAudiences p f).Whole := by
  intro d c
  rw [audiences_putAudiences, if_neg (hp d).symm]
  exact h d c

theorem whole_putAudiences {k : ContractDirs} {p : Place} {l : List String} (h : k.Whole) :
    (k.putAudiences p (.names l)).Whole := by
  intro d c
  rw [audiences_putAudiences]
  split
  · exact nofun
  · exact h d c

/-- A store whose directories and versions are those of `s` mirrors them when its audiences do. -/
theorem mirrors_of_disk {s t : DirStore} (h : Mirrors s) (hd : t.disk = s.disk)
    (hv : t.memory.versions = s.memory.versions) :
    Mirrors t ↔ ∀ name a, a ∈ t.memory.audiences name ↔ a ∈ s.memory.audiences name := by
  constructor
  · intro h' name a
    rw [h'.audiences, hd, ← h.audiences]
  · intro ha
    refine ⟨fun r => ?_, fun name a => ?_, ?_⟩
    · rw [hv, hd]
      exact h.versions r
    · rw [ha, hd]
      exact h.audiences name a
    · rw [hd]
      exact h.whole

/-- A publication keeps the mirror when it is written where it is read, or says nothing new. -/
theorem mirrors_publish_iff {s : DirStore} (hk : s.disk.Placed) (h : Mirrors s) (name audience : String) (save : Save) :
    Mirrors (s.publish name audience save).1 ↔ Meets s (.publishes name audience save) := by
  have hin : audience ∈ (s.memory.publish name audience).audiences name := mem_publish.2 (.inr ⟨rfl, rfl⟩)
  cases save with
  | done =>
    constructor
    · intro h'
      obtain ⟨d, l, hname, hl, _⟩ := (h'.audiences name audience).1 hin
      have hd := (hk.putAudiences name _).audiences d _ hl
      rw [hname] at hd
      exact ⟨d, hd, hname⟩
    · rintro ⟨d, hd, hname⟩
      refine ⟨fun r => (h.versions r).trans holds_putAudiences.symm, fun n a => ?_, whole_putAudiences h.whole⟩
      have hsaved := names_putAudiences (n := n) (a := a) (l := (s.memory.publish name audience).audiences name) hk hd
      rw [hname] at hsaved
      unfold DirStore.publish DirStore.saveAudiences
      simp only [hd]
      rw [hsaved]
      split
      · next hn => rw [hn]
      · next hn =>
        rw [← h.audiences n a, mem_publish]
        exact or_iff_left fun hat => hn hat.1.symm
  | kept e =>
    have hmirror : Mirrors (s.publish name audience (.kept e)).1 ↔
        ∀ n a, a ∈ (s.memory.publish name audience).audiences n ↔ a ∈ s.memory.audiences n :=
      mirrors_of_disk h rfl rfl
    rw [hmirror]
    constructor
    · intro hall
      exact (hall name audience).1 hin
    · intro hold n a
      refine mem_publish.trans (or_iff_left_of_imp ?_)
      rintro ⟨rfl, rfl⟩
      exact hold
  | torn e cause =>
    refine iff_of_false (fun h' => ?_) id
    obtain ⟨d, l, hname, hl, _⟩ := (h'.audiences name audience).1 hin
    have hd := (hk.putAudiences name _).audiences d _ hl
    rw [hname] at hd
    refine h'.whole d cause ?_
    unfold DirStore.publish DirStore.saveAudiences
    simp only [hd]
    rw [audiences_putAudiences, if_pos rfl]

/-- A withdrawal keeps the mirror when it is written where it is read, or takes nothing away. -/
theorem mirrors_unpublish_iff {s : DirStore} (hk : s.disk.Placed) (h : Mirrors s) (name audience : String)
    (save : Save) : Mirrors (s.unpublish name audience save).1 ↔ Meets s (.unpublishes name audience save) := by
  have hout : ∀ n a, s.memory.audiences name = [] →
      (a ∈ (s.memory.unpublish name audience).audiences n ↔ a ∈ s.memory.audiences n) := by
    intro n a hnil
    refine mem_unpublish.trans (and_iff_left_of_imp ?_)
    rintro ha ⟨rfl, rfl⟩
    rw [hnil] at ha
    cases ha
  cases save with
  | done =>
    by_cases hplace : ∃ d, contractDir name = .child d
    · obtain ⟨d, hd⟩ := hplace
      have hmirror : Mirrors (s.unpublish name audience .done).1 ↔
          ∀ n a, a ∈ (s.memory.unpublish name audience).audiences n ↔
            if decodeName d = n then a ∈ (s.memory.unpublish name audience).audiences name
            else a ∈ s.memory.audiences n := by
        have hsaved := fun n a =>
          names_putAudiences (n := n) (a := a) (l := (s.memory.unpublish name audience).audiences name) hk hd
        unfold DirStore.unpublish DirStore.saveAudiences
        simp only [hd]
        constructor
        · intro h' n a
          rw [h'.audiences n a, h.audiences n a]
          exact hsaved n a
        · intro hall
          refine ⟨fun r => (h.versions r).trans holds_putAudiences.symm, fun n a => ?_, whole_putAudiences h.whole⟩
          rw [hsaved n a, ← h.audiences n a]
          exact hall n a
      rw [hmirror]
      constructor
      · intro hall d' hd'
        obtain rfl := Place.child.inj (hd.symm.trans hd')
        by_cases hname : decodeName d = name
        · exact .inl hname
        · right
          have hnil := h.audiences_nil hk fun d' hd' => (Place.child.inj (hd'.symm.trans hd)) ▸ hname
          apply List.eq_nil_iff_forall_not_mem.2
          intro a ha
          have hread := (hall (decodeName d) a).1 ((hout _ a hnil).2 ha)
          rw [if_pos rfl, hout name a hnil, hnil] at hread
          cases hread
      · intro hmeets n a
        rcases hmeets d hd with hname | hnil
        · split
          · next hn => rw [← hn, hname]
          · next hn =>
            refine mem_unpublish.trans (and_iff_left_of_imp ?_)
            rintro _ ⟨rfl, _⟩
            exact hn hname
        · by_cases hname : decodeName d = name
          · rw [hname] at hnil
            split
            · next hn => rw [← hn, hname]
            · exact hout n a hnil
          · have hnil' := h.audiences_nil hk fun d' hd' => (Place.child.inj (hd'.symm.trans hd)) ▸ hname
            rw [hout n a hnil']
            split
            · next hn => rw [hout name a hnil', hnil', ← hn, hnil]
            · rfl
    · have hother : ∀ d, contractDir name ≠ .child d := fun d hd => hplace ⟨d, hd⟩
      have hnil := h.audiences_nil hk fun d hd => absurd hd (hother d)
      refine iff_of_true ?_ fun d hd => absurd hd (hother d)
      refine ⟨fun r => (h.versions r).trans holds_putAudiences.symm, fun n a => ?_, whole_putAudiences h.whole⟩
      exact (hout n a hnil).trans ((h.audiences n a).trans (names_putAudiences_other hother).symm)
  | kept e =>
    have hmirror : Mirrors (s.unpublish name audience (.kept e)).1 ↔
        ∀ n a, a ∈ (s.memory.unpublish name audience).audiences n ↔ a ∈ s.memory.audiences n :=
      mirrors_of_disk h rfl rfl
    rw [hmirror]
    constructor
    · intro hall hin
      exact (mem_unpublish.1 ((hall name audience).2 hin)).2 ⟨rfl, rfl⟩
    · intro hold n a
      refine mem_unpublish.trans (and_iff_left_of_imp ?_)
      rintro ha ⟨rfl, rfl⟩
      exact hold ha
  | torn e cause =>
    constructor
    · intro h' d hd
      refine h'.whole d cause ?_
      unfold DirStore.unpublish DirStore.saveAudiences
      simp only [hd]
      rw [audiences_putAudiences, if_pos rfl]
    · intro hother
      have hnil := h.audiences_nil hk fun d hd => absurd hd (hother d)
      refine ⟨fun r => (h.versions r).trans holds_putAudiences.symm, fun n a => ?_,
        whole_putAudiences_other hother h.whole⟩
      exact (hout n a hnil).trans ((h.audiences n a).trans (names_putAudiences_other hother).symm)

/-! ## Every run -/

/-- From a store that reopens, a call leads to one that does exactly when it meets its condition. -/
theorem DirStep.reopens_iff {s t : DirStore} {a : DirAction} (hk : s.disk.Placed) (h : s.Reopens) (hs : DirStep s a t) :
    t.Reopens ↔ Meets s a := by
  have hm := (reopens_iff_mirrors hk).1 h
  have hk' := hs.placed hk
  cases hs with
  | puts r fault =>
    cases fault with
    | some e => exact iff_of_true h trivial
    | none => exact (reopens_iff_mirrors hk').trans (mirrors_put_iff hk hm r)
  | publishes name audience save => exact (reopens_iff_mirrors hk').trans (mirrors_publish_iff hk hm name audience save)
  | unpublishes name audience save =>
    exact (reopens_iff_mirrors hk').trans (mirrors_unpublish_iff hk hm name audience save)
  | reopens hl ho =>
    refine iff_of_true ((reopens_iff_mirrors hk').2 ?_) trivial
    obtain ⟨hdisk, hver, haud⟩ := openStore_spec hk hl ho
    refine ⟨fun r => ?_, fun name a => ?_, ?_⟩
    · rw [hver, hdisk]
    · rw [haud, hdisk]
    · rw [hdisk]
      exact hm.whole

theorem new_reopens : DirStore.new.Reopens := by
  refine (reopens_iff_mirrors Placed.empty).2 ⟨fun r => ?_, fun name a => ?_, fun _ _ => nofun⟩
  · exact iff_of_false List.not_mem_nil fun ⟨_, _, hb⟩ => (nomatch hb)
  · exact iff_of_false List.not_mem_nil fun ⟨_, _, _, hf, _⟩ => (nomatch hf)

/-- Every state a run of a new store goes through reopens exactly when every call of the run meets its condition. -/
theorem reopens_iff_meets {s : DirStore} {as : List DirAction} (h : Runs.Run DirStep DirStore.new as s) :
    (∀ bs u, bs <+: as → Runs.Run DirStep DirStore.new bs u → u.Reopens) ↔
      Runs.Run (Runs.Guarded Meets DirStep) DirStore.new as s := by
  have hdet : ∀ s a t t', DirStep s a t → DirStep s a t' → t = t' := fun _ _ _ _ hs hs' => hs.eq hs'
  have hplaced : ∀ s a t, s.disk.Placed → DirStep s a t → t.disk.Placed := fun _ _ _ hk hs => hs.placed hk
  exact (h.guarded_iff hdet hplaced (fun _ _ _ hk hr hs => hs.reopens_iff hk hr) Placed.empty new_reopens).symm

/-! ## A contract published, and withdrawn -/

def euContract (version : Nat) : Registered where
  compilation :=
    { contract :=
        { name := "acme/eu", version := version, owner := none, source := .parquet "data/eu", contractHash := "c",
          compilationHash := "h", functions := [], decisions := [], rowSchema := [], enrich := [], admits := [],
          admitsStored := [], projection := [], projectionStored := [], flags := [], derived := [], guarantees := [],
          exposedSchema := [] }
      write := ⟨[], []⟩
      validation := ⟨[], [], []⟩ }

theorem euContract_dir (version : Nat) : contractDir (euContract version).name = .child "acme__eu" := by
  have h : contractDir "acme/eu" = .child "acme__eu" := by decide
  exact h

/-- Put, published, and withdrawn, with nothing failing but another put. -/
theorem withdrawn_reopens :
    let s₁ := (DirStore.new.put (euContract 1) none).1
    let s₂ := (s₁.publish "acme/eu" "beta" .done).1
    let s₃ := (s₂.unpublish "acme/eu" "beta" .done).1
    Runs.Run DirStep DirStore.new
        [.puts (euContract 1) none, .publishes "acme/eu" "beta" .done, .unpublishes "acme/eu" "beta" .done,
          .puts (euContract 2) (some (.io "no space"))] s₃ ∧
      ∀ bs u, bs <+: [.puts (euContract 1) none, .publishes "acme/eu" "beta" .done,
          .unpublishes "acme/eu" "beta" .done, .puts (euContract 2) (some (.io "no space"))] →
        Runs.Run DirStep DirStore.new bs u → u.Reopens := by
  intro s₁ s₂ s₃
  have hrun : Runs.Run (Runs.Guarded Meets DirStep) DirStore.new
      [.puts (euContract 1) none, .publishes "acme/eu" "beta" .done, .unpublishes "acme/eu" "beta" .done,
        .puts (euContract 2) (some (.io "no space"))] s₃ := by
    refine .cons ⟨⟨⟨"acme__eu", euContract_dir 1⟩, fun _ hb => (nomatch hb)⟩, .puts _ _ _⟩ ?_
    refine .cons ⟨⟨"acme__eu", euContract_dir 1, by decide⟩, .publishes _ _ _ _⟩ ?_
    refine .cons ⟨fun d hd => .inl ?_, .unpublishes _ _ _ _⟩ ?_
    · rw [contractDir_child hd]
      decide
    · exact .cons ⟨trivial, .puts _ _ _⟩ (.nil s₃)
  exact ⟨hrun.of_guarded, (reopens_iff_meets hrun.of_guarded).2 hrun⟩

/-- Withdrawn, and the file not written: another process finds it published. -/
theorem withdrawn_not_written :
    ∃ s, Runs.Run DirStep DirStore.new
        [.puts (euContract 1) none, .publishes "acme/eu" "beta" .done,
          .unpublishes "acme/eu" "beta" (.kept (.io "no space"))] s ∧ ¬ s.Reopens := by
  let s₁ := (DirStore.new.put (euContract 1) none).1
  let s₂ := (s₁.publish "acme/eu" "beta" .done).1
  let s₃ := (s₂.unpublish "acme/eu" "beta" (.kept (.io "no space"))).1
  have hrun : Runs.Run DirStep DirStore.new
      [.puts (euContract 1) none, .publishes "acme/eu" "beta" .done,
        .unpublishes "acme/eu" "beta" (.kept (.io "no space"))] s₃ :=
    .cons (.puts _ _ _) (.cons (.publishes _ _ _ _) (.cons (.unpublishes _ _ _ _) (.nil s₃)))
  refine ⟨s₃, hrun, fun h => ?_⟩
  have hplaced := hrun.inv (fun _ _ _ hk hs => DirStep.placed hs hk) Placed.empty
  have hmirrors := (reopens_iff_mirrors hplaced).1 h
  have hnames : s₃.disk.Names "acme/eu" "beta" := ⟨"acme__eu", ["beta"], by decide, rfl, List.mem_cons_self⟩
  have hmem : "beta" ∈ s₃.memory.audiences "acme/eu" := (hmirrors.audiences _ _).2 hnames
  exact absurd hmem (by decide)

end Peql
