import Mathlib.Data.List.TakeWhile
import Peql.Publish.Write

/-!
# What a write leaves

A write to files makes its changes in one order: the old files deleted, the new ones moved, the contracts recorded. It
leaves those before the first that fails (`made`), and nothing of one that is not prepared. What is stored afterwards
is read off that prefix, for a write that ends at any of its steps (`finishWrite_left`).
-/

namespace Peql

open Effects

/-! ## Operations in turn -/

/-- Whether an operation is done. -/
def goes (fails : PublishStep → Option PeqlError) (step : PublishStep) : Bool := (fails step).isNone

section Each

variable {fails : PublishStep → Option PeqlError} {α : Type} {step : α → PublishStep} {f : α → Disk → Disk}

/-- A step that goes is done. -/
theorem does_goes {s : PublishStep} {g : Disk → Disk} (h : goes fails s = true) (d : Disk) :
    does fails s g d = .ok ⟨⟩ (g d) := by
  unfold does
  rw [Option.isNone_iff_eq_none.1 h]
  rfl

/-- One that does not leaves the disk. -/
theorem does_stops {s : PublishStep} {g : Disk → Disk} (h : goes fails s = false) (d : Disk) :
    ∃ e, does fails s g d = .error e d := by
  unfold does
  cases hs : fails s with
  | some e => exact ⟨e, rfl⟩
  | none => simp [goes, hs] at h

/-- When none fails, each is done. -/
theorem each_goes {as : List α} (h : ∀ a ∈ as, goes fails (step a) = true) (d : Disk) :
    each fails step f as d = .ok ⟨⟩ (as.foldl (fun d a => f a d) d) := by
  induction as generalizing d with
  | nil => rfl
  | cons a as ih =>
    have ha := h a (List.mem_cons_self ..)
    unfold each
    rw [bind_apply, does_goes ha]
    exact ih (fun b hb => h b (List.mem_cons_of_mem a hb)) (f a d)

/-- When one fails, those before it are done. -/
theorem each_stops {as : List α} (h : ¬ ∀ a ∈ as, goes fails (step a) = true) (d : Disk) :
    ∃ e, each fails step f as d =
      .error e ((as.takeWhile fun a => goes fails (step a)).foldl (fun d a => f a d) d) := by
  induction as generalizing d with
  | nil => exact absurd (fun a ha => absurd ha List.not_mem_nil) h
  | cons a as ih =>
    unfold each
    rw [bind_apply]
    cases ha : goes fails (step a) with
    | false =>
      obtain ⟨e, he⟩ := does_stops (g := f a) ha d
      rw [he, List.takeWhile_cons_of_neg (by simp [ha])]
      exact ⟨e, rfl⟩
    | true =>
      have htake : ((a :: as).takeWhile fun a => goes fails (step a)) =
          a :: as.takeWhile fun a => goes fails (step a) :=
        List.takeWhile_cons_of_pos ha
      rw [does_goes ha, htake]
      refine ih (fun hall => h fun b hb => ?_) (f a d)
      rcases List.mem_cons.1 hb with rfl | hb
      · exact ha
      · exact hall b hb

/-- Where all of them are done, all go. -/
theorem goes_of_each {as : List α} {d d' : Disk} (h : each fails step f as d = .ok ⟨⟩ d') :
    ∀ a ∈ as, goes fails (step a) = true := by
  by_contra hnot
  obtain ⟨e, he⟩ := each_stops (f := f) hnot d
  rw [he] at h
  cases h

end Each

/-- A prefix of things told apart by `g` is what it has of them. -/
theorem prefix_eq_filter {α β : Type} [DecidableEq β] {g : α → β} {xs ys : List α} (h : xs <+: ys)
    (hdistinct : (ys.map g).Nodup) : (ys.filter fun y => g y ∈ xs.map g) = xs := by
  obtain ⟨zs, rfl⟩ := h
  rw [List.map_append, List.nodup_append'] at hdistinct
  have hxs : (xs.filter fun y => g y ∈ xs.map g) = xs :=
    List.filter_eq_self.2 fun x hx => decide_eq_true (List.mem_map_of_mem hx)
  have hzs : (zs.filter fun y => g y ∈ xs.map g) = [] :=
    List.filter_eq_nil_iff.2 fun z hz hmem => hdistinct.2.2 (of_decide_eq_true hmem) (List.mem_map_of_mem hz)
  rw [List.filter_append, hxs, hzs, List.append_nil]

theorem takeWhile_append_of_not {α : Type} {p : α → Bool} {xs : List α} (h : ¬ ∀ a ∈ xs, p a = true) (ys : List α) :
    (xs ++ ys).takeWhile p = xs.takeWhile p := by
  induction xs with
  | nil => exact absurd (fun a ha => absurd ha List.not_mem_nil) h
  | cons x xs ih =>
    cases hx : p x with
    | false => simp [hx]
    | true =>
      rw [List.cons_append, List.takeWhile_cons_of_pos hx, List.takeWhile_cons_of_pos hx, ih]
      intro hall
      apply h
      intro a ha
      rcases List.mem_cons.1 ha with rfl | ha
      · exact hx
      · exact hall a ha

/-! ## Trees changed in turn -/

namespace Tree

variable {t : Tree}

/-- Deleting leaves the other files. -/
theorem files_deletes (as : List Address) (t : Tree) :
    (as.foldl delete t).files = t.files.filter fun f => f.1 ∉ as := by
  induction as generalizing t with
  | nil => simp
  | cons a as ih =>
    rw [List.foldl_cons, ih (t.delete a)]
    unfold delete
    rw [List.filter_filter]
    refine List.filter_congr fun f _ => ?_
    simp [not_or, Bool.and_comm]

/-- It leaves the manifests. -/
theorem manifests_deletes (as : List Address) (t : Tree) : (as.foldl delete t).manifests = t.manifests := by
  induction as generalizing t with
  | nil => rfl
  | cons a as ih => exact ih (t.delete a)

/-- Files put where there are none, each in a place of its own, are there beside those that were. -/
theorem files_puts {fs : List (Address × StoredFile)} (hdistinct : (fs.map Prod.fst).Nodup)
    (hfree : ∀ f ∈ fs, ∀ g ∈ t.files, g.1 ≠ f.1) : (fs.foldl put t).files = t.files ++ fs := by
  induction fs generalizing t with
  | nil => simp
  | cons f fs ih =>
    rw [List.map_cons, List.nodup_cons] at hdistinct
    have hput : (t.put f).files = t.files ++ [f] := by
      unfold put
      have hkept : (t.files.filter fun g => g.1 ≠ f.1) = t.files :=
        List.filter_eq_self.2 fun g hg => decide_eq_true (hfree f (List.mem_cons_self ..) g hg)
      rw [hkept]
    rw [List.foldl_cons, ih hdistinct.2, hput, List.append_assoc]
    · rfl
    · intro f' hf' g hg
      rw [hput, List.mem_append, List.mem_singleton] at hg
      rcases hg with hg | rfl
      · exact hfree f' (List.mem_cons_of_mem f hf') g hg
      · intro heq
        exact hdistinct.1 (heq ▸ List.mem_map_of_mem hf')

/-- Files put leave the manifests. -/
theorem manifests_puts (fs : List (Address × StoredFile)) (t : Tree) : (fs.foldl put t).manifests = t.manifests := by
  induction fs generalizing t with
  | nil => rfl
  | cons f fs ih => exact ih (t.put f)

section Records

variable {α : Type} (root : Address) (name : α → String) (left : α → Option Manifest)

/-- Recording leaves the files. -/
theorem files_records (rs : List α) (t : Tree) :
    (rs.foldl (fun t r => t.record root (name r) (left r)) t).files = t.files := by
  induction rs generalizing t with
  | nil => rfl
  | cons r rs ih => exact ih (t.record root (name r) (left r))

/-- What is recorded of a contract at the root is what was recorded last under the file it is kept in. -/
theorem recorded_records {rs : List α} (hname : ∀ r ∈ rs, ∀ m, left r = some m → m.contract = name r) (t : Tree)
    (contract : String) :
    (rs.foldl (fun t r => t.record root (name r) (left r)) t).recorded root contract =
      match (rs.filter fun r => manifestFile (name r) = manifestFile contract).getLast? with
      | some r => .ofOption (left r)
      | none => t.recorded root contract := by
  induction rs using List.reverseRecOn with
  | nil => rfl
  | append_singleton rs r ih =>
    have ih := ih fun r' hr' => hname r' (List.mem_append_left _ hr')
    rw [List.foldl_append, List.foldl_cons, List.foldl_nil,
      recorded_record (hname r (List.mem_append_right _ (List.mem_singleton_self r))), List.filter_append]
    by_cases hfile : manifestFile (name r) = manifestFile contract
    · rw [if_pos hfile.symm, List.filter_cons_of_pos (by simpa using hfile)]
      simp
    · rw [if_neg (fun h => hfile h.symm), List.filter_cons_of_neg (by simpa using hfile), ih]
      simp

/-- It leaves what is recorded elsewhere. -/
theorem recorded_records_of_ne {root' : Address} (h : root' ≠ root) (rs : List α) (t : Tree) (contract : String) :
    (rs.foldl (fun t r => t.record root (name r) (left r)) t).recorded root' contract = t.recorded root' contract := by
  induction rs generalizing t with
  | nil => rfl
  | cons r rs ih => exact (ih (t.record root (name r) (left r))).trans (recorded_record_of_ne h _ _ _)

end Records

end Tree

/-! ## What is left of a write -/

namespace Writing

section

variable [ObjectPaths] (R : Runtime) (fails : PublishStep → Option PeqlError) (w : Writing) (store : Contents)
  (location : CompiledContract → Option Address) (writtenAt : Int) (t : Tree)

/-- The staged files have paths of their own, and neither a file's name nor the one it gets is of a file there was. -/
structure Fresh : Prop where
  named : ∀ f ∈ w.staged, f.1 ≠ []
  plain : ∀ f ∈ w.staged, ∀ part ∈ f.1, PlainPart part
  distinct : (w.staged.map fun f => relativePath f.1).Nodup
  unused : ∀ f ∈ w.staged, ∀ g ∈ t.files, g.1 ≠ w.dest f.1
  unlisted : ∀ f ∈ w.staged, ∀ g ∈ t.listFiles w.place, w.place.nameUnder g.1 ≠ relativePath f.1
  unlanded : ∀ f ∈ w.staged, ∀ g ∈ t.listFiles w.place, w.place.nameUnder g.1 ≠ w.place.nameUnder (w.dest f.1)

/-- What a write changes, in its order. -/
def changes (old : List Address) (bound : List Registered) : List PublishStep :=
  old.map .deletes ++ (w.staged.map fun f => .moves (w.dest f.1)) ++ bound.map fun r => .records r.name

/-- The changes made in publishing: those before the first that fails, once what is needed of the files is read. -/
def published (bound : List Registered) : List PublishStep :=
  match bound.mapM (w.before fails t), w.oldFiles fails t with
  | .ok _, .ok old => (w.changes old bound).takeWhile (goes fails)
  | _, _ => []

/-- The changes a write makes. -/
def made : List PublishStep :=
  match w.prepare R (w.bound store location) writtenAt with
  | .ok _ => w.published fails t (w.bound store location)
  | .error _ => []

/-- What a contract knew of the data before the write. -/
def knew (r : Registered) : Before :=
  match w.written with
  | .overwrite => some none
  | _ =>
    match t.recorded w.place r.name with
    | .facts m => some (some m)
    | _ => if (t.listFiles w.place).isEmpty then some none else none

/-- The entries its facts after the write carry on: none, when what it knew is of another compilation, or nothing. -/
def carried (r : Registered) : Option (List FileEntry) :=
  match w.knew t r with
  | none => none
  | some none => some []
  | some (some b) => if b.compilationHash = r.compilation.contract.compilationHash then some b.files else none

/-- What a contract knows after the write. -/
def leaves (r : Registered) : Option Manifest :=
  match w.writeFacts R r.compilation writtenAt with
  | .error _ => none
  | .ok (_, facts) =>
    match factsAfter R r facts writtenAt (w.knew t r) with
    | .error _ => none
    | .ok after => after

/-- The contract whose record is the last made in the file that `contract` is kept in. -/
def lastIn (done : List PublishStep) (bound : List Registered) (contract : String) : Option Registered :=
  (bound.filter fun r => PublishStep.records r.name ∈ done ∧ manifestFile r.name = manifestFile contract).getLast?

end

variable {R : Runtime} {fails : PublishStep → Option PeqlError} {w : Writing} {store : Contents}
  {location : CompiledContract → Option Address} {writtenAt : Int} {t : Tree}

/-! ### What is computed and read first -/

theorem looks_ok {α : Type} {step : PublishStep} {r : Except PeqlError α} {a : α} (h : looks fails step r = .ok a) :
    r = .ok a := by
  unfold looks at h
  cases hs : fails step with
  | some e =>
    rw [hs] at h
    cases h
  | none =>
    rw [hs] at h
    exact h

/-- A manifest is loaded when facts are recorded, and only then. -/
theorem loaded {name : String} {known : Option Manifest}
    (h : (match w.place.backend with
      | .localFiles => (t.dirAt w.place).load name
      | .object _ => (t.dirAt w.place).loadObject name) = .ok known) :
    match t.recorded w.place name with
    | .facts m => known = some m
    | _ => known = none := by
  have hdir : (t.dirAt w.place).recorded name = t.recorded w.place name := rfl
  cases hb : w.place.backend with
  | localFiles =>
    rw [hb] at h
    dsimp only at h
    unfold Dir.load at h
    rw [hdir] at h
    cases hr : t.recorded w.place name with
    | facts m =>
      rw [hr] at h
      exact (Except.ok.inj h).symm
    | absent | otherFormat =>
      rw [hr] at h
      exact (Except.ok.inj h).symm
    | corrupt cause =>
      rw [hr] at h
      cases h
  | object url =>
    rw [hb] at h
    dsimp only at h
    unfold Dir.loadObject at h
    rw [hdir] at h
    cases hr : t.recorded w.place name with
    | facts m =>
      rw [hr] at h
      exact (Except.ok.inj h).symm
    | absent | otherFormat =>
      rw [hr] at h
      exact (Except.ok.inj h).symm
    | corrupt cause =>
      rw [hr] at h
      cases h

/-- What a write finds of the data before it is what it knew. -/
theorem before_ok {r : Registered} {b : Before} (h : w.before fails t r = .ok b) : b = w.knew t r := by
  unfold before at h
  unfold knew
  cases hw : w.written with
  | overwrite =>
    rw [hw] at h
    exact (Except.ok.inj h).symm
  | append | rewrite =>
    rw [hw] at h
    obtain ⟨known, hknown, hrest⟩ := Peql.bind_eq_ok.1 h
    have hloaded := loaded (looks_ok hknown)
    cases hr : t.recorded w.place r.name with
    | facts m =>
      simp only [hr] at hloaded ⊢
      subst hloaded
      exact (Except.ok.inj hrest).symm
    | _ =>
      simp only [hr] at hloaded ⊢
      subst hloaded
      obtain ⟨files, hfiles, hb⟩ := Peql.bind_eq_ok.1 hrest
      obtain rfl := Except.ok.inj (looks_ok hfiles)
      exact (Except.ok.inj hb).symm

/-- So it is for every contract. -/
theorem knew_of_befores {bound : List Registered} {known : List Before}
    (h : bound.mapM (w.before fails t) = .ok known) :
    known = bound.map (w.knew t) := by
  have hall : List.Forall₂ (fun r b => w.knew t r = b) bound known :=
    (mapM_eq_ok.1 h).imp fun r b hb => (before_ok hb).symm
  have heq : List.Forall₂ Eq (bound.map (w.knew t)) known := List.forall₂_map_left_iff.2 hall
  rw [List.forall₂_eq_eq_eq] at heq
  exact heq.symm

section

variable {bound : List Registered} {facts : List (Registered × WriteFacts)} (hnames : facts.map Prod.fst = bound)

include hnames

theorem mapM_before : (facts.mapM fun rf => w.before fails t rf.1) = bound.mapM (w.before fails t) := by
  rw [← hnames, List.mapM_map]
  rfl

/-- Each contract's facts, beside what it knew. -/
theorem zip_knew {known : List Before} (h : bound.mapM (w.before fails t) = .ok known) :
    facts.zip known = facts.map fun rf => (rf, w.knew t rf.1) := by
  have hzip : (facts.map id).zip (facts.map (w.knew t ∘ Prod.fst)) = facts.map fun rf => (rf, w.knew t rf.1) :=
    List.zip_map'
  rwa [List.map_id, ← List.map_map, hnames, ← knew_of_befores h] at hzip

theorem zip_fst {known : List Before} (h : bound.mapM (w.before fails t) = .ok known) :
    ((facts.zip known).map fun r => r.1.1) = bound := by
  rw [zip_knew hnames h, List.map_map]
  exact hnames

end

/-- The facts of each contract, computed in turn. -/
theorem mapM_facts {bound : List Registered} {facts : List (Registered × WriteFacts)}
    (h : (bound.mapM fun reg => do
      let (_, facts) ← w.writeFacts R reg.compilation writtenAt
      return (reg, facts)) = .ok facts) :
    facts.map Prod.fst = bound ∧ ∀ rf ∈ facts, ∃ v, w.writeFacts R rf.1.compilation writtenAt = .ok (v, rf.2) := by
  have hall : List.Forall₂ (fun r (rf : Registered × WriteFacts) =>
      rf.1 = r ∧ ∃ v, w.writeFacts R r.compilation writtenAt = .ok (v, rf.2)) bound facts := by
    refine (mapM_eq_ok.1 h).imp fun r rf hrf => ?_
    obtain ⟨⟨v, f⟩, hf, hrf⟩ := Peql.bind_eq_ok.1 hrf
    obtain rfl := Except.ok.inj hrf
    exact ⟨rfl, v, hf⟩
  clear h
  induction hall with
  | nil => exact ⟨rfl, fun rf hrf => absurd hrf List.not_mem_nil⟩
  | cons hhead _ ih =>
    obtain ⟨rfl, hf⟩ := hhead
    refine ⟨by rw [List.map_cons, ih.1], fun rf hrf => ?_⟩
    rcases List.mem_cons.1 hrf with rfl | hrf
    · exact hf
    · exact ih.2 rf hrf

/-- What is prepared is the facts of every contract bound to the data. -/
theorem prepare_ok {bound : List Registered} {verdict : Verdict} {facts : List (Registered × WriteFacts)}
    (h : w.prepare R (w.reg :: bound) writtenAt = .ok (verdict, facts)) :
    facts.map Prod.fst = w.reg :: bound ∧
      ∀ rf ∈ facts, ∃ v, w.writeFacts R rf.1.compilation writtenAt = .ok (v, rf.2) := by
  unfold prepare at h
  obtain ⟨⟨v, own⟩, hown, h⟩ := Peql.bind_eq_ok.1 h
  obtain ⟨_, _, h⟩ := Peql.bind_eq_ok.1 h
  obtain ⟨others, hothers, h⟩ := Peql.bind_eq_ok.1 h
  obtain ⟨rfl, rfl⟩ := Prod.mk.inj (Except.ok.inj h)
  obtain ⟨hnames, hfacts⟩ := mapM_facts hothers
  refine ⟨by rw [List.map_cons, hnames]; rfl, fun rf hrf => ?_⟩
  rcases List.mem_cons.1 hrf with rfl | hrf
  · exact ⟨v, hown⟩
  · exact hfacts rf hrf

/-! ### What is recorded last -/

/-- What a contract's facts after the write are made of. -/
theorem factsAfter_carried (hw : w.written ≠ .rewrite) {r : Registered} {v : Verdict} {facts : WriteFacts}
    (h : w.writeFacts R r.compilation writtenAt = .ok (v, facts)) :
    ∃ after, factsAfter R r facts writtenAt (w.knew t r) = .ok after ∧
      match w.carried t r with
      | none => after = none
      | some files => ∃ m, after = some m ∧ m.contract = r.name ∧
          m.files.Perm (files ++ w.entries r.compilation.contract) := by
  unfold writeFacts at h
  obtain ⟨verdict, _, h⟩ := Peql.bind_eq_ok.1 h
  obtain ⟨rfl, rfl⟩ := Prod.mk.inj (Except.ok.inj h)
  unfold carried
  cases hk : w.knew t r with
  | none => exact ⟨none, rfl, rfl⟩
  | some b =>
    have hown : ¬ (writeManifest R.sha256 r.compilation verdict (w.entries r.compilation.contract)
        writtenAt).compilationHash ≠ r.compilation.contract.compilationHash := not_not.2 rfl
    unfold factsAfter afterWrite
    dsimp only
    rw [if_neg hown]
    cases b with
    | none =>
      -- Nothing was there, or an overwrite deletes it.
      cases hw' : w.written with
      | rewrite => exact absurd hw' hw
      | append | overwrite => exact ⟨_, rfl, _, rfl, rfl, List.mergeSort_perm _ _⟩
    | some b =>
      cases hw' : w.written with
      | rewrite => exact absurd hw' hw
      | overwrite =>
        unfold knew at hk
        rw [hw'] at hk
        cases hk
      | append =>
        dsimp only
        by_cases hc : b.compilationHash = r.compilation.contract.compilationHash
        · rw [if_neg (not_not.2 hc), if_pos hc]
          exact ⟨_, rfl, _, rfl, rfl, List.mergeSort_perm _ _⟩
        · rw [if_pos hc, if_neg hc]
          exact ⟨_, rfl, rfl⟩

/-- The facts after are those it leaves. -/
theorem factsAfter_ok (hw : w.written ≠ .rewrite) {r : Registered} {v : Verdict} {facts : WriteFacts}
    (h : w.writeFacts R r.compilation writtenAt = .ok (v, facts)) :
    factsAfter R r facts writtenAt (w.knew t r) = .ok (w.leaves R writtenAt t r) := by
  obtain ⟨after, hafter, _⟩ := factsAfter_carried (t := t) hw h
  unfold leaves
  rw [h]
  dsimp only
  rw [hafter]

/-- Facts carried on list the files they were of and the new ones. -/
theorem leaves_carried (hw : w.written ≠ .rewrite) {r : Registered} {v : Verdict} {facts : WriteFacts}
    (h : w.writeFacts R r.compilation writtenAt = .ok (v, facts)) :
    match w.carried t r with
    | none => w.leaves R writtenAt t r = none
    | some files => ∃ m, w.leaves R writtenAt t r = some m ∧ m.contract = r.name ∧
        m.files.Perm (files ++ w.entries r.compilation.contract) := by
  obtain ⟨after, hafter, hcarried⟩ := factsAfter_carried (t := t) hw h
  obtain rfl := Except.ok.inj (hafter.symm.trans (factsAfter_ok hw h))
  exact hcarried

/-- Each contract's facts are recorded in turn, until a record fails. -/
theorem recordAll_left {left : Registered → Option Manifest} {rs : List ((Registered × WriteFacts) × Before)}
    (h : ∀ r ∈ rs, factsAfter R r.1.1 r.1.2 writtenAt r.2 = .ok (left r.1.1)) (own : Option Manifest) (d : Disk) :
    (final (w.recordAll R fails writtenAt rs own) d).tree =
      ((rs.map fun r => r.1.1).takeWhile fun r => goes fails (.records r.name)).foldl
        (fun t r => t.record w.place r.name (left r)) d.tree := by
  induction rs generalizing own d with
  | nil => rfl
  | cons r rs ih =>
    obtain ⟨⟨reg, facts⟩, before⟩ := r
    have hr := h _ (List.mem_cons_self ..)
    have ih := ih fun r hr => h r (List.mem_cons_of_mem _ hr)
    unfold recordAll final
    rw [bind_apply, ofExcept_apply, hr]
    dsimp only
    rw [bind_apply, List.map_cons]
    cases hg : goes fails (.records reg.name) with
    | false =>
      obtain ⟨e, he⟩ := does_stops (g := w.recordOf reg.name (left reg)) hg d
      rw [he, List.takeWhile_cons_of_neg (by simp [hg])]
      rfl
    | true =>
      have htake : ((reg :: rs.map fun r => r.1.1).takeWhile fun r => goes fails (.records r.name)) =
          reg :: (rs.map fun r => r.1.1).takeWhile fun r => goes fails (.records r.name) :=
            List.takeWhile_cons_of_pos hg
      rw [does_goes hg, htake]
      exact ih _ (w.recordOf reg.name (left reg) d)

/-- Where all is recorded, every record went. -/
theorem recordAll_ok {rs : List ((Registered × WriteFacts) × Before)} {own after : Option Manifest} {d d' : Disk}
    (h : w.recordAll R fails writtenAt rs own d = .ok after d') :
    ∀ r ∈ rs, goes fails (.records r.1.1.name) = true := by
  induction rs generalizing own d with
  | nil => exact fun r hr => absurd hr List.not_mem_nil
  | cons r rs ih =>
    obtain ⟨⟨reg, facts⟩, before⟩ := r
    unfold recordAll at h
    obtain ⟨left, _, h⟩ := ofExcept_bind_ok.1 h
    obtain ⟨_, d₁, hdoes, h⟩ := Effects.bind_eq_ok.1 h
    intro r hr
    rcases List.mem_cons.1 hr with rfl | hr
    · cases hg : goes fails (.records reg.name) with
      | true => rfl
      | false =>
        obtain ⟨e, he⟩ := does_stops (g := w.recordOf reg.name left) hg d
        rw [he] at hdoes
        cases hdoes
    · exact ih h r hr

/-- The contracts bound to the data have names of their own. -/
theorem nodup_bound (w : Writing) (store : Contents) (location : CompiledContract → Option Address) :
    ((w.bound store location).map Registered.name).Nodup := by
  unfold bound
  rw [List.map_cons, List.nodup_cons]
  constructor
  · intro hmem
    obtain ⟨r, hr, hname⟩ := List.mem_map.1 hmem
    have hne := (List.mem_filter.1 hr).2
    simp [hname] at hne
  · have hlt : (store.list.map Registered.name).Pairwise (· < ·) := List.pairwise_map.2 store.sorted_list
    have hnodup : (store.list.map Registered.name).Nodup := hlt.imp fun h => h.ne
    exact hnodup.sublist (List.filter_sublist.map _)

theorem tree_deletes (as : List Address) (d : Disk) :
    (as.foldl (fun d a => { d with tree := d.tree.delete a }) d).tree = as.foldl Tree.delete d.tree := by
  induction as generalizing d with
  | nil => rfl
  | cons a as ih => exact ih { d with tree := d.tree.delete a }

/-- Every contract is recorded when no record fails. -/
theorem recordAll_goes {rs : List ((Registered × WriteFacts) × Before)}
    (h : ∀ r ∈ rs, ∃ after, factsAfter R r.1.1 r.1.2 writtenAt r.2 = .ok after)
    (hgoes : ∀ r ∈ rs, goes fails (.records r.1.1.name) = true) (own : Option Manifest) (d : Disk) :
    ∃ after d', w.recordAll R fails writtenAt rs own d = .ok after d' := by
  induction rs generalizing own d with
  | nil => exact ⟨own, d, rfl⟩
  | cons r rs ih =>
    obtain ⟨⟨reg, facts⟩, before⟩ := r
    obtain ⟨after, hr⟩ := h _ (List.mem_cons_self ..)
    unfold recordAll
    rw [bind_apply, ofExcept_apply, hr]
    dsimp only
    rw [bind_apply, does_goes (hgoes _ (List.mem_cons_self ..))]
    exact ih (fun r hr => h r (List.mem_cons_of_mem _ hr)) (fun r hr => hgoes r (List.mem_cons_of_mem _ hr)) _ _

/-! ### What is stored after -/

variable [ObjectPaths]

/-- What is stored after a write that made the changes in `done` to `t`. -/
structure Left (w : Writing) (bound : List Registered) (done : List PublishStep) (t t' : Tree) : Prop where
  files : t'.files = (t.files.filter fun f => .deletes f.1 ∉ done) ++
    (w.staged.filter fun f => .moves (w.dest f.1) ∈ done).map fun f => (w.dest f.1, f.2)
  elsewhere : ∀ root contract, root ≠ w.place → t'.recorded root contract = t.recorded root contract
  kept : ∀ contract, lastIn done bound contract = none → t'.recorded w.place contract = t.recorded w.place contract
  recorded : ∀ contract r, lastIn done bound contract = some r →
    match w.carried t r with
    | none => t'.recorded w.place contract = .absent
    | some files => ∃ m, t'.recorded w.place contract = .facts m ∧
        m.files.Perm (files ++ w.entries r.compilation.contract)

/-- No change leaves everything. -/
theorem Left.refl (w : Writing) (bound : List Registered) (t : Tree) : w.Left bound [] t t where
  files := by simp
  elsewhere := fun _ _ _ => rfl
  kept := fun _ _ => rfl
  recorded := by
    intro contract r h
    unfold lastIn at h
    simp at h

/-- The path of a staged file below the place, as it is there. -/
def encoded (w : Writing) (path : List String) : List String :=
  match w.place.backend with
  | .localFiles => path
  | .object _ => path.map (Percent.encode ObjectPaths.reserved)

/-- A staged file goes under the place, its parts encoded on an object store. -/
theorem dest_eq (w : Writing) {path : List String} (hne : path ≠ []) (hplain : ∀ part ∈ path, PlainPart part) :
    w.dest path = w.place.join (w.encoded path) := by
  unfold dest encoded
  cases w.place.backend with
  | localFiles => rfl
  | object url =>
    dsimp only
    rw [uploadPath_relativePath hne hplain]
    rfl

theorem encoded_ne_nil (w : Writing) {path : List String} (hne : path ≠ []) : w.encoded path ≠ [] := by
  unfold encoded
  cases w.place.backend with
  | localFiles => exact hne
  | object url => simpa using hne

/-- No two paths are encoded alike. -/
theorem encoded_injective (w : Writing) : Function.Injective w.encoded := by
  unfold encoded
  cases w.place.backend with
  | localFiles => exact Function.injective_id
  | object url => exact List.map_injective_iff.2 (Percent.encode_injective ObjectPaths.percent)

/-- The name a binding has for a staged file, once it is in its place. -/
theorem nameUnder_dest (w : Writing) {path : List String} (hne : path ≠ []) (hplain : ∀ part ∈ path, PlainPart part) :
    w.place.nameUnder (w.dest path) = relativePath (w.encoded path) := by
  rw [w.dest_eq hne hplain]
  unfold Address.nameUnder
  rw [Address.below_join w.place (w.encoded_ne_nil hne)]

/-- Files are staged for places of their own. -/
theorem Fresh.nodup (h : w.Fresh t) : (w.staged.map fun f => w.dest f.1).Nodup := by
  have hpaths : (w.staged.map fun f => relativePath f.1).Nodup := h.distinct
  have hinj : ∀ f ∈ w.staged, ∀ g ∈ w.staged, w.dest f.1 = w.dest g.1 → f = g := by
    intro f hf g hg heq
    rw [w.dest_eq (h.named f hf) (h.plain f hf), w.dest_eq (h.named g hg) (h.plain g hg)] at heq
    have hpath := w.encoded_injective (Address.join_injective w.place heq)
    exact List.inj_on_of_nodup_map hpaths hf hg (congrArg relativePath hpath)
  exact (List.Nodup.of_map _ hpaths).map_on hinj

/-- The files deleted, moved and the contracts recorded, up to where the write ended. -/
theorem Left.of_prefix (R : Runtime) (writtenAt : Int) (gone : List Address) (hfresh : w.Fresh t)
    {bound : List Registered} (hbound : (bound.map Registered.name).Nodup) {moved : List (List String × StoredFile)}
    {recs : List Registered} 
    (hmoved : moved <+: w.staged) (hrecs : recs <+: bound)
    (hleft : ∀ r ∈ recs, match w.carried t r with
      | none => w.leaves R writtenAt t r = none
      | some files => ∃ m, w.leaves R writtenAt t r = some m ∧ m.contract = r.name ∧
          m.files.Perm (files ++ w.entries r.compilation.contract)) :
    w.Left bound
      (gone.map .deletes ++ (moved.map fun f => .moves (w.dest f.1)) ++ recs.map fun r => .records r.name) t
      (recs.foldl (fun t' r => t'.record w.place r.name (w.leaves R writtenAt t r))
        ((moved.map fun f => (w.dest f.1, f.2)).foldl Tree.put (gone.foldl Tree.delete t))) := by
  have hdel : ∀ a, PublishStep.deletes a ∈ (gone.map .deletes ++ (moved.map fun f => .moves (w.dest f.1)) ++
      recs.map fun r => .records r.name : List PublishStep) ↔ a ∈ gone := by
    intro a
    simp
  have hmov : ∀ f : List String × StoredFile, PublishStep.moves (w.dest f.1) ∈ (gone.map .deletes ++
      (moved.map fun f => .moves (w.dest f.1)) ++ recs.map fun r => .records r.name : List PublishStep) ↔
        w.dest f.1 ∈ moved.map fun f => w.dest f.1 := by
    intro f
    simp
  have hrec : ∀ r : Registered, PublishStep.records r.name ∈ (gone.map .deletes ++
      (moved.map fun f => .moves (w.dest f.1)) ++ recs.map fun r => .records r.name : List PublishStep) ↔
        r.name ∈ recs.map Registered.name := by
    intro r
    simp
  have hlast : ∀ contract, lastIn (gone.map .deletes ++ (moved.map fun f => .moves (w.dest f.1)) ++
      recs.map fun r => .records r.name) bound contract =
        (recs.filter fun r => manifestFile r.name = manifestFile contract).getLast? := by
    intro contract
    have hrecs := prefix_eq_filter hrecs hbound
    unfold lastIn
    conv_rhs => rw [← hrecs]
    rw [List.filter_filter]
    simp only [hrec, Bool.decide_and, Bool.and_comm]
  have hname : ∀ r ∈ recs, ∀ m, w.leaves R writtenAt t r = some m → m.contract = r.name := by
    intro r hr m hm
    have hr := hleft r hr
    cases hc : w.carried t r with
    | none =>
      simp only [hc] at hr
      cases hr.symm.trans hm
    | some files =>
      simp only [hc] at hr
      obtain ⟨m', hm', hcontract, _⟩ := hr
      obtain rfl := Option.some.inj (hm.symm.trans hm')
      exact hcontract
  have hother : ∀ root contract, ((moved.map fun f => (w.dest f.1, f.2)).foldl Tree.put
      (gone.foldl Tree.delete t)).recorded root contract = t.recorded root contract := by
    intro root contract
    unfold Tree.recorded
    rw [Tree.manifests_puts, Tree.manifests_deletes]
  constructor
  · rw [Tree.files_records w.place Registered.name (w.leaves R writtenAt t), Tree.files_puts, Tree.files_deletes]
    · simp only [hdel, hmov]
      rw [prefix_eq_filter (g := fun f : List String × StoredFile => w.dest f.1) hmoved hfresh.nodup]
    · rw [List.map_map]
      exact hfresh.nodup.sublist (hmoved.sublist.map _)
    · intro f hf g hg
      rw [Tree.files_deletes] at hg
      obtain ⟨f', hf', rfl⟩ := List.mem_map.1 hf
      exact hfresh.unused f' (hmoved.subset hf') g (List.mem_filter.1 hg).1
  · intro root contract hne
    rw [Tree.recorded_records_of_ne w.place Registered.name (w.leaves R writtenAt t) hne, hother]
  · intro contract hnone
    rw [hlast] at hnone
    rw [Tree.recorded_records w.place Registered.name (w.leaves R writtenAt t) hname, hnone, hother]
  · intro contract r hr
    rw [hlast] at hr
    rw [Tree.recorded_records w.place Registered.name (w.leaves R writtenAt t) hname, hr]
    have hr := hleft r (List.mem_filter.1 (List.mem_of_getLast? hr)).1
    cases hc : w.carried t r with
    | none =>
      simp only [hc] at hr ⊢
      rw [hr]
      rfl
    | some files =>
      simp only [hc] at hr ⊢
      obtain ⟨m, hm, _, hfiles⟩ := hr
      rw [hm]
      exact ⟨m, rfl, hfiles⟩

theorem tree_puts (fs : List (List String × StoredFile)) (d : Disk) :
    (fs.foldl (fun d f => { d with tree := d.tree.put (w.dest f.1, f.2) }) d).tree =
      (fs.map fun f => (w.dest f.1, f.2)).foldl Tree.put d.tree := by
  induction fs generalizing d with
  | nil => rfl
  | cons f fs ih => exact ih { d with tree := d.tree.put (w.dest f.1, f.2) }

/-- What publishing leaves, wherever it ends. -/
theorem publishWrite_left (hw : w.written ≠ .rewrite) {d : Disk} (hfresh : w.Fresh d.tree) {bound : List Registered}
    (hbound : (bound.map Registered.name).Nodup) {facts : List (Registered × WriteFacts)}
    (hnames : facts.map Prod.fst = bound)
    (hfacts : ∀ rf ∈ facts, ∃ v, w.writeFacts R rf.1.compilation writtenAt = .ok (v, rf.2)) :
    w.Left bound (w.published fails d.tree bound) d.tree (final (w.publishWrite R fails facts writtenAt) d).tree := by
  have hleft : ∀ r ∈ bound, match w.carried d.tree r with
      | none => w.leaves R writtenAt d.tree r = none
      | some files => ∃ m, w.leaves R writtenAt d.tree r = some m ∧ m.contract = r.name ∧
          m.files.Perm (files ++ w.entries r.compilation.contract) := by
    intro r hr
    rw [← hnames] at hr
    obtain ⟨rf, hrf, rfl⟩ := List.mem_map.1 hr
    obtain ⟨v, hv⟩ := hfacts rf hrf
    exact leaves_carried hw hv
  unfold publishWrite published
  show w.Left bound _ d.tree (final (Effects.ofExcept _ >>= _) d).tree
  rw [final_bind, ofExcept_apply, mapM_before hnames]
  cases hknew : bound.mapM (w.before fails d.tree) with
  | error e => exact Left.refl w bound d.tree
  | ok known =>
    dsimp only
    rw [final_bind, ofExcept_apply]
    cases hold : w.oldFiles fails d.tree with
    | error e => exact Left.refl w bound d.tree
    | ok old =>
      dsimp only
      unfold changes
      rw [final_bind]
      by_cases hdel : ∀ a ∈ old, goes fails (.deletes a) = true
      · rw [each_goes hdel]
        dsimp only
        rw [final_bind, List.append_assoc, List.takeWhile_append_of_pos (by simpa using hdel)]
        by_cases hmov : ∀ f ∈ w.staged, goes fails (.moves (w.dest f.1)) = true
        · -- Every file is in its place, and the contracts are recorded in turn.
          rw [each_goes hmov]
          dsimp only
          rw [recordAll_left (fun r hr => ?_), List.takeWhile_append_of_pos (List.forall_mem_map.2 hmov),
            List.takeWhile_map,
            zip_fst hnames hknew, tree_puts, tree_deletes]
          · have hrecs := List.takeWhile_prefix (l := bound) fun r => goes fails (.records r.name)
            have hp := Left.of_prefix R writtenAt old hfresh hbound (List.prefix_refl w.staged) hrecs
              (fun r hr => hleft r (hrecs.subset hr))
            rw [List.append_assoc] at hp
            exact hp
          · rw [zip_knew hnames hknew] at hr
            obtain ⟨rf, hrf, rfl⟩ := List.mem_map.1 hr
            obtain ⟨v, hv⟩ := hfacts rf hrf
            exact factsAfter_ok hw hv
        · obtain ⟨e, he⟩ := each_stops (f := fun f d => { d with tree := d.tree.put (w.dest f.1, f.2) }) hmov
            (old.foldl (fun d a => { d with tree := d.tree.delete a }) d)
          rw [he]
          dsimp only
          rw [takeWhile_append_of_not (by simpa using hmov), List.takeWhile_map, tree_puts, tree_deletes]
          have hp := Left.of_prefix R writtenAt old hfresh hbound
            (List.takeWhile_prefix fun f => goes fails (.moves (w.dest f.1))) List.nil_prefix
            (fun r hr => absurd hr List.not_mem_nil)
          rw [List.map_nil, List.append_nil] at hp
          exact hp
      · obtain ⟨e, he⟩ := each_stops (f := fun a d => { d with tree := d.tree.delete a }) hdel d
        rw [he]
        dsimp only
        rw [List.append_assoc, takeWhile_append_of_not (by simpa using hdel), List.takeWhile_map, tree_deletes]
        have hp := Left.of_prefix R writtenAt (old.takeWhile fun a => goes fails (.deletes a)) hfresh hbound
          List.nil_prefix List.nil_prefix (fun r hr => absurd hr List.not_mem_nil)
        rw [List.map_nil, List.map_nil, List.append_nil, List.append_nil] at hp
        exact hp

/-- Publishing that ends well has made every change. -/
theorem publishWrite_ok {d d' : Disk} {bound : List Registered} {facts : List (Registered × WriteFacts)}
    (hnames : facts.map Prod.fst = bound) {after : Option Manifest}
    (h : w.publishWrite R fails facts writtenAt d = .ok after d') :
    ∃ old, w.oldFiles fails d.tree = .ok old ∧ w.published fails d.tree bound = w.changes old bound := by
  unfold publishWrite at h
  replace h : (Effects.ofExcept _ >>= _) d = _ := h
  rw [mapM_before hnames] at h
  obtain ⟨known, hknown, h⟩ := ofExcept_bind_ok.1 h
  obtain ⟨old, hold, h⟩ := ofExcept_bind_ok.1 h
  obtain ⟨_, d₁, hdeletes, h⟩ := Effects.bind_eq_ok.1 h
  obtain ⟨_, d₂, hmoves, h⟩ := Effects.bind_eq_ok.1 h
  refine ⟨old, hold, ?_⟩
  unfold published
  rw [hknown, hold]
  dsimp only
  rw [List.takeWhile_eq_self_iff]
  intro s hs
  unfold changes at hs
  rcases List.mem_append.1 hs with hs | hs
  · rcases List.mem_append.1 hs with hs | hs
    · obtain ⟨a, ha, rfl⟩ := List.mem_map.1 hs
      exact goes_of_each hdeletes a ha
    · obtain ⟨f, hf, rfl⟩ := List.mem_map.1 hs
      exact goes_of_each hmoves f hf
  · obtain ⟨r, hr, rfl⟩ := List.mem_map.1 hs
    rw [← zip_fst hnames hknown] at hr
    obtain ⟨rfb, hrfb, rfl⟩ := List.mem_map.1 hr
    exact recordAll_ok h rfb hrfb

/-- What a write leaves, wherever it ends. -/
theorem finishWrite_left (hw : w.written ≠ .rewrite) {d : Disk} (hfresh : w.Fresh d.tree) :
    w.Left (w.bound store location) (w.made R fails store location writtenAt d.tree) d.tree
      (final (w.finishWrite R fails store location writtenAt) d).tree := by
  unfold finishWrite made
  rw [final_bind, ofExcept_apply]
  cases hp : w.prepare R (w.bound store location) writtenAt with
  | error e => exact Left.refl w _ d.tree
  | ok prepared =>
    obtain ⟨verdict, facts⟩ := prepared
    obtain ⟨hnames, hfacts⟩ := prepare_ok hp
    have hleft : w.Left (w.bound store location) (w.published fails d.tree (w.bound store location)) d.tree
        (final (w.publishWrite R fails facts writtenAt) d).tree :=
      publishWrite_left hw hfresh (nodup_bound w store location) hnames hfacts
    dsimp only
    rw [final_bind]
    unfold final at hleft
    cases hr : w.publishWrite R fails facts writtenAt d with
    | ok table d' =>
      rw [hr] at hleft
      exact hleft
    | error e d' =>
      rw [hr] at hleft
      exact hleft

/-- A write that ends well has made all its changes. -/
theorem finishWrite_ok {d d' : Disk} {report : WriteReport}
    (h : w.finishWrite R fails store location writtenAt d = .ok report d') :
    ∃ old, w.oldFiles fails d.tree = .ok old ∧
      w.made R fails store location writtenAt d.tree = w.changes old (w.bound store location) := by
  unfold finishWrite at h
  obtain ⟨⟨verdict, facts⟩, hp, h⟩ := ofExcept_bind_ok.1 h
  obtain ⟨table, d'', hpublish, _⟩ := Effects.bind_eq_ok.1 h
  obtain ⟨hnames, _⟩ := prepare_ok hp
  unfold made
  rw [hp]
  exact publishWrite_ok hnames hpublish

/-- What a write that ends well leaves. -/
theorem finishWrite_ok_left (hw : w.written ≠ .rewrite) {d d' : Disk} (hfresh : w.Fresh d.tree) {report : WriteReport}
    (h : w.finishWrite R fails store location writtenAt d = .ok report d') :
    ∃ old, w.oldFiles fails d.tree = .ok old ∧
      w.Left (w.bound store location) (w.changes old (w.bound store location)) d.tree d'.tree := by
  obtain ⟨old, hold, hmade⟩ := finishWrite_ok h
  have hleft : w.Left (w.bound store location) (w.made R fails store location writtenAt d.tree) d.tree
      (final (w.finishWrite R fails store location writtenAt) d).tree := finishWrite_left hw hfresh
  unfold final at hleft
  rw [hmade, h] at hleft
  exact ⟨old, hold, hleft⟩

/-- A write whose facts are computed, and none of whose operations fails, ends well. -/
theorem finishWrite_goes (hw : w.written ≠ .rewrite) {d : Disk} {prepared : Verdict × List (Registered × WriteFacts)}
    (hp : w.prepare R (w.bound store location) writtenAt = .ok prepared) {known : List Before}
    (hknown : (w.bound store location).mapM (w.before fails d.tree) = .ok known) {old : List Address}
    (hold : w.oldFiles fails d.tree = .ok old)
    (hgoes : ∀ s ∈ w.changes old (w.bound store location), goes fails s = true) :
    ∃ report d', w.finishWrite R fails store location writtenAt d = .ok report d' := by
  obtain ⟨verdict, facts⟩ := prepared
  obtain ⟨hnames, hfacts⟩ := prepare_ok hp
  replace hnames : facts.map Prod.fst = w.bound store location := hnames
  have hdeletes : ∀ a ∈ old, goes fails (.deletes a) = true := fun a ha =>
    hgoes _ (List.mem_append_left _ (List.mem_append_left _ (List.mem_map_of_mem ha)))
  have hmoves : ∀ f ∈ w.staged, goes fails (.moves (w.dest f.1)) = true := fun f hf =>
    hgoes _ (List.mem_append_left _ (List.mem_append_right _ (List.mem_map.2 ⟨f, hf, rfl⟩)))
  have hmoved : ∃ after d', w.recordAll R fails writtenAt (facts.zip known) none
      (w.staged.foldl (fun d f => { d with tree := d.tree.put (w.dest f.1, f.2) })
        (old.foldl (fun d a => { d with tree := d.tree.delete a }) d)) = .ok after d' := by
    refine recordAll_goes (fun r hr => ?_) (fun r hr => ?_) none _
    · rw [zip_knew hnames hknown] at hr
      obtain ⟨rf, hrf, rfl⟩ := List.mem_map.1 hr
      obtain ⟨v, hv⟩ := hfacts rf hrf
      exact ⟨_, factsAfter_ok hw hv⟩
    · have hmem : r.1.1 ∈ w.bound store location := by
        rw [← zip_fst hnames hknown]
        exact List.mem_map_of_mem hr
      exact hgoes _ (List.mem_append_right _ (List.mem_map.2 ⟨r.1.1, hmem, rfl⟩))
  obtain ⟨after, d', hrecords⟩ := hmoved
  have hpublish : w.publishWrite R fails facts writtenAt d = .ok after d' := by
    unfold publishWrite
    show (Effects.ofExcept _ >>= _) d = _
    rw [mapM_before hnames, bind_apply, ofExcept_apply, hknown]
    dsimp only
    rw [bind_apply, ofExcept_apply, hold]
    dsimp only
    rw [bind_apply, each_goes hdeletes]
    dsimp only
    rw [bind_apply, each_goes hmoves]
    exact hrecords
  unfold finishWrite
  rw [bind_apply, ofExcept_apply, hp]
  dsimp only
  rw [bind_apply, hpublish]
  exact ⟨_, d', rfl⟩

end Writing

end Peql
