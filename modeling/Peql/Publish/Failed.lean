import Peql.Publish.Frame

/-!
# A write that fails while publishing

Nothing is undone when an operation of a write fails. The manifests recorded until then are those of the data before the
write, so each is right only while no file of the data is deleted or moved; and those recorded since are right when what
they carry on was.
-/

namespace Peql

open Effects

/-- A contract has no facts recorded, or facts whose file list is exactly the live files. -/
def Honest (t : Tree) (root : Address) (contract : String) : Prop :=
  ∀ m, t.recorded root contract = .facts m → m.Describes t root

namespace Writing

variable [ObjectPaths] {R : Runtime} {fails : PublishStep → Option PeqlError} {w : Writing} {store : Contents}
  {location : CompiledContract → Option Address} {writtenAt : Int} {t t' : Tree} {bound : List Registered}
  {done : List PublishStep}

/-- No file of the data is deleted, and none has come. -/
structure Unchanged (w : Writing) (done : List PublishStep) (t : Tree) : Prop where
  deleted : ∀ f ∈ t.listFiles w.place, PublishStep.deletes f.1 ∉ done
  arrived : ∀ f ∈ w.staged, w.arrived done f = false

/-- What a write that made the changes in `done` has to leave right of a contract. Its facts were recorded, last under
`last`, and carry on what was right; or its manifest is the one of before, and the data is as it was. -/
def Safe (w : Writing) (done : List PublishStep) (t : Tree) (bound : List Registered) (r : Registered) : Prop :=
  match lastIn done bound r.name with
  | some last => w.CarriesOn t last
  | none => ∀ m, t.recorded w.place r.name = .facts m →
      m.Describes t w.place ∧ w.Unchanged done t ∨
        -- A manifest that was wrong may name the files left.
        ¬ m.Describes t w.place ∧ (m.files.map fun e => (e.path, e.sha256)).Perm
          (w.remaining done t ++ w.landed (w.staged.filter (w.arrived done)))

/-- The changes of a write are the first of those it is to make. -/
theorem made_cases (R : Runtime) (fails : PublishStep → Option PeqlError) (w : Writing) (store : Contents)
    (location : CompiledContract → Option Address) (writtenAt : Int) (t : Tree) :
    w.made R fails store location writtenAt t = [] ∨
      ∃ old, w.oldFiles fails t = .ok old ∧
        w.made R fails store location writtenAt t =
          (w.changes old (w.bound store location)).takeWhile (goes fails) := by
  unfold made published
  cases w.prepare R (w.bound store location) writtenAt with
  | error e => exact .inl rfl
  | ok prepared =>
    cases (w.bound store location).mapM (w.before fails t) with
    | error e => exact .inl rfl
    | ok known =>
      cases hold : w.oldFiles fails t with
      | error e => exact .inl rfl
      | ok old => exact .inr ⟨old, rfl, rfl⟩

/-- A contract is recorded after every old file is deleted and every staged one moved. -/
theorem published_of_records {old : List Address} {contract : String}
    (h : PublishStep.records contract ∈ (w.changes old bound).takeWhile (goes fails)) :
    w.Published old ((w.changes old bound).takeWhile (goes fails)) := by
  have hfiles : ∀ s ∈ old.map PublishStep.deletes ++ w.staged.map fun f => PublishStep.moves (w.dest f.1),
      goes fails s = true := by
    by_contra hnot
    unfold changes at h
    rw [takeWhile_append_of_not hnot] at h
    have hmem := (List.takeWhile_prefix _).subset h
    simp at hmem
  unfold changes
  rw [List.takeWhile_append_of_pos hfiles]
  constructor
  · intro a
    constructor
    · intro hmem
      rcases List.mem_append.1 hmem with hmem | hmem
      · simpa using hmem
      · have hmem := (List.takeWhile_prefix _).subset hmem
        simp at hmem
    · intro ha
      exact List.mem_append_left _ (List.mem_append_left _ (List.mem_map_of_mem ha))
  · intro f hf
    exact List.mem_append_left _ (List.mem_append_right _
      (List.mem_map_of_mem (f := fun f : List String × StoredFile => PublishStep.moves (w.dest f.1)) hf))

/-- Facts that describe the data describe it still only while it has not changed. -/
theorem unchanged_iff (hfresh : w.Fresh t) :
    (t.live w.place).Perm (w.remaining done t ++ w.landed (w.staged.filter (w.arrived done))) ↔ w.Unchanged done t := by
  constructor
  · intro hperm
    have hnone : ∀ f ∈ w.staged, w.arrived done f = false := by
      intro f hf
      by_contra harrived
      rw [Bool.not_eq_false] at harrived
      have hmem : (w.place.nameUnder (w.dest f.1), f.2.entry.sha256) ∈ w.landed (w.staged.filter (w.arrived done)) :=
        List.mem_map_of_mem (List.mem_filter.2 ⟨hf, harrived⟩)
      exact hfresh.landed_not_mem_live hf (hperm.symm.subset (List.mem_append_right _ hmem))
    refine ⟨?_, hnone⟩
    -- As many files are left as there were.
    have hlength := hperm.length_eq
    have hempty : (w.staged.filter (w.arrived done)) = [] :=
      List.filter_eq_nil_iff.2 fun f hf harrived => absurd ((hnone f hf).symm.trans harrived) (by simp)
    rw [hempty] at hlength
    unfold Tree.live remaining landed at hlength
    simp only [List.length_append, List.length_map, List.map_nil, List.length_nil, Nat.add_zero] at hlength
    intro f hf
    exact of_decide_eq_true (List.length_filter_eq_length_iff.1 hlength.symm f hf)
  · rintro ⟨hdeleted, hnone⟩
    have hempty : (w.staged.filter (w.arrived done)) = [] :=
      List.filter_eq_nil_iff.2 fun f hf harrived => absurd ((hnone f hf).symm.trans harrived) (by simp)
    have hall : ((t.listFiles w.place).filter fun f => PublishStep.deletes f.1 ∉ done) = t.listFiles w.place :=
      List.filter_eq_self.2 fun f hf => decide_eq_true (hdeleted f hf)
    unfold remaining
    rw [hempty, hall]
    simp [landed, Tree.live]

/-- What is left of a contract's facts is right exactly when they are safe. -/
theorem Left.honest_iff (hw : w.written ≠ .rewrite) (hfresh : w.Fresh t)
    (h : w.Left (w.bound store location) (w.made R fails store location writtenAt t) t t') (r : Registered) :
    Honest t' w.place r.name ↔ w.Safe (w.made R fails store location writtenAt t) t (w.bound store location) r := by
  unfold Safe
  cases hlast : lastIn (w.made R fails store location writtenAt t) (w.bound store location) r.name with
  | some last =>
    dsimp only
    have hhonest : Honest t' w.place r.name ↔ Truthful t' w.place r.name := by
      have hrecorded := h.recorded r.name last hlast
      unfold Honest Truthful
      cases hc : w.carried t last with
      | none =>
        simp only [hc] at hrecorded
        simp [hrecorded]
      | some files =>
        simp only [hc] at hrecorded
        obtain ⟨m, hm, _⟩ := hrecorded
        simp [hm]
    have hpublished :
        ∃ old, w.oldFiles fails t = .ok old ∧ w.Published old (w.made R fails store location writtenAt t) := by
      have hmem := (List.mem_filter.1 (List.mem_of_getLast? hlast)).2
      rw [Bool.decide_and, Bool.and_eq_true] at hmem
      have hmem := of_decide_eq_true hmem.1
      rcases made_cases R fails w store location writtenAt t with hmade | ⟨old, hold, hmade⟩
      · rw [hmade] at hmem
        exact absurd hmem List.not_mem_nil
      · rw [hmade] at hmem ⊢
        exact ⟨old, hold, published_of_records hmem⟩
    obtain ⟨old, hold, hpublished⟩ := hpublished
    exact hhonest.trans ((h.recorded_iff hfresh hlast).trans (hpublished.rightly_iff hw hold last))
  | none =>
    dsimp only
    have hkept := h.kept r.name hlast
    unfold Honest
    rw [hkept]
    refine forall₂_congr fun m _ => ?_
    have hlive := h.live_perm
    have hdescribes : m.Describes t' w.place ↔ (m.files.map fun e => (e.path, e.sha256)).Perm
        (w.remaining (w.made R fails store location writtenAt t) t ++
          w.landed (w.staged.filter (w.arrived (w.made R fails store location writtenAt t)))) :=
      ⟨fun hd => hd.trans hlive, fun hp => hp.trans hlive.symm⟩
    rw [hdescribes]
    by_cases hbefore : m.Describes t w.place
    · have hunchanged : (t.live w.place).Perm _ ↔ w.Unchanged (w.made R fails store location writtenAt t) t :=
        unchanged_iff hfresh
      constructor
      · intro hperm
        exact .inl ⟨hbefore, hunchanged.1 (hbefore.symm.trans hperm)⟩
      · rintro (⟨_, hun⟩ | ⟨hnot, _⟩)
        · exact hbefore.trans (hunchanged.2 hun)
        · exact absurd hbefore hnot
    · constructor
      · intro hperm
        exact .inr ⟨hbefore, hperm⟩
      · rintro (⟨hbefore', _⟩ | ⟨_, hperm⟩)
        · exact absurd hbefore' hbefore
        · exact hperm

/-- A write that fails leaves no manifest that lies exactly when, of every contract bound to the data, the facts were
recorded before it failed and carry on what was right, or what was recorded was right and no file had changed. -/
theorem honest_iff_safe (R : Runtime) (fails : PublishStep → Option PeqlError) (store : Contents)
    (location : CompiledContract → Option Address) (writtenAt : Int) (w : Writing) (hw : w.written ≠ .rewrite)
    {d d' : Disk} (hfresh : w.Fresh d.tree) {e : PeqlError}
    (hfailed : w.finishWrite R fails store location writtenAt d = .error e d') :
    (∀ r ∈ w.bound store location, Honest d'.tree w.place r.name) ↔
      ∀ r ∈ w.bound store location,
        w.Safe (w.made R fails store location writtenAt d.tree) d.tree (w.bound store location) r := by
  have hleft : w.Left (w.bound store location) (w.made R fails store location writtenAt d.tree) d.tree
      (final (w.finishWrite R fails store location writtenAt) d).tree := finishWrite_left hw hfresh
  unfold final at hleft
  rw [hfailed] at hleft
  exact forall₂_congr fun r _ => hleft.honest_iff hw hfresh r

end Writing

/-! ## An append whose second file does not arrive -/

def euPlace : Address := ⟨.localFiles, ["data", "eu"]⟩

/-- What was recorded of the region's one file. -/
def euFacts : Manifest :=
  writeManifest amountsRuntime.sha256 (regionContract "acme/eu") (validateAmounts {[("amount", .int 1)]})
    [(storedAmount "a.parquet" 1).entry] 4

def euData : Disk where
  tree :=
    { files := [(euPlace.join ["a.parquet"], storedAmount "a.parquet" 1)]
      manifests := Function.update (fun _ => .absent) (euPlace.manifestAt (manifestFile "acme/eu")) (.facts euFacts) }
  objectManifests := Lookup.empty

/-- An append of two more files. -/
def euTwo : Writing :=
  { euAppend with
    rows := 2
    staged := [(["b.parquet"], storedAmount "b.parquet" 2), (["c.parquet"], storedAmount "c.parquet" 3)] }

/-- The move of one file fails. -/
def moveFails (name : String) (s : PublishStep) : Option PeqlError :=
  if s = .moves (euPlace.join [name]) then some (.io "no space left on device") else none

theorem listFiles_euData : euData.tree.listFiles euPlace = euData.tree.files := by
  unfold Tree.listFiles
  have hcovers : (euData.tree.files.filter fun f => euPlace.covers f.1) = euData.tree.files := rfl
  rw [hcovers]
  exact List.mergeSort_singleton _

theorem recorded_euData : euData.tree.recorded euPlace "acme/eu" = .facts euFacts := by
  unfold Tree.recorded euData
  dsimp only
  rw [Function.update_self]

theorem describes_euFacts : euFacts.Describes euData.tree euPlace := by
  unfold Manifest.Describes Tree.live
  rw [listFiles_euData]
  decide

theorem fresh_euTwo : euTwo.Fresh euData.tree where
  named := by decide
  plain := by
    intro f hf part hp
    rcases List.mem_pair.1 hf with rfl | rfl
    all_goals
      obtain rfl := List.mem_singleton.1 hp
      unfold PlainPart
      decide
  distinct := by decide
  unused := by decide
  unlisted := by
    show ∀ f ∈ euTwo.staged, ∀ g ∈ euData.tree.listFiles euPlace, _
    rw [listFiles_euData]
    decide
  unlanded := by
    show ∀ f ∈ euTwo.staged, ∀ g ∈ euData.tree.listFiles euPlace, _
    rw [listFiles_euData]
    decide

theorem bound_euTwo {all : List String} (h : all ≠ ["data", "eu"]) :
    euTwo.bound regions (regionAt all) = [⟨regionContract "acme/eu"⟩] := bound_euAppend h

/-- The changes it makes until the move of `name` fails. -/
theorem made_euTwo {all : List String} (h : all ≠ ["data", "eu"]) (name : String) :
    euTwo.made amountsRuntime (moveFails name) regions (regionAt all) 5 euData.tree =
      [.moves (euPlace.join ["b.parquet"]), .moves (euPlace.join ["c.parquet"]), .records "acme/eu"].takeWhile
        (goes (moveFails name)) := by
  have hp : ∃ prepared, euTwo.prepare amountsRuntime [⟨regionContract "acme/eu"⟩] 5 = .ok prepared := ⟨_, rfl⟩
  obtain ⟨prepared, hp⟩ := hp
  have hknown : [⟨regionContract "acme/eu"⟩].mapM (euTwo.before (moveFails name) euData.tree) =
      .ok [some (some euFacts)] := by
    have hload : (euData.tree.dirAt euPlace).load "acme/eu" = .ok (some euFacts) := by
      unfold Dir.load
      have hrecorded : (euData.tree.dirAt euPlace).recorded "acme/eu" = .facts euFacts := recorded_euData
      rw [hrecorded]
      rfl
    have hbefore : euTwo.before (moveFails name) euData.tree ⟨regionContract "acme/eu"⟩ =
        .ok (some (some euFacts)) := by
      show (looks (moveFails name) (.loads "acme/eu") ((euData.tree.dirAt euPlace).load "acme/eu") >>= _) = _
      rw [hload]
      rfl
    rw [List.mapM_cons, hbefore]
    rfl
  unfold Writing.made Writing.published
  rw [bound_euTwo h, hp]
  dsimp only
  rw [hknown]
  rfl

/-- The append whose file `name` is not moved fails. -/
theorem euTwo_fails {all : List String} (h : all ≠ ["data", "eu"]) {name : String}
    (hname : ∃ f ∈ euTwo.staged, f.1 = [name]) :
    ∃ e d', euTwo.finishWrite amountsRuntime (moveFails name) regions (regionAt all) 5 euData = .error e d' := by
  cases hr : euTwo.finishWrite amountsRuntime (moveFails name) regions (regionAt all) 5 euData with
  | error e d' => exact ⟨e, d', rfl⟩
  | ok report d' =>
    obtain ⟨old, _, hmade⟩ := Writing.finishWrite_ok hr
    obtain ⟨f, hf, hpath⟩ := hname
    have hmem := ((euTwo.published_changes old (euTwo.bound regions (regionAt all))).moved f hf)
    rw [← hmade, made_euTwo h name, hpath] at hmem
    have hgoes := List.mem_takeWhile_imp hmem
    have hstep : moveFails name (.moves (euTwo.dest [name])) = some (.io "no space left on device") := if_pos rfl
    unfold goes at hgoes
    rw [hstep] at hgoes
    cases hgoes

/-- One of the two files is among the data, and the manifest does not know it. -/
theorem second_move_failed_lies :
    euTwo.Fresh euData.tree ∧ euFacts.Describes euData.tree euPlace ∧ ∃ e d',
      euTwo.finishWrite amountsRuntime (moveFails "c.parquet") regions (regionAt ["data", "us"]) 5 euData =
        .error e d' ∧
        ∃ r ∈ euTwo.bound regions (regionAt ["data", "us"]), ¬ Honest d'.tree euTwo.place r.name := by
  refine ⟨fresh_euTwo, describes_euFacts, ?_⟩
  obtain ⟨e, d', hfailed⟩ := @euTwo_fails ["data", "us"] (by decide) "c.parquet" (by decide)
  refine ⟨e, d', hfailed, ⟨regionContract "acme/eu"⟩, List.mem_cons_self .., ?_⟩
  have hleft : euTwo.Left (euTwo.bound regions (regionAt ["data", "us"]))
      (euTwo.made amountsRuntime (moveFails "c.parquet") regions (regionAt ["data", "us"]) 5 euData.tree) euData.tree
      (final (euTwo.finishWrite amountsRuntime (moveFails "c.parquet") regions (regionAt ["data", "us"]) 5)
        euData).tree := Writing.finishWrite_left (by decide) fresh_euTwo
  unfold final at hleft
  rw [hfailed] at hleft
  have hmade : euTwo.made amountsRuntime (moveFails "c.parquet") regions (regionAt ["data", "us"]) 5 euData.tree =
      [.moves (euPlace.join ["b.parquet"])] := (made_euTwo (by decide) "c.parquet").trans (by decide)
  rw [hleft.honest_iff (by decide) fresh_euTwo, hmade]
  intro hsafe
  have hsafe : ∀ m, euData.tree.recorded euPlace "acme/eu" = .facts m →
      m.Describes euData.tree euPlace ∧ euTwo.Unchanged [.moves (euPlace.join ["b.parquet"])] euData.tree ∨
        ¬ m.Describes euData.tree euPlace ∧ _ := hsafe
  rcases hsafe euFacts recorded_euData with ⟨_, hunchanged⟩ | ⟨hnot, _⟩
  · exact absurd (hunchanged.arrived (["b.parquet"], storedAmount "b.parquet" 2) (List.mem_cons_self ..)) (by decide)
  · exact hnot describes_euFacts

/-- When the first file is not moved, the manifest is that of the data still. -/
theorem first_move_failed_honest : ∃ e d',
    euTwo.finishWrite amountsRuntime (moveFails "b.parquet") regions (regionAt ["data", "us"]) 5 euData = .error e d' ∧
      ∀ r ∈ euTwo.bound regions (regionAt ["data", "us"]), Honest d'.tree euTwo.place r.name := by
  obtain ⟨e, d', hfailed⟩ := @euTwo_fails ["data", "us"] (by decide) "b.parquet" (by decide)
  refine ⟨e, d', hfailed, (Writing.honest_iff_safe amountsRuntime (moveFails "b.parquet") regions
    (regionAt ["data", "us"]) 5 euTwo (by decide) fresh_euTwo hfailed).2 fun r hr => ?_⟩
  rw [bound_euTwo (by decide)] at hr
  obtain rfl := List.mem_singleton.1 hr
  have hmade : euTwo.made amountsRuntime (moveFails "b.parquet") regions (regionAt ["data", "us"]) 5 euData.tree = [] :=
    (made_euTwo (by decide) "b.parquet").trans (by decide)
  rw [hmade]
  show ∀ m, euData.tree.recorded euPlace "acme/eu" = .facts m → _
  intro m hm
  obtain rfl := Recorded.facts.inj (recorded_euData.symm.trans hm)
  refine .inl ⟨describes_euFacts, fun f _ => List.not_mem_nil, by decide⟩

end Peql
