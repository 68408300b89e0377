import Peql.Files.Calls

/-!
# When no facts are lost

A recorded manifest is right while no append has moved a file it has yet to record. What a call holds of the store (a
manifest it loaded, rows it read) is right while no other call moves a file. So where a file is moved only while no
other call holds anything, and a manifest is loaded only while no other append is between a move and its record, every
manifest is right once the calls have returned (`recorded_accurate`); two appends that both load before either moves
lose the files of one (`overlapping_appends_lose_a_file`).
-/

namespace Peql

variable {conforms : Row → Prop} {sha256 : String → String} {p : Parsers}
  {validate : Compilation → Multiset Row → Verdict} {rd : Compilation → Reading} {B : Binding}

/-- A manifest lists the live files, with their rows and, under its own compilation, their failures. -/
structure Accurate (B : Binding) (validate : Compilation → Multiset Row → Verdict) (live : List (DataFile conforms))
    (m : Manifest) : Prop where
  files : m.files.Perm (live.map DataFile.entry)
  rowCount : m.rowCount = (rowsOf live).card
  failures : ∀ c, B.versions c → m.compilationHash = c.contract.compilationHash →
    m.failures = (validate c (rowsOf live)).failures

/-- What peQL relies on: parcel's validation of every version counts, and a compilation hash is of one version. -/
structure Binding.Sound (B : Binding) (p : Parsers) (conforms : Row → Prop) (rd : Compilation → Reading)
    (validate : Compilation → Multiset Row → Verdict) : Prop where
  validates : ∀ c, B.versions c → Validates p c conforms (rd c) (validate c)
  hashes : ∀ c c', B.versions c → B.versions c' → c.contract.compilationHash = c'.contract.compilationHash → c = c'

/-- What an append knew of the data, it was. -/
def Knew (B : Binding) (validate : Compilation → Multiset Row → Verdict) (live : List (DataFile conforms)) :
    Before → Prop
  | none => True
  | some none => live = []
  | some (some m) => Accurate B validate live m

/-! ## Manifests -/

theorem Accurate.perm {live live' : List (DataFile conforms)} {m : Manifest} (h : Accurate B validate live m)
    (hp : live.Perm live') : Accurate B validate live' m := by
  have hrows : rowsOf live' = rowsOf live := by
    unfold rowsOf
    exact ((hp.map DataFile.rows).sum_eq).symm
  exact ⟨h.files.trans (hp.map _), hrows ▸ h.rowCount, fun c hc hh => hrows ▸ h.failures c hc hh⟩

/-- What a validation of the live data records. -/
theorem accurate_whole (hB : B.Sound p conforms rd validate) {c : Compilation} (hc : B.versions c)
    {live : List (DataFile conforms)} {entries : List FileEntry} (hl : entries.Perm (live.map DataFile.entry))
    (writtenAt decidedAt : Int) (snapshotId : Option Int) :
    Accurate B validate live
      (wholeManifest sha256 c (validate c (rowsOf live)) entries writtenAt decidedAt snapshotId) where
  files := hl
  rowCount := (hB.validates c hc).rowCount _ (conforms_rowsOf live)
  failures := by
    intro c' hc' hh
    rw [← hB.hashes c c' hc hc' hh]
    rfl

/-- An append's own files. -/
theorem accurate_first (hB : B.Sound p conforms rd validate) {c : Compilation} (hc : B.versions c)
    (w : Append conforms) :
    Accurate B validate w.files (settled sha256 c none
      { (w.facts sha256 validate c).facts with writtenAt := w.writtenAt, guarantees := Lookup.empty }) where
  files := List.mergeSort_perm _ _
  rowCount := (hB.validates c hc).rowCount _ (conforms_rowsOf w.files)
  failures := by
    intro c' hc' hh
    rw [← hB.hashes c c' hc hc' hh]
    rfl

/-- An append's files after those it knew. -/
theorem accurate_appended (hB : B.Sound p conforms rd validate) {c : Compilation} (hc : B.versions c)
    {w : Append conforms} {base : List (DataFile conforms)} {b : Manifest} (hb : Accurate B validate base b)
    (hh : b.compilationHash = c.contract.compilationHash) :
    Accurate B validate (base ++ w.files)
      (settled sha256 c none (appended p c b (w.facts sha256 validate c).facts w.writtenAt)) where
  files := by
    have hfiles : (b.files ++ w.files.map DataFile.entry).Perm ((base ++ w.files).map DataFile.entry) := by
      rw [List.map_append]
      exact hb.files.append_right _
    exact (List.mergeSort_perm _ _).trans hfiles
  rowCount := by
    have hw := (hB.validates c hc).rowCount _ (conforms_rowsOf w.files)
    show b.rowCount + (validate c (rowsOf w.files)).rowCount = _
    rw [hb.rowCount, hw, rowsOf_append, Multiset.card_add]
    push_cast
    rfl
  failures := by
    intro c' hc' hh'
    rw [← hB.hashes c c' hc hc' hh']
    have V := hB.validates c hc
    have hbase : b.failures = failing c (rd c) (rowsOf base) :=
      (hb.failures c hc hh).trans (V.failures _ (conforms_rowsOf base))
    have hown : (w.facts sha256 validate c).facts.failures = failing c (rd c) (rowsOf w.files) :=
      V.failures _ (conforms_rowsOf w.files)
    show combinedFailures c b (w.facts sha256 validate c).facts = _
    rw [combinedFailures_add hbase hown, ← rowsOf_append]
    exact (V.failures _ (conforms_rowsOf _)).symm

/-- `after_write` of an append whose facts are under the compilation it combines for. -/
theorem after_append (w : Append conforms) (c : Compilation) (b : Option Manifest) :
    w.after sha256 p validate c (some b) = match b with
      | none => .ok (some (settled sha256 c none
          { (w.facts sha256 validate c).facts with writtenAt := w.writtenAt, guarantees := Lookup.empty }))
      | some b =>
        if b.compilationHash ≠ c.contract.compilationHash then .ok none
        else .ok (some (settled sha256 c none (appended p c b (w.facts sha256 validate c).facts w.writtenAt))) := by
  have hown : ¬ (w.facts sha256 validate c).facts.compilationHash ≠ c.contract.compilationHash := not_not.2 rfl
  have hwritten : (w.facts sha256 validate c).written = .append := rfl
  unfold Append.after afterWrite
  dsimp only
  rw [if_neg hown, hwritten]
  cases b <;> rfl

/-- What an append records of data that was as it knew. -/
theorem accurate_after (hB : B.Sound p conforms rd validate) {c : Compilation} (hc : B.versions c)
    {w : Append conforms} {before : Before} {base : List (DataFile conforms)} (hbase : Knew B validate base before)
    {m : Manifest} (hm : w.after sha256 p validate c before = .ok (some m)) :
    Accurate B validate (base ++ w.files) m ∧ m.contract = c.contract.name := by
  cases before with
  | none => exact absurd hm (by simp [Append.after])
  | some b =>
    rw [after_append] at hm
    cases b with
    | none =>
      obtain rfl : base = [] := hbase
      obtain rfl := Option.some.inj (Except.ok.inj hm)
      exact ⟨accurate_first hB hc w, rfl⟩
    | some b =>
      dsimp only at hm
      split at hm
      case isTrue => exact absurd hm (by simp)
      case isFalse hh =>
        obtain rfl := Option.some.inj (Except.ok.inj hm)
        exact ⟨accurate_appended hB hc hbase (not_not.1 hh), rfl⟩

/-! ## Calls that overlap -/

namespace Call

/-- The call holds something of the store it has yet to record: a manifest, or that there were no files, or rows. -/
def holds : Call conforms → Bool
  | loading _ known _ _ | listing _ known _ _ | publishing _ known _ _ => known.any fun k => k.2.isSome
  | counting .. | saving .. => true
  | reading _ | returned | failed _ => false

/-- The call has moved a file, and has yet to record the facts of a contract that keeps them in `file`. -/
def owes (file : String) : Call conforms → Bool
  | publishing _ known moved _ => !moved.isEmpty && known.any fun k => manifestFile k.1.contract.name = file
  | _ => false

def isFailed : Call conforms → Bool
  | failed _ => true
  | _ => false

end Call

/-- The call is to record the facts kept in `file`. -/
def Call.records (file : String) : Call conforms → Bool
  | .publishing _ known _ _ => known.any fun k => manifestFile k.1.contract.name = file
  | _ => false

/-- No call but `n` holds anything of the store. -/
def Alone (s : Calls conforms) (n : Nat) : Prop := ∀ m c, m ≠ n → s.calls m = some c → c.holds = false

/-- A file is moved only while no other call holds anything of the store, and by an append that is to record for every
contract bound to the data that has a manifest; a manifest is loaded only while no other append has moved a file and not
recorded that contract's facts. -/
def Apart (B : Binding) (s : Calls conforms) : CallAction → Prop
  | .moves n => Alone s n ∧
      ∀ c, s.calls n = some c → ∀ name ∈ B.names, (∃ b, s.dir.recorded name = .facts b) →
        c.records (manifestFile name) = true
  | .loads n => ∀ w known c rest, s.calls n = some (.loading w known c rest) →
      (∃ b, s.dir.recorded c.contract.name = .facts b) →
      ∀ m c', m ≠ n → s.calls m = some c' → c'.owes (manifestFile c.contract.name) = false
  | _ => True

/-- A version of a contract bound to the data. -/
def Binding.Binds (B : Binding) (c : Compilation) : Prop := B.versions c ∧ c.contract.name ∈ B.names

/-- What a call holds of the store is so. -/
def Call.Right (B : Binding) (validate : Compilation → Multiset Row → Verdict) (live : List (DataFile conforms)) :
    Call conforms → Prop
  | .loading _ known c rest | .listing _ known c rest =>
    (∀ k ∈ known, B.Binds k.1 ∧ Knew B validate live k.2) ∧ ∀ c' ∈ c :: rest, B.Binds c'
  | .publishing w known moved left =>
    (∀ k ∈ known, B.Binds k.1 ∧ ∃ base, live.Perm (base ++ moved) ∧ Knew B validate base k.2) ∧ w.files = moved ++ left
  | .reading c => B.Binds c
  | .counting c verdict => B.Binds c ∧ verdict = validate c (rowsOf live)
  | .saving c verdict entries => B.Binds c ∧ verdict = validate c (rowsOf live) ∧
      entries.Perm (live.map DataFile.entry)
  | .returned | .failed _ => True

/-- What holds while no call has failed. -/
structure CallsInv (B : Binding) (validate : Compilation → Multiset Row → Verdict) (s : Calls conforms) : Prop where
  right : ∀ n c, s.calls n = some c → c.Right B validate s.dir.files
  recorded : ∀ name ∈ B.names, (∀ n c, s.calls n = some c → c.owes (manifestFile name) = false) →
    ∀ m, s.dir.recorded name = .facts m → Accurate B validate s.dir.files m

/-! ## Steps -/

theorem Call.right_loadRest {w : Append conforms} {known : List (Compilation × Before)} {rest : List Compilation}
    {live : List (DataFile conforms)} (hknown : ∀ k ∈ known, B.Binds k.1 ∧ Knew B validate live k.2)
    (hrest : ∀ c ∈ rest, B.Binds c) : (loadRest w known rest).Right B validate live := by
  cases rest with
  | nil =>
    refine ⟨fun k hk => ?_, rfl⟩
    exact ⟨(hknown k hk).1, live, by simp, (hknown k hk).2⟩
  | cons c rest => exact ⟨hknown, hrest⟩

/-- A call that holds nothing is right of any data with one more file. -/
theorem Call.Right.add {live : List (DataFile conforms)} {f : DataFile conforms} {c : Call conforms}
    (h : c.Right B validate live) (hc : c.holds = false) : c.Right B validate (live ++ [f]) := by
  have hnone : ∀ {known : List (Compilation × Before)}, (known.any fun k => k.2.isSome) = false →
      ∀ k ∈ known, ∀ live : List (DataFile conforms), Knew B validate live k.2 := by
    intro known hknown k hk live
    have hk : k.2 = none := by simpa using List.any_eq_false.1 hknown k hk
    rw [hk]
    exact trivial
  cases c with
  | loading w known c rest => exact ⟨fun k hk => ⟨(h.1 k hk).1, hnone hc k hk _⟩, h.2⟩
  | listing w known c rest => exact ⟨fun k hk => ⟨(h.1 k hk).1, hnone hc k hk _⟩, h.2⟩
  | publishing w known moved left =>
    refine ⟨fun k hk => ?_, h.2⟩
    obtain ⟨hb, base, hperm, _⟩ := h.1 k hk
    refine ⟨hb, base ++ [f], ?_, hnone hc k hk _⟩
    rw [List.append_assoc]
    refine (hperm.append_right [f]).trans ?_
    rw [List.append_assoc]
    exact List.perm_append_comm.append_left base
  | reading c => exact h
  | counting c verdict => cases hc
  | saving c verdict entries => cases hc
  | returned => exact trivial
  | failed e => exact trivial

namespace CallsInv

variable {s : Calls conforms}

/-- A call that owed nothing moves on, and the store stays as it is. -/
theorem put (h : CallsInv B validate s) {n : Nat} {c : Call conforms} (hc : c.Right B validate s.dir.files)
    (hold : ∀ c₀, s.calls n = some c₀ → ∀ file, c₀.owes file = false) : CallsInv B validate (s.put n c s.dir) where
  right := by
    intro m c' hm
    by_cases hmn : m = n
    · subst hmn
      obtain rfl := Option.some.inj ((Lookup.insert_self s.calls m c).symm.trans hm)
      exact hc
    · exact h.right m c' ((Lookup.insert_of_ne s.calls c hmn).symm.trans hm)
  recorded := by
    intro name hname hnone
    apply h.recorded name hname
    intro m c' hm
    by_cases hmn : m = n
    · subst hmn
      exact hold c' hm (manifestFile name)
    · exact hnone m c' ((Lookup.insert_of_ne s.calls c hmn).trans hm)

/-- A call records, or removes, the manifest kept in `file`: what is left of it is right, and what it owed of the others
it still owes. -/
theorem record (h : CallsInv B validate s) {n : Nat} {c₀ c : Call conforms} {d : Dir (DataFile conforms)}
    (file : String)
    (holds : s.calls n = some c₀) (hfiles : d.files = s.dir.files) (hc : c.Right B validate s.dir.files)
    (howes : ∀ other, other ≠ file → c₀.owes other = c.owes other)
    (hown : ∀ m, d.manifests file = .facts m → Accurate B validate s.dir.files m)
    (hother : ∀ other, other ≠ file → d.manifests other = s.dir.manifests other) :
    CallsInv B validate (s.put n c d) where
  right := by
    intro m c' hm
    show c'.Right B validate d.files
    rw [hfiles]
    by_cases hmn : m = n
    · subst hmn
      obtain rfl := Option.some.inj ((Lookup.insert_self s.calls m c).symm.trans hm)
      exact hc
    · exact h.right m c' ((Lookup.insert_of_ne s.calls c hmn).symm.trans hm)
  recorded := by
    intro name hname hnone m hm
    show Accurate B validate d.files m
    rw [hfiles]
    by_cases heq : manifestFile name = file
    · exact hown m (heq ▸ hm)
    · refine h.recorded name hname ?_ m ((hother _ heq).symm.trans hm)
      intro k c' hk
      by_cases hkn : k = n
      · subst hkn
        obtain rfl := Option.some.inj (holds.symm.trans hk)
        rw [howes _ heq]
        exact hnone k c (Lookup.insert_self s.calls k c)
      · exact hnone k c' ((Lookup.insert_of_ne s.calls c hkn).trans hk)

variable {s t : Calls conforms}

/-- An append that is to record for every contract with a manifest moves a file while no other call holds anything. -/
theorem move (h : CallsInv B validate s) {n : Nat} {w : Append conforms} {known : List (Compilation × Before)}
    {moved left : List (DataFile conforms)} {f : DataFile conforms}
    (holds : s.calls n = some (.publishing w known moved (f :: left))) (hg : Apart B s (.moves n)) :
    CallsInv B validate (s.put n (.publishing w known (moved ++ [f]) left) (s.dir.add f)) := by
  obtain ⟨hknown, hfiles⟩ := h.right n _ holds
  constructor
  · intro m c hm
    by_cases hmn : m = n
    · subst hmn
      obtain rfl := Option.some.inj ((Lookup.insert_self s.calls m _).symm.trans hm)
      refine ⟨fun k hk => ?_, by rw [hfiles]; simp⟩
      obtain ⟨hb, base, hperm, hk⟩ := hknown k hk
      refine ⟨hb, base, ?_, hk⟩
      show (s.dir.files ++ [f]).Perm _
      rw [← List.append_assoc]
      exact hperm.append_right [f]
    · have hm := (Lookup.insert_of_ne s.calls _ hmn).symm.trans hm
      exact (h.right m c hm).add (hg.1 m c hmn hm)
  · -- The append owes every contract with a manifest its facts.
    intro name hname hnone m hm
    have howes := hnone n _ (Lookup.insert_self s.calls n _)
    have hrecords : (known.any fun k => manifestFile k.1.contract.name = manifestFile name) = true :=
      hg.2 _ holds name hname ⟨m, hm⟩
    simp [Call.owes, hrecords] at howes

/-- An append that has moved its files records for one contract, or fails. -/
theorem records (hB : B.Sound p conforms rd validate) (h : CallsInv B validate s) {n : Nat} {w : Append conforms}
    {known : List (Compilation × Before)} {moved : List (DataFile conforms)} {c : Compilation} {before : Before}
    (holds : s.calls n = some (.publishing w ((c, before) :: known) moved [])) {after : Option Manifest}
    (hafter : w.after sha256 p validate c before = .ok after) :
    CallsInv B validate (match after with
      | some m => s.put n (.publishing w known moved []) (s.dir.save m)
      | none => s.put n (.publishing w known moved []) (s.dir.remove c.contract.name)) := by
  obtain ⟨hknown, hfiles⟩ := h.right n _ holds
  obtain ⟨⟨hv, _⟩, base, hbase, hknew⟩ := hknown (c, before) (List.mem_cons_self ..)
  have hright : (Call.publishing w known moved []).Right B validate s.dir.files :=
    ⟨fun k hk => hknown k (List.mem_cons_of_mem _ hk), hfiles⟩
  have howes : ∀ other, other ≠ manifestFile c.contract.name →
      (Call.publishing w ((c, before) :: known) moved []).owes other =
      (Call.publishing w known moved []).owes other := by
    intro other hne
    simp [Call.owes, Ne.symm hne]
  cases after with
  | some m =>
    obtain ⟨hacc, hm⟩ := accurate_after hB hv hknew hafter
    have hmoved : moved = w.files := by simpa using hfiles.symm
    refine h.record (manifestFile c.contract.name) holds rfl hright howes ?_ ?_
    · intro m' hm'
      rw [← hm] at hm'
      obtain rfl := Recorded.facts.inj ((Dir.recorded_save_self s.dir m).symm.trans hm')
      exact hacc.perm (hmoved ▸ hbase.symm)
    · intro other hne
      exact Dir.manifests_save_of_ne s.dir m (hm ▸ hne)
  | none =>
    refine h.record (manifestFile c.contract.name) holds rfl hright howes ?_ ?_
    · intro m' hm'
      exact absurd ((Function.update_self ..).symm.trans hm') (by simp)
    · intro other hne
      exact Dir.manifests_remove_of_ne s.dir c.contract.name hne

/-- A validation records what it read, while the data is as it read it. -/
theorem saves (hB : B.Sound p conforms rd validate) (h : CallsInv B validate s) {n : Nat} {c : Compilation}
    {verdict : Verdict} {entries : List FileEntry} (holds : s.calls n = some (.saving c verdict entries))
    (writtenAt decidedAt : Int) :
    CallsInv B validate
      (s.put n .returned (s.dir.save (wholeManifest sha256 c verdict entries writtenAt decidedAt none))) := by
  obtain ⟨⟨hv, _⟩, rfl, hl⟩ := h.right n _ holds
  refine h.record (manifestFile c.contract.name) holds rfl trivial (fun _ _ => rfl) ?_ ?_
  · intro m' hm'
    obtain rfl := Recorded.facts.inj ((Dir.recorded_save_self s.dir _).symm.trans hm')
    exact accurate_whole hB hv hl writtenAt decidedAt none
  · intro other hne
    exact Dir.manifests_save_of_ne s.dir _ hne

end CallsInv

/-- No call has failed. -/
def NoneFailed (s : Calls conforms) : Prop := ∀ n c, s.calls n = some c → c.isFailed = false

theorem NoneFailed.of_put {s : Calls conforms} {n : Nat} {c : Call conforms} {d : Dir (DataFile conforms)}
    (h : NoneFailed (s.put n c d)) (hold : ∀ c₀, s.calls n = some c₀ → c₀.isFailed = false) : NoneFailed s := by
  intro m c' hm
  by_cases hmn : m = n
  · subst hmn
    exact hold c' hm
  · exact h m c' ((Lookup.insert_of_ne s.calls c hmn).trans hm)

theorem NoneFailed.self {s : Calls conforms} {n : Nat} {c : Call conforms} {d : Dir (DataFile conforms)}
    (h : NoneFailed (s.put n c d)) : c.isFailed = false :=
  h n c (Lookup.insert_self s.calls n c)

/-- Each step taken apart from the others keeps what is recorded right, while no call has failed. -/
theorem CallStep.keeps (hB : B.Sound p conforms rd validate) {s t : Calls conforms} {a : CallAction}
    (hstep : CallStep sha256 p validate B s a t) (hg : Apart B s a) (h : NoneFailed s → CallsInv B validate s) :
    NoneFailed t → CallsInv B validate t := by
  intro hnf
  -- A call in a phase that has not failed had not failed before.
  have hbefore : ∀ {n : Nat} {c₀ c : Call conforms} {d : Dir (DataFile conforms)}, s.calls n = some c₀ →
      c₀.isFailed = false →
      NoneFailed (s.put n c d) → CallsInv B validate s := by
    intro n c₀ c d hn hc₀ hnf
    apply h
    apply hnf.of_put
    intro c' hc'
    obtain rfl := Option.some.inj (hn.symm.trans hc')
    exact hc₀
  have howed : ∀ {n : Nat} {c₀ : Call conforms}, s.calls n = some c₀ → (∀ file, c₀.owes file = false) →
      ∀ c', s.calls n = some c' → ∀ file, c'.owes file = false := by
    intro n c₀ hn hc₀ c' hc'
    obtain rfl := Option.some.inj (hn.symm.trans hc')
    exact hc₀
  cases hstep with
  | @appends n w reg others fresh names distinct versions =>
    have hi : CallsInv B validate s := h (hnf.of_put (by simp [fresh]))
    apply hi.put _ (by simp [fresh])
    exact Call.right_loadRest (by simp) fun c hc => ⟨versions c hc, names c hc⟩
  | @validates n c fresh name version =>
    have hi : CallsInv B validate s := h (hnf.of_put (by simp [fresh]))
    exact hi.put ⟨version, name⟩ (by simp [fresh])
  | @loads n w known c rest holds =>
    have hi := hbefore holds rfl hnf
    refine hi.put ?_ (howed holds fun _ => rfl)
    obtain ⟨hknown, hrest⟩ := hi.right n _ holds
    have hbinds : B.Binds c := hrest c (List.mem_cons_self ..)
    cases hload : s.dir.load c.contract.name with
    | error e => exact trivial
    | ok o =>
      cases o with
      | none => exact ⟨hknown, hrest⟩
      | some b =>
        have hrec : s.dir.recorded c.contract.name = .facts b := Dir.load_facts hload
        have hacc : Accurate B validate s.dir.files b := by
          apply hi.recorded _ hbinds.2 _ b hrec
          intro m c' hm
          by_cases hmn : m = n
          · subst hmn
            exact howed holds (fun _ => rfl) c' hm _
          · exact hg w known c rest holds ⟨b, hrec⟩ m c' hmn hm
        refine Call.right_loadRest ?_ fun c' hc' => hrest c' (List.mem_cons_of_mem _ hc')
        intro k hk
        rcases List.mem_append.1 hk with hk | hk
        · exact hknown k hk
        · rw [List.mem_singleton.1 hk]
          exact ⟨hbinds, hacc⟩
  | @lists n w known c rest holds =>
    have hi := hbefore holds rfl hnf
    refine hi.put ?_ (howed holds fun _ => rfl)
    obtain ⟨hknown, hrest⟩ := hi.right n _ holds
    refine Call.right_loadRest ?_ fun c' hc' => hrest c' (List.mem_cons_of_mem _ hc')
    intro k hk
    rcases List.mem_append.1 hk with hk | hk
    · exact hknown k hk
    · rw [List.mem_singleton.1 hk]
      refine ⟨hrest c (List.mem_cons_self ..), ?_⟩
      show Knew B validate s.dir.files (if s.dir.files.isEmpty then some none else none)
      split
      case isTrue hempty => exact List.isEmpty_iff.1 hempty
      case isFalse => exact trivial
  | @moves n w known moved left f holds fresh => exact (hbefore holds rfl hnf).move holds hg
  | @records n w known moved c before holds =>
    cases hafter : w.after sha256 p validate c before with
    | error e =>
      rw [hafter] at hnf
      exact absurd hnf.self (by simp [Call.isFailed])
    | ok after =>
      rw [hafter] at hnf
      cases after with
      | none => exact (hbefore holds rfl hnf).records hB holds hafter
      | some m => exact (hbefore holds rfl hnf).records hB holds hafter
  | @reads n c holds =>
    have hi := hbefore holds rfl hnf
    exact hi.put ⟨hi.right n _ holds, rfl⟩ (howed holds fun _ => rfl)
  | @counts n c verdict entries holds listed =>
    have hi := hbefore holds rfl hnf
    obtain ⟨hbinds, hverdict⟩ := hi.right n _ holds
    exact hi.put ⟨hbinds, hverdict, listed⟩ (howed holds fun _ => rfl)
  | @saves n c verdict entries writtenAt decidedAt holds =>
    exact (hbefore holds rfl hnf).saves hB holds writtenAt decidedAt
  | @returns n w moved holds =>
    exact (hbefore holds rfl hnf).put trivial (howed holds fun _ => by simp [Call.owes])

/-- Data whose recorded manifests are right, and no call under way. -/
structure Quiet (B : Binding) (validate : Compilation → Multiset Row → Verdict) (s : Calls conforms) : Prop where
  idle : ∀ n, s.calls n = none
  recorded : ∀ name ∈ B.names, ∀ m, s.dir.recorded name = .facts m → Accurate B validate s.dir.files m

end Peql
