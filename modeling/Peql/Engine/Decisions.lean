import Peql.Engine.Query
import Peql.Lib.Runs

/-!
# What a validation decides, among calls that record facts

The facts of a snapshot are looked for, combined from the writes since a snapshot that has them, and written with no
condition on what is recorded by then: `factsBack` and `factsForward`, with the calls of other engines between any two
of their reads and writes. `SharedTable` is a table and the calls in flight over it, with what validations recorded last
and what was computed from snapshots a validation had decided kept beside them. A validation's decisions last
(`Lasting`) in every run in which no facts are written over a decision they were not computed from (`Unbeaten`).
-/

namespace Peql

open Runs Effects

/-- A call that computes a snapshot's facts, between two of its reads and writes of what is recorded. -/
inductive FactsCall
  /-- At a snapshot on the way back, with the writes it has passed. -/
  | looking (c : Compilation) (t : TableMetadata) (s : Int) (writes : List Pending)
  /-- It found no facts of the snapshot, and reads those of its write next. -/
  | missing (c : Compilation) (t : TableMetadata) (s : Int) (writes : List Pending)
  /-- On the way forward, with the facts known, the snapshot they are of, and what was decided for it by then. -/
  | combining (c : Compilation) (t : TableMetadata) (known : Option Manifest) (known_of : Option Int)
      (decided : Option Manifest) (writes : List Pending)
  /-- A validation that has not recorded its facts. -/
  | validated (s : Int) (m : Manifest)

namespace FactsCall

/-- On the way back at a snapshot, or at the start of the table. -/
def back (c : Compilation) (t : TableMetadata) (at_ : Option Int) (writes : List Pending) : FactsCall :=
  match at_ with
  | some s => looking c t s writes
  | none => combining c t none none none writes

end FactsCall

/-- The file a contract's facts are recorded in. -/
def Compilation.factsFile (c : Compilation) : String := manifestFile c.contract.name

/-- A table, and the calls in flight over it. -/
structure SharedTable where
  table : IcebergTable
  calls : Nat → Option FactsCall
  /-- What a validation recorded last, by snapshot and file. -/
  decided : Int → String → Option Manifest
  /-- Facts computed for an append or a rewrite, with what was decided then of the snapshot it was made over. -/
  carried : List (Manifest × Manifest)

inductive TableAction
  | commits (s : TableSnapshot)
  | savesWrite (write : String) (f : WriteFacts)
  | looks (n : Nat) (c : Compilation) (s : Int)
  | finds (n : Nat)
  | misses (n : Nat)
  | reads (n : Nat)
  | combines (n : Nat)
  | validates (n : Nat) (c : Compilation) (s : Int) (verdict : Verdict) (files : List FileEntry)
      (writtenAt decidedAt : Int)
  | records (n : Nat)
  /-- A call ends, fails or dies. -/
  | ends (n : Nat)

namespace SharedTable

/-- A table nothing is recorded of yet. -/
def start (t : TableMetadata) : SharedTable :=
  ⟨⟨t, fun _ _ => .absent, fun _ _ => .absent⟩, fun _ => none, fun _ _ => none, []⟩

def at_ (σ : SharedTable) (n : Nat) (call : Option FactsCall) : SharedTable :=
  { σ with calls := Function.update σ.calls n call }

/-- What was decided of the snapshot that `s` was made over. -/
def decidedBefore (σ : SharedTable) (t : TableMetadata) (s : Int) (file : String) : Option Manifest :=
  ((t.snapshotById s).bind TableSnapshot.parent).bind fun parent => σ.decided parent file

/-- Facts computed from a write to snapshot `s` are recorded. -/
def combine (σ : SharedTable) (t : TableMetadata) (s : Int) (w : WriteFacts) (m : Manifest) : SharedTable :=
  { σ with
    table := σ.table.saveFacts s m
    carried :=
      if w.written = .overwrite then σ.carried
      else match σ.decidedBefore t s (manifestFile m.contract) with
        | none => σ.carried
        | some d => (d, m) :: σ.carried }

/-- A validation's facts are recorded. -/
def decide (σ : SharedTable) (s : Int) (m : Manifest) : SharedTable :=
  { σ with
    table := σ.table.saveFacts s m
    decided := Function.update σ.decided s (Function.update (σ.decided s) (manifestFile m.contract) (some m)) }

end SharedTable

section Steps

variable (sha256 : String → String) (p : Parsers) (name : String)

/-- The steps of writers, readers and validators over a table. -/
inductive TableStep : SharedTable → TableAction → SharedTable → Prop
  | commits {σ : SharedTable} (s : TableSnapshot) :
      TableStep σ (.commits s) { σ with table := { σ.table with metadata := σ.table.metadata.push s } }
  | savesWrite {σ : SharedTable} (write : String) (f : WriteFacts) :
      TableStep σ (.savesWrite write f) { σ with table := σ.table.saveWriteFacts write f }
  | looks {σ : SharedTable} {n : Nat} (h : σ.calls n = none) (c : Compilation) (s : Int) :
      TableStep σ (.looks n c s) (σ.at_ n (some (.looking c σ.table.metadata s [])))
  | finds {σ : SharedTable} {n : Nat} {c : Compilation} {t : TableMetadata} {s : Int} {writes : List Pending}
      {m : Manifest} (h : σ.calls n = some (.looking c t s writes)) (hs : (t.snapshotById s).isSome)
      (hm : σ.table.loadFacts name s c.contract.name = .ok (some m)) :
      TableStep σ (.finds n)
        (σ.at_ n (some (.combining c t (some m) (some s) (σ.decided s c.factsFile) writes)))
  | misses {σ : SharedTable} {n : Nat} {c : Compilation} {t : TableMetadata} {s : Int} {writes : List Pending}
      (h : σ.calls n = some (.looking c t s writes)) (hs : (t.snapshotById s).isSome)
      (hm : σ.table.loadFacts name s c.contract.name = .ok none) :
      TableStep σ (.misses n) (σ.at_ n (some (.missing c t s writes)))
  | reads {σ : SharedTable} {n : Nat} {c : Compilation} {t : TableMetadata} {s time : Int} {writes : List Pending}
      {snapshot : TableSnapshot} {w : WriteFacts} (h : σ.calls n = some (.missing c t s writes))
      (hs : t.snapshotById s = some snapshot)
      (hw : σ.table.loadWriteFacts name snapshot c.contract.name = .ok (some w)) (htime : snapshot.time = some time) :
      TableStep σ (.reads n) (σ.at_ n (some (.back c t
        (if w.written = .overwrite then none else snapshot.parent) ((s, time, w) :: writes))))
  | combines {σ : SharedTable} {n : Nat} {c : Compilation} {t : TableMetadata} {known : Option Manifest}
      {known_of : Option Int} {d : Option Manifest} {s time : Int} {w : WriteFacts} {writes : List Pending}
      {m : Manifest} (h : σ.calls n = some (.combining c t known known_of d ((s, time, w) :: writes)))
      (hm : afterWrite sha256 p c known w time (some s) = .ok (some m)) :
      TableStep σ (.combines n)
        ((σ.combine t s w m).at_ n (some (.combining c t (some m) (some s) (σ.decided s c.factsFile) writes)))
  | validates {σ : SharedTable} {n : Nat} (h : σ.calls n = none) (c : Compilation) (s : Int) (verdict : Verdict)
      (files : List FileEntry) (writtenAt decidedAt : Int) :
      TableStep σ (.validates n c s verdict files writtenAt decidedAt)
        (σ.at_ n (some (.validated s (wholeManifest sha256 c verdict files writtenAt decidedAt (some s)))))
  | records {σ : SharedTable} {n : Nat} {s : Int} {m : Manifest} (h : σ.calls n = some (.validated s m)) :
      TableStep σ (.records n) ((σ.decide s m).at_ n none)
  | ends {σ : SharedTable} (n : Nat) : TableStep σ (.ends n) (σ.at_ n none)

end Steps

/-- What the last validation recorded for a snapshot is what is recorded for it, and the facts computed from it since
have its decisions. -/
structure Lasting (σ : SharedTable) : Prop where
  recorded : ∀ s file d, σ.decided s file = some d → ∃ m, σ.table.facts s file = .facts m ∧
    m.guarantees = d.guarantees ∧ m.breached = d.breached ∧ m.valid = d.valid
  carried : ∀ d m, (d, m) ∈ σ.carried → m.guarantees = d.guarantees

/-- The facts a call writes are of a snapshot no validation has recorded its decisions of, and it has the last decisions
of the snapshot it computes them from. -/
def Unbeaten (σ : SharedTable) : TableAction → Prop
  | .combines n => ∀ c t known known_of d s time w writes,
      σ.calls n = some (.combining c t known known_of d ((s, time, w) :: writes)) →
      σ.decided s c.factsFile = none ∧ ∀ before, known_of = some before → σ.decided before c.factsFile = d
  | _ => True

/-! ## What a step keeps -/

theorem at_calls (σ : SharedTable) (n : Nat) (call : Option FactsCall) : (σ.at_ n call).calls n = call := by
  simp [SharedTable.at_]

/-- Facts are recorded under the name of their contract. -/
structure Filed (t : IcebergTable) : Prop where
  facts : ∀ s file m, t.facts s file = .facts m → manifestFile m.contract = file
  writeFacts : ∀ write file w, t.writeFacts write file = .facts w → manifestFile w.facts.contract = file

/-- Writes passed on the way, each made over the one before, and the first over `before` or over nothing. -/
def MadeOver (t : TableMetadata) (file : String) : Option Int → List Pending → Prop
  | _, [] => True
  | before, (s, _, w) :: rest => manifestFile w.facts.contract = file ∧
      (w.written ≠ .overwrite → (t.snapshotById s).bind TableSnapshot.parent = before) ∧
      MadeOver t file (some s) rest

/-- What a call has, at each of its moments. -/
def FactsCall.Sound : FactsCall → Prop
  | looking c t s writes | missing c t s writes => MadeOver t c.factsFile (some s) writes
  | combining c t known known_of d writes => MadeOver t c.factsFile known_of writes ∧
      (∀ b, known = some b → manifestFile b.contract = c.factsFile ∧ ∀ m, d = some m → b.guarantees = m.guarantees) ∧
      (known = none → known_of = none)
  | validated _ _ => True

/-- The way back is sound while its writes follow one another. -/
theorem FactsCall.Sound.back {c : Compilation} {t : TableMetadata} {before : Option Int} {writes : List Pending}
    (h : MadeOver t c.factsFile before writes) : (FactsCall.back c t before writes).Sound := by
  cases before with
  | some s => exact h
  | none => exact ⟨h, (fun _ hb => nomatch hb), fun _ => rfl⟩

/-- What is computed from facts is of the snapshot named, has their decisions, and is a manifest of the same contract,
under the compilation it is computed for. -/
theorem afterWrite_carries {sha256 : String → String} {p : Parsers} {c : Compilation} {known : Option Manifest}
    {w : WriteFacts} {time : Int} {snapshot : Option Int} {m : Manifest}
    (h : afterWrite sha256 p c known w time snapshot = .ok (some m)) :
    m.snapshotId = snapshot ∧
      (m.contract = w.facts.contract ∨ ∃ b, known = some b ∧ m.contract = b.contract) ∧
      (w.written ≠ .overwrite → ∀ b, known = some b → m.guarantees = b.guarantees) ∧
      m.compilationHash = c.contract.compilationHash := by
  unfold afterWrite at h
  by_cases hc : w.facts.compilationHash ≠ c.contract.compilationHash
  · rw [if_pos hc] at h
    cases h
  rw [if_neg hc] at h
  have hhash := not_not.1 hc
  cases hw : w.written with
  | overwrite =>
    simp only [hw] at h
    cases h
    exact ⟨rfl, .inl rfl, fun hne => absurd rfl hne, hhash⟩
  | append =>
    cases known with
    | none =>
      simp only [hw] at h
      cases h
      exact ⟨rfl, .inl rfl, (fun _ b hb => nomatch hb), hhash⟩
    | some b =>
      simp only [hw] at h
      split at h
      · cases h
      · cases h
        refine ⟨rfl, .inl rfl, fun _ b' hb => ?_, hhash⟩
        cases hb
        rfl
  | rewrite =>
    cases known with
    | none =>
      simp only [hw] at h
      cases h
    | some b =>
      simp only [hw] at h
      split at h
      · cases h
      next hb =>
        unfold rewritten at h
        simp only at h
        split at h
        · cases h
        split at h
        · cases h
        cases h
        refine ⟨rfl, .inr ⟨b, rfl, rfl⟩, fun _ b' hb => ?_, not_not.1 hb⟩
        cases hb
        rfl

/-- What every run keeps beside the decisions. -/
structure Tracked (σ : SharedTable) : Prop where
  lasting : Lasting σ
  filed : Filed σ.table
  calls : ∀ n call, σ.calls n = some call → call.Sound

/-- Facts are filed under their contract's file. -/
theorem Filed.saveFacts {t : IcebergTable} (h : Filed t) (s : Int) (m : Manifest) : Filed (t.saveFacts s m) where
  facts s' file m' hm := by
    by_cases hs : s' = s
    · subst hs
      by_cases hf : file = manifestFile m.contract
      · subst hf
        simp only [IcebergTable.saveFacts, Function.update_self, Recorded.facts.injEq] at hm
        rw [hm]
      · simp only [IcebergTable.saveFacts, Function.update_self, Function.update_of_ne hf] at hm
        exact h.facts _ _ _ hm
    · simp only [IcebergTable.saveFacts, Function.update_of_ne hs] at hm
      exact h.facts _ _ _ hm
  writeFacts := h.writeFacts

theorem Filed.saveWriteFacts {t : IcebergTable} (h : Filed t) (write : String) (f : WriteFacts) :
    Filed (t.saveWriteFacts write f) where
  facts := h.facts
  writeFacts write' file w hw := by
    by_cases hs : write' = write
    · subst hs
      by_cases hf : file = manifestFile f.facts.contract
      · subst hf
        simp only [IcebergTable.saveWriteFacts, Function.update_self, Recorded.facts.injEq] at hw
        rw [hw]
      · simp only [IcebergTable.saveWriteFacts, Function.update_self, Function.update_of_ne hf] at hw
        exact h.writeFacts _ _ _ hw
    · simp only [IcebergTable.saveWriteFacts, Function.update_of_ne hs] at hw
      exact h.writeFacts _ _ _ hw

/-- Facts loaded are those recorded. -/
theorem loadFacts_facts {t : IcebergTable} {name contract : String} {s : Int} {m : Manifest}
    (h : t.loadFacts name s contract = .ok (some m)) : t.facts s (manifestFile contract) = .facts m := by
  unfold IcebergTable.loadFacts at h
  cases hr : t.facts s (manifestFile contract) with
  | absent | otherFormat | corrupt => simp [hr] at h
  | facts m' =>
    simp only [hr] at h
    split at h
    · cases h
      rfl
    · cases h

/-- A write's facts loaded are those recorded. -/
theorem loadWriteFacts_facts {t : IcebergTable} {name contract : String} {s : TableSnapshot} {w : WriteFacts}
    (h : t.loadWriteFacts name s contract = .ok (some w)) :
    ∃ write, t.writeFacts write (manifestFile contract) = .facts w := by
  unfold IcebergTable.loadWriteFacts at h
  cases hid : s.writeId with
  | none => simp [hid] at h
  | some write =>
    cases hr : t.writeFacts write (manifestFile contract) with
    | absent | otherFormat | corrupt => simp [hid, hr] at h
    | facts w' =>
      simp only [hid, hr, Except.ok.injEq, Option.some.injEq] at h
      exact ⟨write, h ▸ hr⟩

namespace Tracked

/-- A sound call may come or go on. -/
theorem setCall {σ : SharedTable} (h : Tracked σ) (n : Nat) {call : Option FactsCall}
    (hc : ∀ k, call = some k → k.Sound) : Tracked (σ.at_ n call) where
  lasting := ⟨h.lasting.recorded, h.lasting.carried⟩
  filed := h.filed
  calls k x hx := by
    by_cases hk : k = n
    · subst hk
      exact hc x (by simpa [SharedTable.at_] using hx)
    · exact h.calls k x (by simpa [SharedTable.at_, Function.update_of_ne hk] using hx)

/-- A validation replaces the decisions of its snapshot, and no others. -/
theorem decide {σ : SharedTable} (h : Tracked σ) (s : Int) (m : Manifest) : Tracked (σ.decide s m) where
  lasting := by
    refine ⟨fun s' file d hd => ?_, h.lasting.carried⟩
    by_cases hs : s' = s
    · subst hs
      by_cases hf : file = manifestFile m.contract
      · subst hf
        simp only [SharedTable.decide, Function.update_self, Option.some.injEq] at hd
        subst hd
        exact ⟨m, by simp [SharedTable.decide, IcebergTable.saveFacts], rfl, rfl, rfl⟩
      · simp only [SharedTable.decide, Function.update_self, Function.update_of_ne hf] at hd
        obtain ⟨m', hm', heq⟩ := h.lasting.recorded _ _ _ hd
        exact ⟨m', by simpa [SharedTable.decide, IcebergTable.saveFacts, Function.update_of_ne hf] using hm', heq⟩
    · simp only [SharedTable.decide, Function.update_of_ne hs] at hd
      obtain ⟨m', hm', heq⟩ := h.lasting.recorded _ _ _ hd
      exact ⟨m', by simpa [SharedTable.decide, IcebergTable.saveFacts, Function.update_of_ne hs] using hm', heq⟩
  filed := h.filed.saveFacts s m
  calls := h.calls

/-- Facts written where nothing was decided leave every decision, and carry those of the snapshot they come from. -/
theorem combine {σ : SharedTable} (h : Tracked σ) {t : TableMetadata} {s : Int} {w : WriteFacts} {m : Manifest}
    (hfree : σ.decided s (manifestFile m.contract) = none)
    (hcarried : w.written ≠ .overwrite → ∀ d, σ.decidedBefore t s (manifestFile m.contract) = some d →
      m.guarantees = d.guarantees) : Tracked (σ.combine t s w m) where
  lasting := by
    refine ⟨fun s' file d hd => ?_, fun d m' hm' => ?_⟩
    · obtain ⟨m', hm', heq⟩ := h.lasting.recorded s' file d hd
      refine ⟨m', ?_, heq⟩
      have hne : ¬ (s' = s ∧ file = manifestFile m.contract) := by
        rintro ⟨rfl, rfl⟩
        have hd' : σ.decided s' (manifestFile m.contract) = some d := hd
        rw [hfree] at hd'
        cases hd'
      by_cases hs : s' = s
      · subst hs
        have hf : file ≠ manifestFile m.contract := fun hf => hne ⟨rfl, hf⟩
        simpa [SharedTable.combine, IcebergTable.saveFacts, Function.update_of_ne hf] using hm'
      · simpa [SharedTable.combine, IcebergTable.saveFacts, Function.update_of_ne hs] using hm'
    · simp only [SharedTable.combine] at hm'
      split at hm'
      · exact h.lasting.carried d m' hm'
      next hw =>
      split at hm'
      · exact h.lasting.carried d m' hm'
      next d' hd' =>
      rcases List.mem_cons.1 hm' with heq | hm'
      · cases heq
        exact hcarried hw _ hd'
      · exact h.lasting.carried d m' hm'
  filed := h.filed.saveFacts s m
  calls := h.calls

end Tracked

variable {sha256 : String → String} {p : Parsers} {name : String}

/-- One step of any call keeps the decisions, when it meets the condition. -/
theorem Tracked.step {σ σ' : SharedTable} {a : TableAction} (h : Tracked σ) (hsafe : Unbeaten σ a)
    (hstep : TableStep sha256 p name σ a σ') : Tracked σ' := by
  cases hstep with
  | commits s => exact ⟨⟨h.lasting.recorded, h.lasting.carried⟩, ⟨h.filed.facts, h.filed.writeFacts⟩, h.calls⟩
  | savesWrite write f => exact ⟨⟨h.lasting.recorded, h.lasting.carried⟩, h.filed.saveWriteFacts write f, h.calls⟩
  | looks _ c s =>
    refine h.setCall _ fun k hk => ?_
    cases hk
    trivial
  | @finds n c t s writes m hn _ hm =>
    refine h.setCall _ fun k hk => ?_
    cases hk
    have hrec := loadFacts_facts hm
    have hwrites : MadeOver t c.factsFile (some s) writes := h.calls _ _ hn
    refine ⟨hwrites, fun b hb => ?_, fun hb => nomatch hb⟩
    cases hb
    refine ⟨h.filed.facts _ _ _ hrec, fun d hd => ?_⟩
    obtain ⟨m', hm', hg, _⟩ := h.lasting.recorded _ _ _ hd
    have heq : m = m' := by simpa [Compilation.factsFile, hrec] using hm'
    rw [heq, hg]
  | @misses n c t s writes hn _ _ =>
    refine h.setCall _ fun k hk => ?_
    cases hk
    have hwrites : MadeOver t c.factsFile (some s) writes := h.calls _ _ hn
    exact hwrites
  | @reads n c t s time writes snapshot w hn hs hw _ =>
    refine h.setCall _ fun k hk => ?_
    cases hk
    obtain ⟨write, hrec⟩ := loadWriteFacts_facts hw
    have hwrites : MadeOver t c.factsFile (some s) writes := h.calls _ _ hn
    have hparent : w.written ≠ .overwrite → (t.snapshotById s).bind TableSnapshot.parent =
        if w.written = .overwrite then none else snapshot.parent := by
      intro hne
      rw [hs, if_neg hne]
      rfl
    exact .back ⟨h.filed.writeFacts _ _ _ hrec, hparent, hwrites⟩
  | @combines n c t known known_of d s time w writes m hn hm =>
    obtain ⟨hfree, hlast⟩ := hsafe _ _ _ _ _ _ _ _ _ hn
    obtain ⟨⟨hwfile, hparent, hwrites⟩, hknown, hnone⟩ := h.calls _ _ hn
    obtain ⟨_, hcontract, hguarantees, _⟩ := afterWrite_carries hm
    have hfile : manifestFile m.contract = c.factsFile := by
      rcases hcontract with hc | ⟨b, hb, hc⟩
      · rw [hc, hwfile]
      · rw [hc, (hknown b hb).1]
    refine (h.combine (hfile ▸ hfree) fun hne d' hd' => ?_).setCall _ fun k hk => ?_
    · -- The facts known are of the snapshot the write was made over, with its last decisions.
      rw [SharedTable.decidedBefore, hparent hne, hfile] at hd'
      cases hb : known with
      | none =>
        rw [hnone hb] at hd'
        cases hd'
      | some b =>
        cases hof : known_of with
        | none =>
          rw [hof] at hd'
          cases hd'
        | some before =>
          rw [hof] at hd'
          have hd : d = some d' := (hlast before hof).symm.trans hd'
          rw [hguarantees hne b hb, (hknown b hb).2 d' hd]
    · cases hk
      refine ⟨hwrites, fun b hb => ?_, fun hb => nomatch hb⟩
      cases hb
      refine ⟨hfile, fun d' hd' => ?_⟩
      rw [hfree] at hd'
      cases hd'
  | validates _ c s verdict files writtenAt decidedAt =>
    refine h.setCall _ fun k hk => ?_
    cases hk
    trivial
  | records _ => exact (h.decide _ _).setCall _ fun k hk => nomatch hk
  | ends n => exact h.setCall n fun k hk => nomatch hk

/-- Nothing is decided at first. -/
theorem Tracked.start (t : TableMetadata) : Tracked (.start t) where
  lasting := ⟨(fun _ _ _ hd => nomatch hd), fun _ _ hm => nomatch hm⟩
  filed := ⟨(fun _ _ _ hm => nomatch hm), fun _ _ _ hw => nomatch hw⟩
  calls _ _ hc := nomatch hc

/-- A validation's decisions last, and what is computed from its facts carries them, in every run in which no facts are
written over a decision they were not computed from. -/
theorem lasting_of_unbeaten {t : TableMetadata} {σ : SharedTable} {as : List TableAction}
    (h : Run (Guarded Unbeaten (TableStep sha256 p name)) (.start t) as σ) : Lasting σ :=
  (h.inv_of_all (I := Tracked) (fun _ _ _ hσ hsafe hstep => hσ.step hsafe hstep) (.start t)).lasting

/-! ## A table of one append -/

/-- The amounts, refused while their total is out of bounds, which only a validation decides. -/
def totalContract : Compilation :=
  { amountContract with
    contract := { amountContract.contract with guarantees := [⟨"total", .deny, [], "dataset.total < 100"⟩] }
    validation := { amountContract.validation with dataGuarantees := ["total"] } }

def totalAppend : WriteFacts :=
  ⟨.append, writeManifest amountsRuntime.sha256 totalContract (validateAmounts {[("amount", .int 1)]}) [] 0, []⟩

def totalSnapshot : TableSnapshot := ⟨1, none, some 0, some "w", ["amount"], []⟩

/-- The whole data breaks the guarantee. -/
def totalVerdict : Verdict :=
  { validateAmounts {[("amount", .int 1)]} with
    guarantees := Lookup.ofList [("total", false)], breached := ["total"], valid := false }

/-- The append is committed, and a read of it is about to record the facts it has found none of. -/
def readsTotal : List TableAction :=
  [.savesWrite "w" totalAppend, .commits totalSnapshot, .looks 0 totalContract 1, .misses 0, .reads 0]

abbrev TotalStep : SharedTable → TableAction → SharedTable → Prop :=
  TableStep amountsRuntime.sha256 amountsRuntime.parsers "amounts"

/-- A read has the write's facts in hand. -/
theorem readsTotal_run : ∃ σ, Run (Guarded Unbeaten TotalStep) (.start ⟨[], none, []⟩) readsTotal σ ∧
    σ.calls 0 = some (.combining totalContract ⟨[totalSnapshot], some 1, []⟩ none none none [(1, 0, totalAppend)]) ∧
    σ.calls 1 = none ∧ σ.decided = fun _ _ => none := by
  have hwrite : ∀ t : IcebergTable, (t.saveWriteFacts "w" totalAppend).loadWriteFacts "amounts" totalSnapshot
      totalContract.contract.name = .ok (some totalAppend) := by
    intro t
    have hname : manifestFile totalContract.contract.name = manifestFile totalAppend.facts.contract := rfl
    simp [IcebergTable.loadWriteFacts, IcebergTable.saveWriteFacts, totalSnapshot, hname]
  have hread := hwrite ⟨TableMetadata.push ⟨[], none, []⟩ totalSnapshot, fun _ _ => .absent, fun _ _ => .absent⟩
  refine ⟨_, .cons ⟨trivial, .savesWrite "w" totalAppend⟩ (.cons ⟨trivial, .commits totalSnapshot⟩
    (.cons ⟨trivial, .looks rfl totalContract 1⟩ (.cons ⟨trivial, .misses (at_calls _ _ _) rfl rfl⟩
      (.cons ⟨trivial, .reads (at_calls _ _ _) rfl hread rfl⟩ (.nil _))))), rfl, rfl, rfl⟩

/-- The facts the read computes: nothing is decided in them. -/
def totalRead : Manifest :=
  settled amountsRuntime.sha256 totalContract (some 1) { totalAppend.facts with guarantees := Lookup.empty }

/-- It combines them to facts without a decision. -/
theorem totalRead_computed : afterWrite amountsRuntime.sha256 amountsRuntime.parsers totalContract none totalAppend 0
    (some 1) = .ok (some totalRead) := rfl

/-- What the validation records. -/
def totalWhole : Manifest := wholeManifest amountsRuntime.sha256 totalContract totalVerdict [] 1 2 (some 1)

/-- The facts are recorded before the validation, and its decisions last. -/
theorem lasting_of_unbeaten_total : ∃ as σ, Run (Guarded Unbeaten TotalStep) (.start ⟨[], none, []⟩) as σ ∧
    σ.decided 1 totalContract.factsFile = some totalWhole ∧ Lasting σ := by
  obtain ⟨σ, hrun, hcall, hfree, hdecided⟩ := readsTotal_run
  have hsafe : Unbeaten σ (.combines 0) := by
    intro c t known known_of d s time w writes h
    rw [hcall] at h
    cases h
    rw [hdecided]
    exact ⟨rfl, fun _ h => nomatch h⟩
  have hrun₁ := hrun.snoc ⟨hsafe, .combines hcall totalRead_computed⟩
  have hvalidates : ∀ τ, Unbeaten τ (.validates 1 totalContract 1 totalVerdict [] 1 2) := fun _ => trivial
  have hfree₁ : ∀ (t : TableMetadata) (call : Option FactsCall),
      ((σ.combine t 1 totalAppend totalRead).at_ 0 call).calls 1 = none := by
    intro t call
    simpa [SharedTable.at_, SharedTable.combine] using hfree
  have hrun₂ := hrun₁.snoc ⟨hvalidates _, .validates (hfree₁ _ _) totalContract 1 totalVerdict [] 1 2⟩
  have hrecords : ∀ τ, Unbeaten τ (.records 1) := fun _ => trivial
  have hrun₃ := hrun₂.snoc ⟨hrecords _, .records (at_calls _ _ _)⟩
  refine ⟨_, _, hrun₃, ?_, lasting_of_unbeaten hrun₃⟩
  simp [SharedTable.decide, SharedTable.at_, Compilation.factsFile, totalWhole, wholeManifest]

/-- The validation refuses the data while a read of it is under way, and the read then records facts in which nothing is
refused. -/
theorem decision_overwritten : ∃ σ, Run TotalStep (.start ⟨[], none, []⟩)
      (readsTotal ++ [.validates 1 totalContract 1 totalVerdict [] 1 2] ++ [.records 1] ++ [.combines 0]) σ ∧
    σ.decided 1 totalContract.factsFile = some totalWhole ∧ totalWhole.valid = false ∧
    σ.table.facts 1 totalContract.factsFile = .facts totalRead ∧ totalRead.valid = true ∧ ¬ Lasting σ := by
  obtain ⟨σ, hrun, hcall, hfree, _⟩ := readsTotal_run
  have hrun₁ := hrun.of_guarded.snoc (.validates hfree totalContract 1 totalVerdict [] 1 2)
  have hrun₂ := hrun₁.snoc (.records (at_calls _ _ _))
  have hrun₃ := hrun₂.snoc (.combines (n := 0) (by simpa [SharedTable.at_, SharedTable.decide] using hcall)
    totalRead_computed)
  have hfile : manifestFile totalRead.contract = totalContract.factsFile := rfl
  have hdecided : ∀ σ' : SharedTable, (σ'.decide 1 totalWhole).decided 1 totalContract.factsFile = some totalWhole := by
    intro σ'
    simp [SharedTable.decide, Compilation.factsFile, totalWhole, wholeManifest]
  have hrecorded : ∀ (σ' : SharedTable) (t : TableMetadata),
      (σ'.combine t 1 totalAppend totalRead).table.facts 1 totalContract.factsFile = .facts totalRead := by
    intro σ' t
    simp [SharedTable.combine, IcebergTable.saveFacts, hfile]
  let σ₁ := σ.at_ 1 (some (.validated 1 totalWhole))
  have hdecided₁ := hdecided σ₁
  have hrecorded₂ := hrecorded ((σ₁.decide 1 totalWhole).at_ 1 none) ⟨[totalSnapshot], some 1, []⟩
  refine ⟨_, hrun₃, hdecided₁, rfl, hrecorded₂, rfl, fun hlasting => ?_⟩
  obtain ⟨m, hm, _, _, hvalid⟩ := hlasting.recorded 1 totalContract.factsFile totalWhole hdecided₁
  have heq : totalRead = m := Recorded.facts.inj (hrecorded₂.symm.trans hm)
  rw [← heq] at hvalid
  exact absurd hvalid (by decide)

/-! ## One call on its own -/

section Alone

variable {R : Runtime} {table : String} {σ₀ : SharedTable} {k : Nat}

/-- The storage is as a run from `σ₀` leaves the table. -/
def Reached (R : Runtime) (table : String) (σ₀ : SharedTable) (n : Node) : Prop :=
  ∃ as σ, Run (TableStep R.sha256 R.parsers table) σ₀ as σ ∧ n.storage.tables table = some σ.table

/-- So it is, and the call is where the run leaves it. -/
def ReachedAt (R : Runtime) (table : String) (σ₀ : SharedTable) (k : Nat) (call : FactsCall) (n : Node) : Prop :=
  ∃ as σ, Run (TableStep R.sha256 R.parsers table) σ₀ as σ ∧ n.storage.tables table = some σ.table ∧
    σ.calls k = some call

theorem ReachedAt.reached {call : FactsCall} {n : Node} (h : ReachedAt R table σ₀ k call n) :
    Reached R table σ₀ n := by
  obtain ⟨as, σ, hrun, htable, _⟩ := h
  exact ⟨as, σ, hrun, htable⟩

/-- One more step of the call. -/
theorem ReachedAt.step {call call' : FactsCall} {n n' : Node} {a : TableAction} (h : ReachedAt R table σ₀ k call n)
    (hstep : ∀ σ, n.storage.tables table = some σ.table → σ.calls k = some call →
      ∃ σ', TableStep R.sha256 R.parsers table σ a σ' ∧ n'.storage.tables table = some σ'.table ∧
        σ'.calls k = some call') : ReachedAt R table σ₀ k call' n' := by
  obtain ⟨as, σ, hrun, htable, hcall⟩ := h
  obtain ⟨σ', ha, htable', hcall'⟩ := hstep σ htable hcall
  exact ⟨as ++ [a], σ', hrun.snoc ha, htable', hcall'⟩

theorem touchRead_apply {α : Type} (contract : String) (recorded : Storage → Recorded α) (n : Node) :
    ∃ m, m.storage = n.storage ∧ Ask.touchRead contract recorded n = .ok ⟨⟩ m := by
  by_cases h : (recorded n.storage).isAbsent
  · exact ⟨n, rfl, by simp [Ask.touchRead, Effects.modify_apply, h]⟩
  · exact ⟨{ n with touched := n.touched ++ [.manifestRead contract] }, rfl,
      by simp [Ask.touchRead, Effects.modify_apply, h]⟩

/-- A read of the facts recorded for a snapshot is of the table as it is. -/
theorem loadFacts_apply {n : Node} {t : IcebergTable} (h : n.storage.tables table = some t) (s : Int)
    (contract : String) : ∃ m, m.storage = n.storage ∧ loadFacts table s contract n =
      match t.loadFacts table s contract with
      | .ok a => .ok a m
      | .error e => .error e m := by
  obtain ⟨m, hm, htouch⟩ := touchRead_apply contract (fun x => x.factsAt table s contract) n
  refine ⟨m, hm, ?_⟩
  unfold loadFacts
  rw [bind_apply, htouch]
  dsimp only
  rw [Ask.storage_apply, hm]
  simp only [h]
  cases t.loadFacts table s contract <;> rfl

/-- So is a read of a write's facts. -/
theorem loadWriteFacts_apply {n : Node} {t : IcebergTable} (h : n.storage.tables table = some t) (s : TableSnapshot)
    (contract : String) : ∃ m, m.storage = n.storage ∧ loadWriteFacts table s contract n =
      match t.loadWriteFacts table s contract with
      | .ok a => .ok a m
      | .error e => .error e m := by
  unfold loadWriteFacts
  cases hid : s.writeId with
  | none =>
    refine ⟨n, rfl, ?_⟩
    simp only [Ask.storage_apply, h]
    cases t.loadWriteFacts table s contract <;> rfl
  | some write =>
    obtain ⟨m, hm, htouch⟩ := touchRead_apply contract (fun x => x.writeFactsAt table write contract) n
    refine ⟨m, hm, ?_⟩
    dsimp only
    rw [bind_apply, htouch]
    dsimp only
    rw [Ask.storage_apply, hm]
    simp only [h]
    cases t.loadWriteFacts table s contract <;> rfl

/-- Facts saved are in the table. -/
theorem saveFacts_apply {n : Node} {t : IcebergTable} (h : n.storage.tables table = some t) {s : Int} {m : Manifest}
    (hs : m.snapshotId = some s) :
    ∃ n', n'.storage.tables table = some (t.saveFacts s m) ∧ saveFacts table m n = .ok ⟨⟩ n' := by
  unfold saveFacts
  rw [hs]
  refine ⟨_, ?_, rfl⟩
  show (n.storage.saveFacts table s m).tables table = _
  rw [Storage.saveFacts_tables, if_pos rfl, h]
  rfl

end Alone

end Peql
