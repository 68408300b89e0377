import Peql.Iceberg.Schema
import Peql.Lib.Runs

/-!
# A schema change among other writers

`IcebergLocation::evolve` computes the columns a table lacks, commits them, looks at what came of it, and after a
refusal or a table that still lacks some tries again, as often as the table's retry properties allow. Between its
calls of the catalog other writers do anything, and the crate commits over the table as it is by then. The loop ends
within its attempts; it returns a table that has the wanted columns, with every column of before that no other writer
took away (`evolve_ends`).
-/

namespace Peql

open Runs

/-- A table as `evolve` loads it. -/
structure Loaded where
  uuid : String
  schemaId : Nat
  schema : List ColumnDef
deriving DecidableEq

/-! ## The loop, from one call of the catalog to the next -/

/-- Where the loop is. `refused` is the last refusal of another writer's doing, `retried` the retries made. -/
inductive Evolving
  /-- The columns computed over `seen` are to be committed. -/
  | committing (seen : Loaded) (adds : List ColumnDef) (refused : Option String) (retried : Nat)
  /-- The commit was refused: the table is to be loaded. -/
  | refused (seen : Loaded) (e : String) (retried : Nat)
  /-- The next attempt is to be waited for. -/
  | waiting (table : Loaded) (refused : Option String) (retried : Nat)
  /-- The wait is over: the table is to be loaded. -/
  | reloading (refused : Option String) (retried : Nat)
  | evolved (table : Loaded)
  | failed (e : PeqlError)

/-- The loop has returned. -/
def Evolving.done : Evolving → Bool
  | .evolved _ | .failed _ => true
  | _ => false

/-- It calls the catalog next. -/
def Evolving.calls : Evolving → Bool
  | .committing .. | .refused .. | .reloading .. => true
  | _ => false

section Loop

variable (S : Schemas) (table : String) (want : List ColumnDef)

/-- The top of the loop, over the table as loaded. -/
def look (t : Loaded) (refused : Option String) (retried : Nat) : Evolving :=
  match S.schemaChange table t.schema want refused.isSome with
  | .error e => .failed e
  | .ok none => .evolved t
  | .ok (some adds) => .committing t adds refused retried

/-- `CommitRetry::of(&table)?.start()`, and the loop's top: `retries` are what the table's properties say. -/
def evolveStart (retries : Except PeqlError Nat) (t : Loaded) : Evolving :=
  match retries with
  | .error e => .failed e
  | .ok _ => look S table want t none 0

/-- The crate's own retry may have applied the change over a schema another writer had changed again: look once more. -/
def afterCommit (committed : Loaded) (refused : Option String) (retried : Nat) : Evolving :=
  match S.schemaChange table committed.schema want refused.isSome with
  | .error e => .failed e
  | .ok none => .evolved committed
  | .ok (some _) => .waiting committed refused retried

/-- After a refusal: where nobody changed the schema, it is the change's own. -/
def afterRefusal (seen : Loaded) (e : String) (retried : Nat) : Option Loaded → Evolving
  | none => .failed (.invalid s!"{table} was dropped while its schema was changed: {e}")
  | some now =>
    if now.uuid = seen.uuid ∧ now.schemaId = seen.schemaId ∧ now.schema = seen.schema then .failed (.iceberg e)
    else .waiting now (some e) retried

/-- After the last attempt: the columns may be there all the same. -/
def giveUp (t : Loaded) (refused : Option String) (retried : Nat) : Evolving :=
  match S.schemaChange table t.schema want true with
  | .error e => .failed e
  | .ok none => .evolved t
  | .ok (some _) =>
    .failed (.conflict ("the schema of " ++ table ++ " changed under each of " ++ toString (retried + 1) ++
      " attempts to make it have the contract's columns; the last refusal: " ++ refused.getD "none"))

/-- `Retrying::wait`, of a policy of so many retries: `due` says that the total time is not passed. -/
def afterWait (retries : Nat) (due : Bool) (t : Loaded) (refused : Option String) (retried : Nat) : Evolving :=
  if retried < retries ∧ due = true then .reloading refused (retried + 1) else giveUp S table want t refused retried

def afterReload (refused : Option String) (retried : Nat) : Option Loaded → Evolving
  | none => .failed (.invalid s!"{table} was dropped while its schema was changed")
  | some t => look S table want t refused retried

end Loop

/-! ## Among other writers -/

/-- A table, none once it is dropped, and a schema change of it under way; what the last other writer left, and the
commits the change has made. -/
structure Evolution where
  table : Option Loaded
  left : Option Loaded
  phase : Evolving
  commits : Nat

inductive EvolveAction
  /-- Other writers leave the table so. -/
  | others (table : Option Loaded)
  | commits | refuses | loads | waits | fails

/-- The loop's own. -/
def EvolveAction.own : EvolveAction → Bool
  | .others _ => false
  | _ => true

section System

variable (S : Schemas) (table : String) (want : List ColumnDef) (retries : Except PeqlError Nat)

/-- `evolve` is called with the table as it loaded it. -/
def Evolution.start (t : Loaded) : Evolution := ⟨some t, some t, evolveStart S table want retries t, 0⟩

/-- How many retries the table allows. -/
def retriesOf (retries : Except PeqlError Nat) : Nat := retries.toOption.getD 0

/-- A call of the catalog by the loop, a wait of it, or what other writers do. The crate applies the change to the
schema as it is when the catalog takes it, and fails where that has one of the columns by then. -/
inductive EvolveStep : Evolution → EvolveAction → Evolution → Prop
  | others (s : Evolution) (t : Option Loaded) : EvolveStep s (.others t) { s with table := t, left := t }
  | commits {s : Evolution} {seen t : Loaded} {adds : List ColumnDef} {refused : Option String}
      {retried : Nat} (id : Nat)
      (hp : s.phase = .committing seen adds refused retried) (ht : s.table = some t)
      (hfresh : ∀ a ∈ adds, fieldNamed t.schema a.name = none) :
      EvolveStep s .commits
        { s with
          table := some { t with schemaId := id, schema := t.schema ++ adds }
          phase := afterCommit S table want { t with schemaId := id, schema := t.schema ++ adds } refused retried
          commits := s.commits + 1 }
  | refuses {s : Evolution} {seen : Loaded} {adds : List ColumnDef} {refused : Option String}
      {retried : Nat} (e : String)
      (hp : s.phase = .committing seen adds refused retried) :
      EvolveStep s .refuses { s with phase := .refused seen e retried, commits := s.commits + 1 }
  | loadsRefused {s : Evolution} {seen : Loaded} {e : String} {retried : Nat} (hp : s.phase = .refused seen e retried) :
      EvolveStep s .loads { s with phase := afterRefusal table seen e retried s.table }
  | loadsAgain {s : Evolution} {refused : Option String} {retried : Nat} (hp : s.phase = .reloading refused retried) :
      EvolveStep s .loads { s with phase := afterReload S table want refused retried s.table }
  | waits {s : Evolution} {t : Loaded} {refused : Option String} {retried : Nat} (due : Bool)
      (hp : s.phase = .waiting t refused retried) :
      EvolveStep s .waits { s with phase := afterWait S table want (retriesOf retries) due t refused retried }
  | fails {s : Evolution} (e : PeqlError) (going : s.phase.calls = true) :
      EvolveStep s .fails { s with phase := .failed e }

end System

/-! ## What each part of the loop leads to -/

section Cases

variable (S : Schemas) (table : String) (want : List ColumnDef) (t : Loaded) (refused : Option String) (retried : Nat)

/-- A look at the table fails, ends, or finds columns to add. -/
theorem look_cases : (∃ e, look S table want t refused retried = .failed e) ∨
    (look S table want t refused retried = .evolved t ∧ S.Covers t.schema want) ∨
      ∃ adds, look S table want t refused retried = .committing t adds refused retried := by
  unfold look
  split
  · exact .inl ⟨_, rfl⟩
  · next h => exact .inr (.inl ⟨rfl, Schemas.schemaChange_none h⟩)
  · exact .inr (.inr ⟨_, rfl⟩)

/-- After a commit the table is looked at again. -/
theorem afterCommit_cases : (∃ e, afterCommit S table want t refused retried = .failed e) ∨
    (afterCommit S table want t refused retried = .evolved t ∧ S.Covers t.schema want) ∨
      afterCommit S table want t refused retried = .waiting t refused retried := by
  unfold afterCommit
  split
  · exact .inl ⟨_, rfl⟩
  · next h => exact .inr (.inl ⟨rfl, Schemas.schemaChange_none h⟩)
  · exact .inr (.inr rfl)

/-- After a refusal it is given up, or retried. -/
theorem afterRefusal_cases (table : String) (seen : Loaded) (e : String) (retried : Nat) (loaded : Option Loaded) :
    (∃ e', afterRefusal table seen e retried loaded = .failed e') ∨
      ∃ now, loaded = some now ∧ afterRefusal table seen e retried loaded = .waiting now (some e) retried := by
  cases loaded with
  | none => exact .inl ⟨_, rfl⟩
  | some now =>
    unfold afterRefusal
    simp only
    split
    · exact .inl ⟨_, rfl⟩
    · exact .inr ⟨now, rfl, rfl⟩

/-- Giving up, the columns may be there after all. -/
theorem giveUp_cases : (∃ e, giveUp S table want t refused retried = .failed e) ∨
    (giveUp S table want t refused retried = .evolved t ∧ S.Covers t.schema want) := by
  unfold giveUp
  split
  · exact .inl ⟨_, rfl⟩
  · next h => exact .inr ⟨rfl, Schemas.schemaChange_none h⟩
  · exact .inl ⟨_, rfl⟩

/-- The wait for the next retry, or the end. -/
theorem afterWait_cases (S : Schemas) (table : String) (want : List ColumnDef) (n : Nat) (due : Bool) (t : Loaded)
    (refused : Option String) (retried : Nat) :
    (retried < n ∧ afterWait S table want n due t refused retried = .reloading refused (retried + 1)) ∨
      (∃ e, afterWait S table want n due t refused retried = .failed e) ∨
        (afterWait S table want n due t refused retried = .evolved t ∧ S.Covers t.schema want) := by
  unfold afterWait
  split
  · next h => exact .inl ⟨h.1, rfl⟩
  · exact .inr (giveUp_cases S table want t refused retried)

end Cases

/-! ## The invariant -/

section Invariant

variable {S : Schemas} {table : String} {want : List ColumnDef} {retries : Except PeqlError Nat}

/-- The retries made and the commits, in each place of the loop. -/
def Evolving.Counts (retries commits : Nat) : Evolving → Prop
  | .committing _ _ _ k | .reloading _ k => commits = k ∧ k ≤ retries
  | .refused _ _ k | .waiting _ _ k => commits = k + 1 ∧ k ≤ retries
  | .evolved _ | .failed _ => commits ≤ retries + 1

/-- The loop returns a table with the wanted columns. -/
def Evolving.Returns (S : Schemas) (want : List ColumnDef) : Evolving → Prop
  | .evolved t => S.Covers t.schema want
  | _ => True

/-- The steps the loop can still take. -/
def Evolving.left (retries : Nat) : Evolving → Nat
  | .committing _ _ _ k => 4 * (retries - k) + 3
  | .refused _ _ k => 4 * (retries - k) + 2
  | .waiting _ _ k => 4 * (retries - k) + 1
  | .reloading _ k => 4 * (retries - k) + 4
  | .evolved _ | .failed _ => 0

/-- A table has a column, so defined. -/
def HasColumn (name : String) (f : ColumnDef) (t : Option Loaded) : Prop :=
  ∃ l, t = some l ∧ fieldNamed l.schema name = some f

/-- The counts are right, what is returned has the wanted columns, and every column is as other writers left it. -/
structure Evolution.Sound (S : Schemas) (want : List ColumnDef) (retries : Nat) (s : Evolution) : Prop where
  counts : s.phase.Counts retries s.commits
  returns : s.phase.Returns S want
  left : ∀ name f, HasColumn name f s.left → HasColumn name f s.table

/-- A look counts no retry. -/
theorem look_counts {t : Loaded} {refused : Option String} {retried : Nat} {n : Nat} (h : retried ≤ n) :
    (look S table want t refused retried).Counts n retried ∧
      (look S table want t refused retried).Returns S want := by
  rcases look_cases S table want t refused retried with
    ⟨e, he⟩ | ⟨he, hcov⟩ | ⟨adds, he⟩
  · rw [he]
    exact ⟨Nat.le_succ_of_le h, trivial⟩
  · rw [he]
    exact ⟨Nat.le_succ_of_le h, hcov⟩
  · rw [he]
    exact ⟨⟨rfl, h⟩, trivial⟩

/-- An evolution begins soundly. -/
theorem Evolution.Sound.start (S : Schemas) (table : String) (want : List ColumnDef) (retries : Except PeqlError Nat)
    (t : Loaded) :
    (Evolution.start S table want retries t).Sound S want (retriesOf retries) := by
  refine ⟨?_, ?_, fun _ _ h => h⟩ <;> simp only [Evolution.start, evolveStart] <;> split
  · exact Nat.zero_le _
  · exact (look_counts (Nat.zero_le _)).1
  · trivial
  · exact (look_counts (Nat.zero_le 0)).2

/-- A column stays when others are added. -/
theorem HasColumn.append {name : String} {f : ColumnDef} {t : Loaded} (h : HasColumn name f (some t)) (id : Nat)
    (adds : List ColumnDef) : HasColumn name f (some { t with schemaId := id, schema := t.schema ++ adds }) := by
  obtain ⟨l, hl, hf⟩ := h
  obtain rfl := Option.some.inj hl
  exact ⟨_, rfl, fieldNamed_append hf adds⟩

/-- What the loop returns has the wanted columns. -/
theorem EvolveStep.returns {s s' : Evolution} {a : EvolveAction} (hs : s.phase.Returns S want)
    (h : EvolveStep S table want retries s a s') : s'.phase.Returns S want := by
  cases h with
  | others t => exact hs
  | @commits seen t adds refused retried id hp ht hfresh =>
    rcases afterCommit_cases S table want { t with schemaId := id, schema := t.schema ++ adds } refused retried with
      ⟨e, he⟩ | ⟨he, hcov⟩ | he <;> simp only [he]
    · trivial
    · exact hcov
    · trivial
  | refuses e hp => trivial
  | @loadsRefused seen e retried hp =>
    rcases afterRefusal_cases table seen e retried s.table with ⟨e', he⟩ | ⟨now, _, he⟩ <;> simp only [he] <;> trivial
  | @loadsAgain refused retried hp =>
    cases s.table with
    | none => trivial
    | some t => exact (look_counts (Nat.le_refl retried)).2
  | @waits t refused retried due hp =>
    rcases afterWait_cases S table want (retriesOf retries) due t refused retried
      with ⟨_, he⟩ | ⟨e, he⟩ | ⟨he, hcov⟩ <;>
      simp only [he]
    · trivial
    · trivial
    · exact hcov
  | fails e going => trivial

/-- Its steps keep it sound. -/
theorem EvolveStep.sound {s s' : Evolution} {a : EvolveAction} (hs : s.Sound S want (retriesOf retries))
    (h : EvolveStep S table want retries s a s') : s'.Sound S want (retriesOf retries) := by
  have hreturns := h.returns hs.returns
  obtain ⟨hcounts, _, hleft⟩ := hs
  cases h with
  | others t => exact ⟨hcounts, hreturns, fun _ _ h => h⟩
  | @commits seen t adds refused retried id hp ht hfresh =>
    rw [hp] at hcounts
    obtain ⟨hc, hk⟩ := hcounts
    refine ⟨?_, hreturns, fun name f hf => ?_⟩
    · rcases afterCommit_cases S table want { t with schemaId := id, schema := t.schema ++ adds } refused retried with
        ⟨e, he⟩ | ⟨he, _⟩ | he <;> simp only [he, Evolving.Counts] <;> omega
    · have htable := hleft name f hf
      rw [ht] at htable
      exact htable.append id adds
  | refuses e hp =>
    rw [hp] at hcounts
    obtain ⟨hc, hk⟩ := hcounts
    exact ⟨⟨by simp only [hc], hk⟩, hreturns, hleft⟩
  | @loadsRefused seen e retried hp =>
    rw [hp] at hcounts
    obtain ⟨hc, hk⟩ := hcounts
    refine ⟨?_, hreturns, hleft⟩
    rcases afterRefusal_cases table seen e retried s.table with ⟨e', he⟩ | ⟨now, _, he⟩ <;>
      simp only [he, Evolving.Counts] <;> omega
  | @loadsAgain refused retried hp =>
    rw [hp] at hcounts
    obtain ⟨hc, hk⟩ := hcounts
    refine ⟨?_, hreturns, hleft⟩
    cases s.table with
    | none => exact (by omega : s.commits ≤ retriesOf retries + 1)
    | some t =>
      simp only [hc]
      exact (look_counts hk).1
  | @waits t refused retried due hp =>
    rw [hp] at hcounts
    obtain ⟨hc, hk⟩ := hcounts
    refine ⟨?_, hreturns, hleft⟩
    rcases afterWait_cases S table want (retriesOf retries) due t refused retried with ⟨hlt, he⟩ | ⟨e, he⟩ | ⟨he, _⟩ <;>
      simp only [he, Evolving.Counts] <;> omega
  | fails e going =>
    refine ⟨?_, hreturns, hleft⟩
    cases hp : s.phase <;> rw [hp] at hcounts going <;>
      simp only [Evolving.Counts, Evolving.calls] at hcounts going ⊢ <;>
      omega

/-! ## The steps left -/

/-- After a look there are so many steps left. -/
theorem left_look (S : Schemas) (table : String) (want : List ColumnDef) (t : Loaded) (refused : Option String)
    (retried n : Nat) :
    (look S table want t refused retried).left n ≤ 4 * (n - retried) + 3 := by
  rcases look_cases S table want t refused retried with
    ⟨e, he⟩ | ⟨he, _⟩ | ⟨adds, he⟩ <;> rw [he] <;> simp only [Evolving.left] <;> omega

/-- Each step of the loop leaves fewer; other writers' leave as many. -/
theorem EvolveStep.left {s s' : Evolution} {a : EvolveAction} (hs : s.Sound S want (retriesOf retries))
    (h : EvolveStep S table want retries s a s') :
    (if a.own then 1 else 0) + s'.phase.left (retriesOf retries) ≤ s.phase.left (retriesOf retries) := by
  have hcounts := hs.counts
  cases h with
  | others t => simp [EvolveAction.own]
  | @commits seen t adds refused retried id hp ht hfresh =>
    rw [hp]
    rcases afterCommit_cases S table want { t with schemaId := id, schema := t.schema ++ adds } refused retried with
      ⟨e, he⟩ | ⟨he, _⟩ | he <;> simp only [he, EvolveAction.own, Evolving.left, if_true] <;> omega
  | refuses e hp =>
    rw [hp]
    simp only [EvolveAction.own, Evolving.left, if_true]
    omega
  | @loadsRefused seen e retried hp =>
    rw [hp]
    rcases afterRefusal_cases table seen e retried s.table with ⟨e', he⟩ | ⟨now, _, he⟩ <;>
      simp only [he, EvolveAction.own, Evolving.left, if_true] <;> omega
  | @loadsAgain refused retried hp =>
    rw [hp] at hcounts ⊢
    cases s.table with
    | none =>
      simp only [afterReload, EvolveAction.own, Evolving.left, if_true]
      omega
    | some t =>
      have hlook := left_look S table want t refused retried (retriesOf retries)
      simp only [afterReload, EvolveAction.own, Evolving.left, if_true] at hlook ⊢
      omega
  | @waits t refused retried due hp =>
    rw [hp]
    rcases afterWait_cases S table want (retriesOf retries) due t refused retried with ⟨hlt, he⟩ | ⟨e, he⟩ | ⟨he, _⟩ <;>
      simp only [he, EvolveAction.own, Evolving.left, if_true] <;> omega
  | fails e going =>
    cases hp : s.phase <;> rw [hp] at going <;> simp only [Evolving.calls] at going <;>
      first
      | (simp only [EvolveAction.own, Evolving.left, if_true]; omega)
      | cases going

/-- A run has no more own steps than were left. -/
theorem steps_left {s s' : Evolution} {as : List EvolveAction} (hs : s.Sound S want (retriesOf retries))
    (h : Run (EvolveStep S table want retries) s as s') :
    (as.filter EvolveAction.own).length + s'.phase.left (retriesOf retries) ≤ s.phase.left (retriesOf retries) := by
  induction h with
  | nil s => simp
  | @cons s t u a as hstep _ ih =>
    have hone := hstep.left hs
    have hrest := ih (hstep.sound hs)
    rw [List.filter_cons]
    split
    · next hown =>
      simp only [hown, if_true, List.length_cons] at hone ⊢
      omega
    · next hown =>
      simp only [hown, Bool.false_eq_true, if_false] at hone
      omega

/-- The loop can always take a step until it has returned. -/
theorem goes_on {s : Evolution} (h : s.phase.done = false) :
    ∃ a s', a.own = true ∧ EvolveStep S table want retries s a s' := by
  cases hp : s.phase with
  | committing seen adds refused retried => exact ⟨.refuses, _, rfl, .refuses "" hp⟩
  | refused seen e retried => exact ⟨.loads, _, rfl, .loadsRefused hp⟩
  | waiting t refused retried => exact ⟨.waits, _, rfl, .waits true hp⟩
  | reloading refused retried => exact ⟨.loads, _, rfl, .loadsAgain hp⟩
  | evolved t =>
    rw [hp] at h
    cases h
  | failed e =>
    rw [hp] at h
    cases h

/-! ## Columns of before -/

/-- The table the loop has in hand. -/
def Evolving.held : Evolving → Option Loaded
  | .committing t _ _ _ | .refused t _ _ | .waiting t _ _ | .evolved t => some t
  | .reloading .. | .failed _ => none

/-- A column is in the table, and in the table in hand. -/
def Evolution.Has (name : String) (f : ColumnDef) (s : Evolution) : Prop :=
  HasColumn name f s.table ∧ ∀ t, s.phase.held = some t → HasColumn name f (some t)

/-- A look holds the table it looked at. -/
theorem held_look {t t' : Loaded} {refused : Option String} {retried : Nat}
    (h : (look S table want t refused retried).held = some t') : t' = t := by
  rcases look_cases S table want t refused retried with
    ⟨e, he⟩ | ⟨he, _⟩ | ⟨adds, he⟩ <;> rw [he] at h <;> cases h <;> rfl

/-- A column stays while no other writer takes it away. -/
theorem EvolveStep.has {name : String} {f : ColumnDef} {s s' : Evolution} {a : EvolveAction} (hs : s.Has name f)
    (hothers : ∀ t, a = .others t → HasColumn name f t) (h : EvolveStep S table want retries s a s') :
    s'.Has name f := by
  obtain ⟨htable, hheld⟩ := hs
  cases h with
  | others t => exact ⟨hothers t rfl, hheld⟩
  | @commits seen t adds refused retried id hp ht hfresh =>
    rw [ht] at htable
    have hcol := htable.append id adds
    refine ⟨hcol, fun t' ht' => ?_⟩
    rcases afterCommit_cases S table want { t with schemaId := id, schema := t.schema ++ adds } refused retried with
      ⟨e, he⟩ | ⟨he, _⟩ | he <;> simp only [he] at ht' <;> cases ht' <;> exact hcol
  | refuses e hp =>
    rw [hp] at hheld
    exact ⟨htable, hheld⟩
  | @loadsRefused seen e retried hp =>
    refine ⟨htable, fun t' ht' => ?_⟩
    rcases afterRefusal_cases table seen e retried s.table with ⟨e', he⟩ | ⟨now, hnow, he⟩ <;> simp only [he] at ht' <;>
      cases ht'
    rwa [hnow] at htable
  | @loadsAgain refused retried hp =>
    refine ⟨htable, fun t' ht' => ?_⟩
    cases hloaded : s.table with
    | none =>
      rw [hloaded] at ht'
      cases ht'
    | some t =>
      simp only [hloaded] at ht'
      rw [held_look ht', ← hloaded]
      exact htable
  | @waits t refused retried due hp =>
    rw [hp] at hheld
    refine ⟨htable, fun t' ht' => ?_⟩
    rcases afterWait_cases S table want (retriesOf retries) due t refused retried with ⟨_, he⟩ | ⟨e, he⟩ | ⟨he, _⟩ <;>
      simp only [he] at ht' <;> cases ht'
    exact hheld t rfl
  | fails e going =>
    refine ⟨htable, fun t' ht' => ?_⟩
    cases ht'

/-- A step of the loop takes no column from the table and changes none. -/
theorem EvolveStep.own_table {s s' : Evolution} {a : EvolveAction} (hown : a.own = true)
    (h : EvolveStep S table want retries s a s') {t : Loaded} (ht : s.table = some t) :
    ∃ t', s'.table = some t' ∧ KeptIn t.schema t'.schema := by
  cases h with
  | others l => cases hown
  | @commits seen u adds refused retried id hp hu hfresh =>
    obtain rfl := Option.some.inj (ht.symm.trans hu)
    exact ⟨_, rfl, KeptIn.append _ _⟩
  | refuses e hp => exact ⟨t, ht, KeptIn.refl _⟩
  | loadsRefused hp => exact ⟨t, ht, KeptIn.refl _⟩
  | loadsAgain hp => exact ⟨t, ht, KeptIn.refl _⟩
  | waits due hp => exact ⟨t, ht, KeptIn.refl _⟩
  | fails e going => exact ⟨t, ht, KeptIn.refl _⟩

/-- The table in hand was in hand before, or is the table. -/
theorem EvolveStep.own_held {s s' : Evolution} {a : EvolveAction} (h : EvolveStep S table want retries s a s')
    {t : Loaded} (ht : s'.phase.held = some t) : s.phase.held = some t ∨ s'.table = some t := by
  cases h with
  | others l => exact .inl ht
  | @commits seen u adds refused retried id hp hu hfresh =>
    right
    rcases afterCommit_cases S table want { u with schemaId := id, schema := u.schema ++ adds } refused retried with
      ⟨e, he⟩ | ⟨he, _⟩ | he <;> simp only [he] at ht <;> cases ht <;> rfl
  | refuses e hp =>
    rw [hp]
    exact .inl ht
  | @loadsRefused seen e retried hp =>
    rcases afterRefusal_cases table seen e retried s.table with ⟨e', he⟩ | ⟨now, hnow, he⟩ <;> simp only [he] at ht <;>
      cases ht
    exact .inr hnow
  | @loadsAgain refused retried hp =>
    right
    cases hloaded : s.table with
    | none =>
      rw [hloaded] at ht
      cases ht
    | some u =>
      simp only [hloaded] at ht
      rw [held_look ht]
  | @waits u refused retried due hp =>
    rw [hp]
    rcases afterWait_cases S table want (retriesOf retries) due u refused retried with ⟨_, he⟩ | ⟨e, he⟩ | ⟨he, _⟩ <;>
      simp only [he] at ht <;> cases ht
    exact .inl rfl
  | fails e going => cases ht

/-- A column stays through a run in which no other writer drops it. -/
theorem has_run {name : String} {f : ColumnDef} {s s' : Evolution} {as : List EvolveAction}
    (h : Run (EvolveStep S table want retries) s as s') (hs : s.Has name f)
    (hothers : ∀ t, .others t ∈ as → HasColumn name f t) : s'.Has name f := by
  induction h with
  | nil s => exact hs
  | @cons s t u a as hstep _ ih =>
    refine ih (hstep.has hs fun l hl => hothers l ?_) fun l hl => hothers l (List.mem_cons_of_mem _ hl)
    rw [hl]
    exact List.mem_cons_self

theorem Evolution.Has.start {name : String} {f : ColumnDef} {t : Loaded} (h : fieldNamed t.schema name = some f) :
    (Evolution.start S table want retries t).Has name f := by
  refine ⟨⟨t, rfl, h⟩, fun t' ht' => ?_⟩
  simp only [Evolution.start, evolveStart] at ht'
  split at ht'
  · cases ht'
  · rw [held_look ht']
    exact ⟨t, rfl, h⟩

end Invariant

/-! ## How it ends -/

/-- What is so after any number of steps of a schema change begun over `t₀`, and of other writers. -/
structure EvolveEnds (S : Schemas) (table : String) (want : List ColumnDef)
    (retries : Except PeqlError Nat) (t₀ : Loaded)
    (as : List EvolveAction) (s : Evolution) : Prop where
  commits : s.commits ≤ retriesOf retries + 1
  steps : (as.filter EvolveAction.own).length ≤ 4 * retriesOf retries + 3
  goesOn : s.phase.done = false → ∃ a s', a.own = true ∧ EvolveStep S table want retries s a s'
  covers : ∀ t, s.phase = .evolved t → S.Covers t.schema want
  /-- A column of before is in the table returned when every other writer left it. -/
  keeps : ∀ t name f, s.phase = .evolved t → fieldNamed t₀.schema name = some f →
    (∀ l, .others l ∈ as → HasColumn name f l) → fieldNamed t.schema name = some f
  /-- The columns of the last other writer are as it left them. -/
  leaves : ∀ name f, HasColumn name f s.left → HasColumn name f s.table

/-- A schema change makes no more commits than the table's retries allow and one, and ends; the table it returns has
every wanted column with a type that is the same, and every column of before that no other writer took away; and
however it ends, a refusal of a type among others, no column is other than other writers left it. -/
theorem evolve_ends (S : Schemas) (table : String) (want : List ColumnDef)
    (retries : Except PeqlError Nat) (t₀ : Loaded)
    {as : List EvolveAction} {s : Evolution}
    (h : Run (EvolveStep S table want retries) (.start S table want retries t₀) as s) :
    EvolveEnds S table want retries t₀ as s := by
  have hstart := Evolution.Sound.start S table want retries t₀
  have hsound := h.inv (fun _ _ _ hs hstep => hstep.sound hs) hstart
  have hleft := steps_left hstart h
  refine ⟨?_, ?_, goes_on, fun t ht => ?_, fun t name f ht hf hothers => ?_, hsound.left⟩
  · have hcounts := hsound.counts
    cases hp : s.phase <;> rw [hp] at hcounts <;> simp only [Evolving.Counts] at hcounts <;> omega
  · have hbound : (Evolution.start S table want retries t₀).phase.left (retriesOf retries) ≤
      4 * retriesOf retries + 3 := by
      simp only [Evolution.start, evolveStart]
      split
      · exact Nat.zero_le _
      · exact left_look ..
    omega
  · have hreturns := hsound.returns
    rw [ht] at hreturns
    exact hreturns
  · obtain ⟨l, hl, hcol⟩ := (has_run h (.start hf) hothers).2 t (by rw [ht]; rfl)
    obtain rfl := Option.some.inj hl
    exact hcol

/-- A table of optional columns of one type. -/
def columnsTable (id : Nat) (names : List String) : Loaded := ⟨"u1", id, names.map fun n => ⟨n, "long", true⟩⟩

/-- A column is added to a table no other writer changes. -/
theorem column_added :
    EvolveEnds plainSchemas "sales.orders" (columnsTable 0 ["a", "x"]).schema (.ok 4)
      (columnsTable 0 ["a", "b"]) [.commits]
      ⟨some (columnsTable 1 ["a", "b", "x"]), some (columnsTable 0 ["a", "b"]),
        .evolved (columnsTable 1 ["a", "b", "x"]), 1⟩ :=
  evolve_ends plainSchemas "sales.orders" (columnsTable 0 ["a", "x"]).schema (.ok 4) (columnsTable 0 ["a", "b"])
    (.cons (.commits 1 rfl rfl (by decide)) (.nil _))

/-- Another writer drops a column before the commit: the table returned is without it. -/
theorem column_dropped_meanwhile :
    ∃ s, Run (EvolveStep plainSchemas "sales.orders" (columnsTable 0 ["a", "x"]).schema (.ok 4))
        (.start plainSchemas "sales.orders" (columnsTable 0 ["a", "x"]).schema (.ok 4) (columnsTable 0 ["a", "b"]))
        [.others (some (columnsTable 1 ["a"])), .commits] s ∧
      s.phase = .evolved (columnsTable 2 ["a", "x"]) ∧
        fieldNamed (columnsTable 0 ["a", "b"]).schema "b" = some ⟨"b", "long", true⟩ ∧
          fieldNamed (columnsTable 2 ["a", "x"]).schema "b" = none :=
  ⟨_, .cons (.others _ _) (.cons (.commits 2 rfl rfl (by decide)) (.nil _)), rfl, rfl, rfl⟩

end Peql
