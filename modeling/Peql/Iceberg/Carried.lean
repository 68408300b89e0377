import Peql.Iceberg.Rows
import Peql.Lib.Effects

/-!
# What a rewrite carries forward

A rewrite's totals come of two paths. The counts of a manifest are those of its list entry or, where that lacks one,
those of the manifest, read and remembered (`Rewritten.scanned`); the bytes are the difference of two snapshots' counts
or, where one does not count them, those of the manifests. Here the calls keep what they have read (`Reader`), also when
they fail, and give what `Rewritten.carried` gives (`Reader.carried_agrees`). While the summaries and the lists count
right (`Counted`), every mix of the paths gives the plain sum over the live data files (`Reader.carried_spec`).
-/

namespace Peql

open Effects

/-! ## Live data files -/

/-- The data files among a manifest's alive entries. -/
def liveEntries (es : List ManifestEntry) : List TableFile :=
  (es.filter fun e => e.alive ∧ e.content = .data).map ManifestEntry.file

def ManifestFile.liveFiles (m : ManifestFile) : List TableFile := liveEntries m.entries

/-- The live data files of the data manifests of a list. -/
def listedFiles (ms : List ManifestFile) : List TableFile :=
  (ms.filter fun m => m.content = .data).flatMap ManifestFile.liveFiles

def liveTotals (ms : List ManifestFile) : Totals := fileTotals (listedFiles ms)

namespace Totals

@[simp] theorem zero_add (t : Totals) : zero.add t = t := by
  simp [zero, add]

@[simp] theorem add_records (a b : Totals) : (a.add b).records = a.records + b.records := rfl

@[simp] theorem add_files (a b : Totals) : (a.add b).files = a.files + b.files := rfl

@[simp] theorem add_bytes (a b : Totals) : (a.add b).bytes = a.bytes + b.bytes := rfl

theorem ext' {a b : Totals} (hr : a.records = b.records) (hf : a.files = b.files) (hb : a.bytes = b.bytes) : a = b := by
  cases a
  cases b
  simp_all

end Totals

@[simp] theorem fileTotals_nil : fileTotals [] = .zero := rfl

/-- Totals of two lists add up. -/
theorem fileTotals_append (fs gs : List TableFile) : fileTotals (fs ++ gs) = (fileTotals fs).add (fileTotals gs) := by
  simp [fileTotals, Totals.add]

/-- The order does not matter. -/
theorem fileTotals_perm {fs gs : List TableFile} (h : fs.Perm gs) : fileTotals fs = fileTotals gs := by
  unfold fileTotals
  rw [(h.map _).sum_nat, (h.map _).sum_nat, h.length_eq]

@[simp] theorem liveTotals_nil : liveTotals [] = .zero := rfl

theorem liveTotals_append (a b : List ManifestFile) : liveTotals (a ++ b) = (liveTotals a).add (liveTotals b) := by
  simp [liveTotals, listedFiles, fileTotals_append]

/-- A data manifest adds what its live files add up to. -/
theorem liveTotals_cons {m : ManifestFile} (hm : m.content = .data) (ms : List ManifestFile) :
    liveTotals (m :: ms) = (fileTotals m.liveFiles).add (liveTotals ms) := by
  simp [liveTotals, listedFiles, hm, fileTotals_append]

/-- The order of the manifests does not matter. -/
theorem liveTotals_perm {a b : List ManifestFile} (h : a.Perm b) : liveTotals a = liveTotals b :=
  fileTotals_perm ((h.filter _).flatMap_right _)

theorem liveEntries_added (files : List TableFile) :
    liveEntries (files.map fun f => (⟨true, .data, f⟩ : ManifestEntry)) = files := by
  induction files with
  | nil => rfl
  | cons f fs ih =>
    show f :: liveEntries (fs.map fun f => (⟨true, .data, f⟩ : ManifestEntry)) = f :: fs
    rw [ih]

/-- The files of a commit are live in the manifest it adds. -/
@[simp] theorem addedManifest_live (path : String) (id : Int) (files : List TableFile) :
    (addedManifest path id files).liveFiles = files :=
  liveEntries_added files

/-- What a manifest's alive entries add up to, when all are data files. -/
theorem entryTotals_eq {es : List ManifestEntry} : ∀ {t : Totals}, entryTotals es = some t →
    t = fileTotals (liveEntries es) := by
  induction es with
  | nil =>
    intro t h
    exact (Option.some.inj h).symm
  | cons e es ih =>
    intro t h
    unfold entryTotals at h
    split at h
    case isTrue halive =>
      split at h
      case isTrue => exact absurd h (by simp)
      case isFalse hdata =>
        have hdata : e.content = .data := not_not.1 hdata
        obtain ⟨t', ht', rfl⟩ := Option.map_eq_some_iff.1 h
        have hlive : liveEntries (e :: es) = [e.file] ++ liveEntries es := by
          simp [liveEntries, halive, hdata]
        rw [hlive, fileTotals_append, ← ih ht']
        rfl
    case isFalse halive =>
      have hlive : liveEntries (e :: es) = liveEntries es := by
        simp [liveEntries, halive]
      rw [hlive]
      exact ih h

/-! ## Counts that are right -/

/-- Where the list entry of a data manifest has all four counts, they are those of its live files. -/
def ManifestFile.Counted (m : ManifestFile) : Prop :=
  m.content = .data → ∀ t, Rewritten.listCounts m = some t →
    t.records = (fileTotals m.liveFiles).records ∧ t.files = (fileTotals m.liveFiles).files

/-- A snapshot whose summary and list count its live data right, where they count it. -/
structure Snapshot.Counted (s : Snapshot) : Prop where
  list : ∀ m ∈ s.manifests, m.Counted
  summary : ∀ t, s.totals = some t → t = liveTotals s.manifests

/-- A table whose snapshots all count right. -/
def Counted (table : Metadata) : Prop := ∀ s ∈ table.snapshots, s.Counted

/-- A table stays counted when its next snapshot is. -/
theorem Counted.push {table : Metadata} (h : Counted table) {s : Snapshot} (hs : s.Counted) :
    Counted (table.push s) := by
  intro t ht
  rcases List.mem_append.1 ht with ht | ht
  · exact h t ht
  · rw [List.mem_singleton.1 ht]
    exact hs

/-- The manifest a commit adds counts its files. -/
theorem addedManifest_counted (path : String) (id : Int) (files : List TableFile) :
    (addedManifest path id files).Counted := by
  intro _ t ht
  rw [addedManifest_live]
  obtain rfl := Option.some.inj ht
  exact ⟨rfl, rfl⟩

/-- A base whose current snapshot counts what it lists, all of it data; nothing, when there is no snapshot. -/
structure CountedBase (base : Metadata) : Prop where
  data : ∀ m ∈ base.currentManifests, m.content = .data
  list : ∀ m ∈ base.currentManifests, m.Counted
  totals : (base.currentSnapshot.bind Snapshot.totals).getD .zero = liveTotals base.currentManifests

/-- The snapshot an append produces over such a base counts its live data, and right. -/
theorem CountedBase.fastAppend {base : Metadata} (h : CountedBase base) (id : Int) (path : String)
    (files : List TableFile) (summary : Summary) :
    let s := Peql.fastAppend base id path files summary
    s.totals = some (liveTotals s.manifests) ∧ s.Counted := by
  have htotals : (Peql.fastAppend base id path files summary).totals =
      some (liveTotals (Peql.fastAppend base id path files summary).manifests) := by
    show some (((base.currentSnapshot.bind Snapshot.totals).getD .zero).add (fileTotals files)) =
      some (liveTotals (base.currentManifests ++ [addedManifest path id files]))
    rw [h.totals, liveTotals_append, liveTotals_cons rfl, addedManifest_live, liveTotals_nil]
    rfl
  refine ⟨htotals, ⟨fun m hm => ?_, fun t ht => ?_⟩⟩
  · rcases List.mem_append.1 hm with hm | hm
    · exact h.list m hm
    · rw [List.mem_singleton.1 hm]
      exact addedManifest_counted path id files
  · rw [htotals] at ht
    exact (Option.some.inj ht).symm

/-! ## Calls that keep what they read -/

/-- What a rewrite keeps between its attempts, and the manifests read so far, in order. -/
structure Reader where
  rewritten : Rewritten
  reads : List String

/-- A call that may read manifests; what it has read stays read when it fails. -/
abbrev ManifestRead (α : Type) := EStateM PeqlError Reader α

namespace Reader

/-- The manifest at `path` is read. -/
def reading (s : Reader) (path : String) : Reader := { s with reads := s.reads ++ [path] }

/-- The manifest at `path`, read, adds up to `t`. -/
def remember (s : Reader) (path : String) (t : Totals) : Reader :=
  { s with rewritten := { s.rewritten with scanned := s.rewritten.scanned.insert path t } }

/-- What the data files of `m` add up to, read once. -/
def scan (m : ManifestFile) : ManifestRead Totals := do
  match (← get).rewritten.scanned m.path with
  | some seen => pure seen
  | none =>
    modify fun s => s.reading m.path
    match entryTotals m.entries with
    | none => throw (.conflict (addedDeletes m))
    | some t =>
      modify fun s => s.remember m.path t
      pure t

/-- The refusal of a manifest found to hold delete files, in the words of the attempt. -/
def refusing (refused : String → PeqlError) : PeqlError → PeqlError
  | .conflict why => refused why
  | e => e

/-- `scan` of a manifest whose list entry lacks a count. -/
def scanRefusing (refused : String → PeqlError) (m : ManifestFile) : ManifestRead Totals := fun s =>
  match scan m s with
  | .ok t s' => .ok t s'
  | .error e s' => .error (refusing refused e) s'

/-- What the manifests added since add up to, and those counted by the list. -/
def countCarried (refused : String → PeqlError) : List ManifestFile → ManifestRead (Totals × List ManifestFile)
  | [] => pure (.zero, [])
  | m :: ms => do
    if m.content ≠ .data then throw (refused (addedDeletes m))
    else
      match (← get).rewritten.scanned m.path with
      | some seen => do
        let (totals, counted) ← countCarried refused ms
        pure (seen.add totals, counted)
      | none =>
        match Rewritten.listCounts m with
        | some counts => do
          let (totals, counted) ← countCarried refused ms
          pure (counts.add totals, m :: counted)
        | none => do
          let seen ← scanRefusing refused m
          let (totals, counted) ← countCarried refused ms
          pure (seen.add totals, counted)

/-- The bytes of the files of some manifests, each read unless it was. -/
def scanBytes : List ManifestFile → ManifestRead Nat
  | [] => pure 0
  | m :: ms => do
    let seen ← scan m
    let bytes ← scanBytes ms
    pure (seen.bytes + bytes)

/-- The bytes of what is carried: the difference of two snapshots' counts, or those of the manifests. -/
def carriedBytes (now of : Option Nat) (totals : Totals) (counted : List ManifestFile) : ManifestRead Totals :=
  match now, of with
  | some n, some o =>
    if o ≤ n then pure { totals with bytes := n - o }
    else do
      let bytes ← scanBytes counted
      pure { totals with bytes := totals.bytes + bytes }
  | _, _ => do
    let bytes ← scanBytes counted
    pure { totals with bytes := totals.bytes + bytes }

/-- `Rewritten::carried`. -/
def carried (table : Metadata) (now : Int) : ManifestRead (List ManifestFile × Totals) := do
  let r := (← get).rewritten
  match ancestorsSince table r.snapshot (table.snapshots.length + 1) (some now) with
  | none =>
    throw (.conflict (table.identifier ++ ": snapshot " ++ toString r.snapshot ++
      ", being rewritten, is no longer an ancestor of the current snapshot " ++ toString now))
  | some since =>
    match table.snapshotById now with
    | none => throw (noSnapshot table now)
    | some s =>
      match r.manifests.find? fun p => p ∉ s.manifests.map ManifestFile.path with
      | some gone =>
        throw (r.refused table since
          ("its files were replaced or removed (manifest " ++ gone ++ " is no longer listed)"))
      | none => do
        let kept := s.manifests.filter fun m => m.path ∉ r.manifests
        let (totals, counted) ← countCarried (r.refused table since) kept
        let totals ← carriedBytes (Rewritten.size table now) (Rewritten.size table r.snapshot) totals counted
        pure (kept, totals)

/-! ## They give what the attempts are modelled to give -/

/-- A call that keeps its view of the snapshot, and one that gives it: the same value and view, or the same error. -/
def Agrees {α : Type} (x : Except PeqlError (Rewritten × α)) (y : EStateM.Result PeqlError Reader α) : Prop :=
  match x, y with
  | .ok (r, a), .ok b s => r = s.rewritten ∧ a = b
  | .error e, .error e' _ => e = e'
  | _, _ => False

/-- Agreement goes through a sequence. -/
theorem Agrees.bind {α β : Type} {x : Except PeqlError (Rewritten × α)} {y : ManifestRead α} {s : Reader}
    {f : Rewritten × α → Except PeqlError (Rewritten × β)} {g : α → ManifestRead β} (h : Agrees x (y s))
    (hf : ∀ a t, Agrees (f (t.rewritten, a)) (g a t)) : Agrees (x >>= f) ((y >>= g) s) := by
  rw [bind_apply]
  cases x with
  | error e =>
    cases hy : y s with
    | ok b t =>
      rw [hy] at h
      exact h.elim
    | error e' t =>
      rw [hy] at h
      exact h
  | ok p =>
    obtain ⟨r, a⟩ := p
    cases hy : y s with
    | error e' t =>
      rw [hy] at h
      exact h.elim
    | ok b t =>
      rw [hy] at h
      obtain ⟨rfl, rfl⟩ := h
      exact hf a t

/-- A manifest is read once in both. -/
theorem scan_agrees (m : ManifestFile) (s : Reader) : Agrees (s.rewritten.scan m) (scan m s) := by
  unfold Rewritten.scan scan
  cases hseen : s.rewritten.scanned m.path with
  | some seen =>
    rw [bind_of_ok (show (get : ManifestRead Reader) s = .ok s s from rfl), hseen]
    exact ⟨rfl, rfl⟩
  | none =>
    rw [bind_of_ok (show (get : ManifestRead Reader) s = .ok s s from rfl), hseen]
    cases hread : entryTotals m.entries with
    | none => exact rfl
    | some t => exact ⟨rfl, rfl⟩

theorem scanRefusing_agrees {β : Type} (refused : String → PeqlError) (m : ManifestFile) (s : Reader)
    {f : Rewritten → Totals → Except PeqlError (Rewritten × β)} {g : Totals → ManifestRead β}
    (hf : ∀ a t, Agrees (f t.rewritten a) (g a t)) :
    Agrees
      (match s.rewritten.scan m with
        | .error (.conflict why) => .error (refused why)
        | .error e => .error e
        | .ok (r, seen) => f r seen)
      ((scanRefusing refused m >>= g) s) := by
  have h := scan_agrees m s
  rw [bind_apply]
  unfold scanRefusing
  cases hx : s.rewritten.scan m with
  | error e =>
    cases hy : scan m s with
    | ok b t =>
      rw [hx, hy] at h
      exact h.elim
    | error e' t =>
      rw [hx, hy] at h
      obtain rfl := h
      cases e <;> exact rfl
  | ok p =>
    obtain ⟨r, a⟩ := p
    cases hy : scan m s with
    | error e' t =>
      rw [hx, hy] at h
      exact h.elim
    | ok b t =>
      rw [hx, hy] at h
      obtain ⟨rfl, rfl⟩ := h
      exact hf a t

/-- The counts of the manifests added agree. -/
theorem countCarried_agrees (refused : String → PeqlError) (ms : List ManifestFile) :
    ∀ s : Reader, Agrees (s.rewritten.countCarried refused ms) (countCarried refused ms s) := by
  induction ms with
  | nil =>
    intro s
    exact ⟨rfl, rfl⟩
  | cons m ms ih =>
    intro s
    unfold Rewritten.countCarried countCarried
    by_cases hdata : m.content ≠ .data
    · simp only [if_pos hdata]
      exact rfl
    · simp only [if_neg hdata]
      rw [bind_of_ok (show (get : ManifestRead Reader) s = .ok s s from rfl)]
      -- What is left, after the manifest: it is counted before the rest.
      cases hseen : s.rewritten.scanned m.path with
      | some seen => exact (ih s).bind fun a t => ⟨rfl, rfl⟩
      | none =>
        cases hcounts : Rewritten.listCounts m with
        | some counts => exact (ih s).bind fun a t => ⟨rfl, rfl⟩
        | none =>
          refine scanRefusing_agrees refused m s fun seen t => ?_
          exact (ih t).bind fun a u => ⟨rfl, rfl⟩

/-- So do their bytes. -/
theorem scanBytes_agrees (ms : List ManifestFile) :
    ∀ s : Reader, Agrees (s.rewritten.scanBytes ms) (scanBytes ms s) := by
  induction ms with
  | nil =>
    intro s
    exact ⟨rfl, rfl⟩
  | cons m ms ih =>
    intro s
    exact (scan_agrees m s).bind fun seen t => (ih t).bind fun bytes u => ⟨rfl, rfl⟩

/-- An attempt that keeps what it has read gives what the attempt is modelled to give. -/
theorem carried_agrees (table : Metadata) (now : Int) (s : Reader) :
    Agrees (s.rewritten.carried table now) (carried table now s) := by
  unfold Rewritten.carried carried
  rw [bind_of_ok (show (get : ManifestRead Reader) s = .ok s s from rfl)]
  cases hsince : ancestorsSince table s.rewritten.snapshot (table.snapshots.length + 1) (some now) with
  | none => exact rfl
  | some since =>
    cases ht : table.snapshotById now with
    | none => exact rfl
    | some t =>
      dsimp only
      cases hgone : s.rewritten.manifests.find? fun p => p ∉ t.manifests.map ManifestFile.path with
      | some gone => exact rfl
      | none =>
        refine (countCarried_agrees _ _ s).bind fun a u => ?_
        have hbytes : Agrees
            (do
              let read ← u.rewritten.scanBytes a.2
              .ok (read.1, t.manifests.filter (fun m => m.path ∉ s.rewritten.manifests),
                { a.1 with bytes := a.1.bytes + read.2 }))
            ((do
              let totals ← (do
                let bytes ← scanBytes a.2
                pure { a.1 with bytes := a.1.bytes + bytes })
              pure (t.manifests.filter (fun m => m.path ∉ s.rewritten.manifests), totals) : ManifestRead _) u) := by
          rw [bind_assoc]
          exact (scanBytes_agrees a.2 u).bind fun bytes v => ⟨rfl, rfl⟩
        unfold carriedBytes
        dsimp only
        cases hn : Rewritten.size table now with
        | none => exact hbytes
        | some n =>
          cases ho : Rewritten.size table s.rewritten.snapshot with
          | none => exact hbytes
          | some o =>
            dsimp only
            split
            · exact ⟨rfl, rfl⟩
            · exact hbytes

/-! ## What they add up to -/

/-- What a rewrite of snapshot `of` keeps of a table: what it remembers is what the table's manifests add up to, and it
remembers each manifest it read, once. -/
structure Ready (table : Metadata) (of : Snapshot) (s : Reader) : Prop where
  snapshot : s.rewritten.snapshot = of.id
  manifests : s.rewritten.manifests = of.manifests.map ManifestFile.path
  scanned : ∀ p t, s.rewritten.scanned p = some t →
    ∃ u ∈ table.snapshots, ∃ m ∈ u.manifests, m.path = p ∧ t = fileTotals m.liveFiles
  remembered : ∀ p ∈ s.reads, s.rewritten.scanned p ≠ none
  once : s.reads.Nodup

variable {table : Metadata} {of : Snapshot}

/-- What is remembered of a manifest of the table is what it adds up to. -/
theorem Ready.seen {s : Reader} (hs : s.Ready table of) (h : WellFormed table) {u : Snapshot}
    (hu : u ∈ table.snapshots) {m : ManifestFile} (hm : m ∈ u.manifests) {t : Totals}
    (hseen : s.rewritten.scanned m.path = some t) : t = fileTotals m.liveFiles := by
  obtain ⟨u', hu', m', hm', hpath, ht⟩ := hs.scanned _ _ hseen
  rw [ht, h.immutable u' hu' u hu m' hm' m hm hpath]

/-- A manifest not read yet is read for the first time. -/
theorem Ready.reading_once {s : Reader} (hs : s.Ready table of) {p : String} (hp : s.rewritten.scanned p = none) :
    (s.reading p).reads.Nodup := by
  show (s.reads ++ [p]).Nodup
  rw [List.nodup_append]
  refine ⟨hs.once, List.nodup_singleton p, ?_⟩
  rintro q hq q' hq' rfl
  rw [List.mem_singleton.1 hq'] at hq
  exact hs.remembered p hq hp

/-- What is remembered of it is what its live files add up to. -/
theorem Ready.remember {s : Reader} (hs : s.Ready table of) {u : Snapshot} (hu : u ∈ table.snapshots)
    {m : ManifestFile} (hm : m ∈ u.manifests) (hp : s.rewritten.scanned m.path = none) :
    ((s.reading m.path).remember m.path (fileTotals m.liveFiles)).Ready table of where
  snapshot := hs.snapshot
  manifests := hs.manifests
  scanned := by
    intro p t ht
    have ht : s.rewritten.scanned.insert m.path (fileTotals m.liveFiles) p = some t := ht
    rw [Lookup.insert_apply] at ht
    split at ht
    case isTrue heq => exact ⟨u, hu, m, hm, heq.symm, (Option.some.inj ht).symm⟩
    case isFalse => exact hs.scanned p t ht
  remembered := by
    intro p hp'
    have hp' : p ∈ s.reads ++ [m.path] := hp'
    show s.rewritten.scanned.insert m.path (fileTotals m.liveFiles) p ≠ none
    rw [Lookup.insert_apply]
    split
    case isTrue => simp
    case isFalse hne =>
      rcases List.mem_append.1 hp' with hp' | hp'
      · exact hs.remembered p hp'
      · exact absurd (List.mem_singleton.1 hp') hne
  once := hs.reading_once hp

/-- However a call ends, no manifest was read twice. -/
abbrev Once : PeqlError → Reader → Prop := fun _ s => s.reads.Nodup

/-- A manifest's totals are its live files'. -/
theorem scan_spec (h : WellFormed table) {u : Snapshot} (hu : u ∈ table.snapshots) {m : ManifestFile}
    (hm : m ∈ u.manifests) :
    Ends (Ready table of) (scan m) (fun t s => t = fileTotals m.liveFiles ∧ s.Ready table of) Once := by
  refine Ends.read fun s hs => ?_
  cases hseen : s.rewritten.scanned m.path with
  | some seen =>
    rintro s' rfl
    exact ⟨hs.seen h hu hm hseen, hs⟩
  | none =>
    rintro s' rfl
    cases hread : entryTotals m.entries with
    | none => exact hs.reading_once hseen
    | some t =>
      obtain rfl := entryTotals_eq hread
      exact ⟨rfl, hs.remember hu hm hseen⟩

/-- So they are where the list lacks a count. -/
theorem scanRefusing_spec (h : WellFormed table) (refused : String → PeqlError) {u : Snapshot}
    (hu : u ∈ table.snapshots) {m : ManifestFile} (hm : m ∈ u.manifests) :
    Ends (Ready table of) (scanRefusing refused m) (fun t s => t = fileTotals m.liveFiles ∧ s.Ready table of) Once := by
  intro s hs
  have hscan := scan_spec h hu hm s hs
  unfold scanRefusing
  cases hx : scan m s with
  | ok t s' =>
    rw [hx] at hscan
    exact hscan
  | error e s' =>
    rw [hx] at hscan
    exact hscan

/-- The bytes of the live files of some manifests. -/
def bytesOf (ms : List ManifestFile) : Nat := (ms.map fun m => (fileTotals m.liveFiles).bytes).sum

/-- The bytes are those of the manifests scanned. -/
theorem scanBytes_spec (h : WellFormed table) {u : Snapshot} (hu : u ∈ table.snapshots) (ms : List ManifestFile)
    (hms : ∀ m ∈ ms, m ∈ u.manifests) :
    Ends (Ready table of) (scanBytes ms) (fun n s => n = bytesOf ms ∧ s.Ready table of) Once := by
  induction ms with
  | nil => exact fun s hs => ⟨rfl, hs⟩
  | cons m ms ih =>
    refine (scan_spec h hu (hms m (List.mem_cons_self ..))).bind fun seen => ?_
    rintro s ⟨rfl, hs⟩
    refine ((ih fun m' hm' => hms m' (List.mem_cons_of_mem _ hm')).bind
      (R := fun n s => n = bytesOf (m :: ms) ∧ s.Ready table of) fun bytes => ?_) s hs
    rintro s' ⟨rfl, hs'⟩
    exact ⟨by simp [bytesOf], hs'⟩

/-- What is known of the totals of some manifests, those of `counted` without their bytes. -/
structure CountedTotals (ms : List ManifestFile) (totals : Totals) (counted : List ManifestFile) : Prop where
  data : ∀ m ∈ ms, m.content = .data
  records : totals.records = (liveTotals ms).records
  files : totals.files = (liveTotals ms).files
  bytes : totals.bytes + bytesOf counted = (liveTotals ms).bytes
  sub : ∀ m ∈ counted, m ∈ ms

/-- One more manifest, whose totals are known. -/
theorem CountedTotals.seen {ms counted : List ManifestFile} {totals : Totals} (h : CountedTotals ms totals counted)
    {m : ManifestFile} (hm : m.content = .data) :
    CountedTotals (m :: ms) ((fileTotals m.liveFiles).add totals) counted where
  data := by simpa [hm] using h.data
  records := by simp [liveTotals_cons hm, h.records]
  files := by simp [liveTotals_cons hm, h.files]
  bytes := by
    rw [liveTotals_cons hm, Totals.add_bytes, Totals.add_bytes, ← h.bytes]
    omega
  sub := fun m' hm' => List.mem_cons_of_mem _ (h.sub m' hm')

/-- The list's counts have no bytes. -/
theorem listCounts_bytes {m : ManifestFile} {t : Totals} (h : Rewritten.listCounts m = some t) : t.bytes = 0 := by
  unfold Rewritten.listCounts at h
  split at h
  case h_1 =>
    obtain rfl := Option.some.inj h
    rfl
  case h_2 => exact absurd h (by simp)

/-- One more manifest, counted by the list. -/
theorem CountedTotals.listed {ms counted : List ManifestFile} {totals counts : Totals}
    (h : CountedTotals ms totals counted) {m : ManifestFile} (hm : m.content = .data) (hc : m.Counted)
    (hcounts : Rewritten.listCounts m = some counts) :
    CountedTotals (m :: ms) (counts.add totals) (m :: counted) where
  data := by simpa [hm] using h.data
  records := by simp [liveTotals_cons hm, h.records, (hc hm counts hcounts).1]
  files := by simp [liveTotals_cons hm, h.files, (hc hm counts hcounts).2]
  bytes := by
    have hsum : bytesOf (m :: counted) = (fileTotals m.liveFiles).bytes + bytesOf counted := by
      simp [bytesOf]
    rw [liveTotals_cons hm, Totals.add_bytes, Totals.add_bytes, listCounts_bytes hcounts, hsum, ← h.bytes]
    omega
  sub := by
    intro m' hm'
    rcases List.mem_cons.1 hm' with rfl | hm'
    · exact List.mem_cons_self ..
    · exact List.mem_cons_of_mem _ (h.sub m' hm')

/-- What counting `ms` ends with. -/
def CountsTo (table : Metadata) (of : Snapshot) (ms : List ManifestFile) (c : Totals × List ManifestFile)
    (s : Reader) : Prop := CountedTotals ms c.1 c.2 ∧ s.Ready table of

/-- What is counted is what is live, but for bytes not yet scanned. -/
theorem countCarried_spec (h : WellFormed table) (refused : String → PeqlError) {u : Snapshot}
    (hu : u ∈ table.snapshots) (ms : List ManifestFile) (hms : ∀ m ∈ ms, m ∈ u.manifests ∧ m.Counted) :
    Ends (Ready table of) (countCarried refused ms) (CountsTo table of ms) Once := by
  induction ms with
  | nil => exact fun s hs => ⟨⟨by simp, rfl, rfl, rfl, by simp⟩, hs⟩
  | cons m ms ih =>
    obtain ⟨hm, hc⟩ := hms m (List.mem_cons_self ..)
    have hrest := ih fun m' hm' => hms m' (List.mem_cons_of_mem _ hm')
    unfold countCarried
    by_cases hdata : m.content ≠ .data
    · simp only [if_pos hdata]
      exact fun s hs => hs.once
    · simp only [if_neg hdata]
      have hdata : m.content = .data := not_not.1 hdata
      refine Ends.read fun s hs => ?_
      cases hseen : s.rewritten.scanned m.path with
      | some seen =>
        obtain rfl := hs.seen h hu hm hseen
        rintro s' rfl
        refine (hrest.bind (R := CountsTo table of (m :: ms)) fun c => ?_) s' hs
        exact fun t ht => ⟨ht.1.seen hdata, ht.2⟩
      | none =>
        cases hcounts : Rewritten.listCounts m with
        | some counts =>
          rintro s' rfl
          refine (hrest.bind (R := CountsTo table of (m :: ms)) fun c => ?_) s' hs
          exact fun t ht => ⟨ht.1.listed hdata hc hcounts, ht.2⟩
        | none =>
          rintro s' rfl
          refine ((scanRefusing_spec h refused hu hm).bind
            (R := CountsTo table of (m :: ms)) fun seen => ?_) s' hs
          rintro t ⟨rfl, ht⟩
          refine (hrest.bind (R := CountsTo table of (m :: ms)) fun c => ?_) t ht
          exact fun t ht => ⟨ht.1.seen hdata, ht.2⟩

/-- The bytes, where the two counts differ by those of what is carried. -/
theorem carriedBytes_spec (h : WellFormed table) {u : Snapshot} (hu : u ∈ table.snapshots)
    {ms counted : List ManifestFile}
    {totals : Totals} (hms : ∀ m ∈ ms, m ∈ u.manifests) (hc : CountedTotals ms totals counted) {now since : Option Nat}
    (hsize : ∀ n o, now = some n → since = some o → n = o + (liveTotals ms).bytes) :
    Ends (Ready table of) (carriedBytes now since totals counted) (fun t s => t = liveTotals ms ∧ s.Ready table of)
      Once := by
  have hread : Ends (Ready table of)
      (do
        let bytes ← scanBytes counted
        pure { totals with bytes := totals.bytes + bytes })
      (fun t s => t = liveTotals ms ∧ s.Ready table of) Once := by
    refine (scanBytes_spec h hu counted fun m hm => hms m (hc.sub m hm)).bind fun bytes => ?_
    rintro s ⟨rfl, hs⟩
    exact ⟨Totals.ext' hc.records hc.files hc.bytes, hs⟩
  unfold carriedBytes
  cases hn : now with
  | none => exact hread
  | some n =>
    cases ho : since with
    | none => exact hread
    | some o =>
      dsimp only
      split
      · intro s hs
        refine ⟨Totals.ext' hc.records hc.files ?_, hs⟩
        show n - o = _
        rw [hsize n o hn ho]
        omega
      · exact hread

/-- `total-files-size` of a snapshot that counts right. -/
theorem size_eq (h : WellFormed table) (hc : Counted table) {u : Snapshot} (hu : u ∈ table.snapshots) {n : Nat}
    (hn : Rewritten.size table u.id = some n) : n = (liveTotals u.manifests).bytes := by
  unfold Rewritten.size at hn
  rw [Metadata.snapshotById_of_mem h hu] at hn
  obtain ⟨t, ht, rfl⟩ := Option.map_eq_some_iff.1 hn
  rw [(hc u hu).summary t ht]

/-- An attempt that succeeds carries the manifests listed by the current snapshot and not by the rewritten one, and
what their live data files add up to. -/
theorem carried_spec (h : WellFormed table) (hc : Counted table) (hof : of ∈ table.snapshots) (now : Int) :
    Ends (Ready table of) (carried table now)
      (fun c s => (∃ u ∈ table.snapshots, u.id = now ∧
          c.1 = u.manifests.filter fun m => m.path ∉ of.manifests.map ManifestFile.path) ∧
        (∀ m ∈ c.1, m.content = .data) ∧ c.2 = liveTotals c.1 ∧ s.Ready table of) Once := by
  refine Ends.read fun s hs => ?_
  dsimp only
  cases hsince : ancestorsSince table s.rewritten.snapshot (table.snapshots.length + 1) (some now) with
  | none =>
    rintro s' rfl
    exact hs.once
  | some since =>
    cases ht : table.snapshotById now with
    | none =>
      rintro s' rfl
      exact hs.once
    | some u =>
      obtain ⟨hu, rfl⟩ := Metadata.snapshotById_mem ht
      dsimp only
      cases hgone : s.rewritten.manifests.find? fun p => p ∉ u.manifests.map ManifestFile.path with
      | some gone =>
        rintro s' rfl
        exact hs.once
      | none =>
        have hlisted : ∀ p ∈ of.manifests.map ManifestFile.path, p ∈ u.manifests.map ManifestFile.path := by
          intro p hp
          rw [← hs.manifests] at hp
          simpa using List.find?_eq_none.1 hgone p hp
        rintro s' rfl
        rw [hs.manifests, hs.snapshot]
        have hkept : ∀ m ∈ u.manifests.filter (fun m => m.path ∉ of.manifests.map ManifestFile.path),
            m ∈ u.manifests := fun m hm => (List.mem_filter.1 hm).1
        have hperm := liveTotals_perm (manifests_split h hof hu hlisted)
        rw [liveTotals_append] at hperm
        refine ((countCarried_spec h _ hu _ fun m hm => ⟨hkept m hm, (hc u hu).list m (hkept m hm)⟩).bind
          fun c => ?_) s' hs
        rintro t ⟨hcounted, ht⟩
        refine ((carriedBytes_spec h hu hkept hcounted ?_).bind fun totals => ?_) t ht
        · intro n o hn ho
          rw [size_eq h hc hu hn, size_eq h hc hof ho, hperm, Totals.add_bytes]
        · rintro v ⟨rfl, hv⟩
          exact ⟨⟨u, hu, rfl, rfl⟩, hcounted.data, rfl, hv⟩

/-- A snapshot more leaves what is known of the others. -/
theorem Ready.push {s : Reader} (hs : s.Ready table of) (snap : Snapshot) : s.Ready (table.push snap) of :=
  { hs with
    scanned := by
      intro p t ht
      obtain ⟨u, hu, hm⟩ := hs.scanned p t ht
      exact ⟨u, List.mem_append_left _ hu, hm⟩ }

end Reader

end Peql
