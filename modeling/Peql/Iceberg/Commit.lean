import Peql.Iceberg.Table
import Peql.Error
import Peql.Lib.Lookup

/-!
# What a write commits over

An append commits over the table as the crate loads it. An overwrite and a rewrite are the crate's append too, over a
copy of the table whose current snapshot lists other manifests: none (`overwriteBase`), or those added since the
snapshot being rewritten (`Rewritten.carried`, `rewriteBase`). The catalog never sees the copy, and the crate loads it
only while the table is where the copy was made (`pinned`).
-/

namespace Peql

/-- `peql.write`. -/
def Written.text : Written → String
  | append => "append"
  | overwrite => "overwrite"
  | rewrite => "rewrite"

/-- `{:?}` of a snapshot id a table may lack. -/
def debugId : Option Int → String
  | none => "None"
  | some id => "Some(" ++ toString id ++ ")"

/-! ## The copy -/

/-- The first snapshot `base` of the list, with other manifests and the totals they add up to. -/
def relist (base : Int) (manifests : List ManifestFile) (totals : Totals) : List Snapshot → List Snapshot
  | [] => []
  | s :: ss =>
    if s.id = base then { s with manifests := manifests, totals := some totals } :: ss
    else s :: relist base manifests totals ss

/-- A copy of `table` whose snapshot `base` lists `manifests`. -/
def listing (table : Metadata) (base : Int) (manifests : List ManifestFile) (totals : Totals) :
    Except PeqlError Metadata :=
  if table.snapshots.any fun s => s.id = base then
    .ok { table with snapshots := relist base manifests totals table.snapshots }
  else .error (.invalid (table.identifier ++ " has no snapshot " ++ toString base))

/-- `IcebergWrite::commit_overwrite`, up to its commit: the base it appends over, of an overwrite that began from
snapshot `base`. -/
def overwriteBase (base : Option Int) (table : Metadata) : Except PeqlError Metadata :=
  if table.current ≠ base then
    .error (.conflict (table.identifier ++ " is at snapshot " ++ debugId table.current ++
      "; the overwrite began from " ++ debugId base))
  else
    match base with
    | none => .ok table
    | some base =>
      if table.formatVersion ≠ 2 then
        .error (.invalid (table.identifier ++ " is Iceberg format V" ++ toString table.formatVersion ++
          "; peQL overwrites format 2 tables"))
      else listing table base [] .zero

/-! ## What a rewrite keeps -/

/-- The snapshot a rewrite replaces the files of: its manifests, and the manifests added since that had to be read. -/
structure Rewritten where
  snapshot : Int
  manifests : List String
  scanned : Lookup String Totals

def noSnapshot (table : Metadata) (snapshot : Int) : PeqlError :=
  .invalid (table.identifier ++ " has no snapshot " ++ toString snapshot)

def Rewritten.of (table : Metadata) (snapshot : Int) : Except PeqlError Rewritten :=
  match table.snapshotById snapshot with
  | none => .error (noSnapshot table snapshot)
  | some s => .ok ⟨snapshot, s.manifests.map ManifestFile.path, Lookup.empty⟩

/-- The snapshots from `now` back to `of`, newest first, `of` left out; none when `of` is not among the ancestors. The
walk takes at most `fuel` steps: one more than there are snapshots is enough where a parent is always older. -/
def ancestorsSince (table : Metadata) (of : Int) : Nat → Option Int → Option (List Snapshot)
  | 0, _ => none
  | fuel + 1, now =>
    if now = some of then some []
    else
      match now.bind table.snapshotById with
      | none => none
      | some s => (ancestorsSince table of fuel s.parent).map (s :: ·)

/-- `<id> (<what it did>)`. -/
def Snapshot.did (s : Snapshot) : String :=
  toString s.id ++ " (" ++ (match s.summary with | some w => w.write.text | none => s.operation) ++ ")"

/-- The text of an entry that is no data file. -/
def addedDeletes (m : ManifestFile) : String := "snapshot " ++ toString m.addedSnapshotId ++ " added delete files"

/-- What the alive data files of a manifest add up to; `none` when one of its alive entries is no data file. -/
def entryTotals : List ManifestEntry → Option Totals
  | [] => some .zero
  | e :: es =>
    if e.alive then
      if e.content ≠ .data then none
      else (entryTotals es).map fun t => (Totals.mk e.file.records 1 e.file.bytes).add t
    else entryTotals es

namespace Rewritten

/-- What the data files of `m` add up to, read once. -/
def scan (r : Rewritten) (m : ManifestFile) : Except PeqlError (Rewritten × Totals) :=
  match r.scanned m.path with
  | some seen => .ok (r, seen)
  | none =>
    match entryTotals m.entries with
    | none => .error (.conflict (addedDeletes m))
    | some t => .ok ({ r with scanned := r.scanned.insert m.path t }, t)

/-- Why a rewrite is refused: what happened since its snapshot, and which snapshots came. -/
def refused (r : Rewritten) (table : Metadata) (since : List Snapshot) (why : String) : PeqlError :=
  .conflict (table.identifier ++ ": " ++ why ++ " since snapshot " ++ toString r.snapshot ++
    ", whose files were being rewritten (snapshots since: " ++ ", ".intercalate (since.map Snapshot.did) ++ ")")

/-- The counts of a manifest's files and rows, where its list entry has all four. -/
def listCounts (m : ManifestFile) : Option Totals :=
  match m.addedFiles, m.existingFiles, m.addedRows, m.existingRows with
  | some af, some ef, some ar, some er => some ⟨ar + er, af + ef, 0⟩
  | _, _, _, _ => none

/-- What the manifests added since add up to: from the list's counts where it has them (those manifests are `counted`:
their bytes are not known yet), and from the manifest itself where it does not. -/
def countCarried (refused : String → PeqlError) (r : Rewritten) :
    List ManifestFile → Except PeqlError (Rewritten × Totals × List ManifestFile)
  | [] => .ok (r, .zero, [])
  | m :: ms =>
    if m.content ≠ .data then .error (refused (addedDeletes m))
    else
      match r.scanned m.path with
      | some seen => do
        let (r, totals, counted) ← countCarried refused r ms
        .ok (r, seen.add totals, counted)
      | none =>
        match listCounts m with
        | some counts => do
          let (r, totals, counted) ← countCarried refused r ms
          .ok (r, counts.add totals, m :: counted)
        | none =>
          match r.scan m with
          | .error (.conflict why) => .error (refused why)
          | .error e => .error e
          | .ok (r, seen) => do
            let (r, totals, counted) ← countCarried refused r ms
            .ok (r, seen.add totals, counted)

/-- The bytes of the files of some manifests, each read. -/
def scanBytes (r : Rewritten) : List ManifestFile → Except PeqlError (Rewritten × Nat)
  | [] => .ok (r, 0)
  | m :: ms => do
    let (r, seen) ← r.scan m
    let (r, bytes) ← scanBytes r ms
    .ok (r, seen.bytes + bytes)

/-- `total-files-size` of a snapshot. -/
def size (table : Metadata) (id : Int) : Option Nat :=
  (table.snapshotById id).bind fun s => s.totals.map Totals.bytes

/-- The manifests of snapshot `now` that the rewrite keeps, every one added since its own snapshot, and what their files
add up to; refused when anything since replaced or removed the files it rewrote, or could delete rows of them. -/
def carried (r : Rewritten) (table : Metadata) (now : Int) :
    Except PeqlError (Rewritten × List ManifestFile × Totals) :=
  match ancestorsSince table r.snapshot (table.snapshots.length + 1) (some now) with
  | none =>
    .error (.conflict (table.identifier ++ ": snapshot " ++ toString r.snapshot ++
      ", being rewritten, is no longer an ancestor of the current snapshot " ++ toString now))
  | some since =>
    match table.snapshotById now with
    | none => .error (noSnapshot table now)
    | some s =>
      match r.manifests.find? fun p => p ∉ s.manifests.map ManifestFile.path with
      | some gone =>
        .error (r.refused table since
          ("its files were replaced or removed (manifest " ++ gone ++ " is no longer listed)"))
      | none => do
        let kept := s.manifests.filter fun m => m.path ∉ r.manifests
        let (r', totals, counted) ← countCarried (r.refused table since) r kept
        match size table now, size table r.snapshot with
        | some n, some o =>
          if o ≤ n then .ok (r', kept, { totals with bytes := n - o })
          else
            let (r'', bytes) ← scanBytes r' counted
            .ok (r'', kept, { totals with bytes := totals.bytes + bytes })
        | _, _ =>
          let (r'', bytes) ← scanBytes r' counted
          .ok (r'', kept, { totals with bytes := totals.bytes + bytes })

end Rewritten

/-- The table's current snapshot, while snapshot `of` is rewritten. -/
def currentWhileRewriting (table : Metadata) (of : Int) : Except PeqlError Int :=
  match table.current with
  | some now => .ok now
  | none => .error (.conflict (table.identifier ++ " has no current snapshot; snapshot " ++ toString of ++
      " was being rewritten"))

/-- `IcebergWrite::commit_rewrite`, before its reload: what it must know of the snapshot it rewrites. -/
def rewriteBegin (table : Metadata) (of : Int) : Except PeqlError Rewritten :=
  if table.formatVersion ≠ 2 then
    .error (.invalid (table.identifier ++ " is Iceberg format V" ++ toString table.formatVersion ++
      "; peQL rewrites format 2 tables"))
  else Rewritten.of table of

/-- `IcebergWrite::commit_rewrite`, between its reload and its first attempt: what was appended since is read. -/
def rewriteRead (r : Rewritten) (table : Metadata) : Except PeqlError Rewritten := do
  let now ← currentWhileRewriting table r.snapshot
  let (r, _, _) ← r.carried table now
  .ok r

/-- One attempt of `IcebergWrite::commit_rewrite`, up to its commit: the base it appends over. -/
def rewriteBase (r : Rewritten) (table : Metadata) : Except PeqlError (Rewritten × Metadata) := do
  let now ← currentWhileRewriting table r.snapshot
  let (r, kept, totals) ← r.carried table now
  let asBase ← listing table now kept totals
  .ok (r, asBase)

/-! ## The pinned catalog -/

/-- `Pinned::load_table`: the base, only while the table is the one the base was made of, at the base's snapshot. -/
def pinned (write : String) (asBase table : Metadata) : Except String Metadata :=
  if table.current ≠ asBase.current then
    .error (table.identifier ++ " is at snapshot " ++ debugId table.current ++ "; the " ++ write ++
      " was made over " ++ debugId asBase.current)
  else if table.uuid ≠ asBase.uuid then
    .error (table.identifier ++ " was replaced since the " ++ write ++ " was made")
  else .ok asBase

/-- `Pinned::refused`, of a commit the catalog refused. -/
def pinnedRefused (write : String) (asBase : Metadata) (why : String) : PeqlError :=
  .conflict (asBase.identifier ++ ": the table moved since the " ++ write ++ " was made over snapshot " ++
    debugId asBase.current ++ ": " ++ why)

end Peql
